import Mathlib.Data.List.Forall2
import Treewalk.Evaluation.Operator
import Treewalk.Evaluation.State

/-!
# When two runs are alike

Two programs that differ only where the evaluator does not look, started on states that differ only
where it cannot look, should do the same. A `Likeness` fixes what may differ: which tokens stand for
each other, which identities of functions do, which frames are seen at all, and whether parentheses
of the first program may be missing in the second. From it the relations on trees, values, frames
and states follow, and this file proves that every operation on the store and every operator respects
them. The first store must also be in a given state on the frames that are not seen, so that the
relation says of these frames that nothing happens to them.

The names of variables and functions are the same in both runs, and so is the output, unless the likeness
says which names stand for each other, and which output corresponds.
-/

set_option linter.unusedSectionVars false

namespace Treewalk.Evaluation

/-- Values that look the same when they are printed, but for the names of functions. -/
inductive Shown (name : String → String → Prop) : Value → Value → Prop where
  | plain {v : Value} (h : ∀ c, v ≠ .function c) : Shown name v v
  | function {c c' : Closure} (h : name c.name c'.name) : Shown name (.function c) (.function c')

/-- Values that are shown with the same name are printed as the same text. -/
theorem Shown.text_eq {v v' : Value} (h : Shown (fun n n' => n' = n) v v') : v'.text = v.text := by
  cases h with
  | plain => rfl
  | function h => simp only [Value.text, h]

/-- Where names are the same in both runs, two names coincide in one run if they do in the other. -/
theorem name_iff_of_eq {m m' n n' : String} (hm : m' = m) (hn : n' = n) : m = n ↔ m' = n' := by
  rw [hm, hn]

/-- Where names and sinks are the same in both runs, a write succeeds or fails in both, and leaves the
same sink. -/
theorem write_of_eq {s s' : Sink} {v v' : Value} (hs : s' = s)
    (hv : Shown (fun n n' => n' = n) v v') :
    (s'.write (v'.text ++ "\n").toUTF8).1 = (s.write (v.text ++ "\n").toUTF8).1 ∧
      (s'.write (v'.text ++ "\n").toUTF8).2 = (s.write (v.text ++ "\n").toUTF8).2 := by
  rw [hs, hv.text_eq]
  exact ⟨rfl, rfl⟩

/-- What may differ between two runs. -/
structure Likeness where
  token : Token → Token → Prop
  /-- Tokens that stand for each other where they name variables and functions. -/
  named : Token → Token → Prop := token
  name : String → String → Prop := fun n n' => n' = n
  sink : Sink → Sink → Prop := fun s s' => s' = s
  identity : Nat → Nat → Prop
  /-- The frames on which both runs agree, and which the runs stay in. -/
  visible : FrameId → Prop
  /-- What the first run has in the frames that are not visible. -/
  hidden : FrameId → Option Frame
  /-- Parentheses of the first program may be missing in the second. -/
  loose : Prop
  kind_eq : ∀ {t t'}, token t t' → t'.kind = t.kind
  lexeme_like : ∀ {t t'}, named t t' → name t.lexeme t'.lexeme
  name_iff : ∀ {m m' n n'}, name m m' → name n n' → (m = n ↔ m' = n') := by
    exact Evaluation.name_iff_of_eq
  /-- What is printed in both runs fits into both places for output, or into neither. -/
  sink_write : ∀ {s s' : Sink} {v v' : Value}, sink s s' → Shown name v v' →
    (s'.write (v'.text ++ "\n").toUTF8).1 = (s.write (v.text ++ "\n").toUTF8).1 ∧
      sink (s.write (v.text ++ "\n").toUTF8).2 (s'.write (v'.text ++ "\n").toUTF8).2 := by
    exact Evaluation.write_of_eq
  identity_iff : ∀ {i i' j j'}, identity i i' → identity j j' → (i = j ↔ i' = j')

namespace Likeness

/-- Where identities are the same in both runs, two of them coincide in one run if they do in the other. -/
theorem identity_iff_of_eq {i i' j j' : Nat} (hi : i = i') (hj : j = j') : i = j ↔ i' = j' := by
  rw [hi, hj]

variable (L : Likeness)

/-! ## Trees -/

mutual

/-- Expressions with the same structure, whose tokens stand for each other. -/
inductive ExprLike : Expr → Expr → Prop where
  | literal (c : Constant) : ExprLike (.literal c) (.literal c)
  | grouping {e e'} : ExprLike e e' → ExprLike (.grouping e) (.grouping e')
  | grouped {e e'} : L.loose → ExprLike e e' → ExprLike (.grouping e) e'
  | unary {o o' e e'} : L.token o o' → ExprLike e e' → ExprLike (.unary o e) (.unary o' e')
  | binary {e e' o o' f f'} : ExprLike e e' → L.token o o' → ExprLike f f' →
      ExprLike (.binary e o f) (.binary e' o' f')
  | logical {e e' o o' f f'} : ExprLike e e' → L.token o o' → ExprLike f f' →
      ExprLike (.logical e o f) (.logical e' o' f')
  | «variable» {n n'} : L.named n n' → ExprLike (.variable n) (.variable n')
  | assign {n n' e e'} : L.named n n' → ExprLike e e' → ExprLike (.assign n e) (.assign n' e')
  | call {e e' p p' es es'} : ExprLike e e' → L.token p p' → ExprsLike es es' →
      ExprLike (.call e p es) (.call e' p' es')

/-- Lists of such expressions, one by one. -/
inductive ExprsLike : List Expr → List Expr → Prop where
  | nil : ExprsLike [] []
  | cons {e e' es es'} : ExprLike e e' → ExprsLike es es' → ExprsLike (e :: es) (e' :: es')

end

mutual

/-- Statements with the same structure, whose tokens stand for each other. -/
inductive StmtLike : Stmt → Stmt → Prop where
  | expression {e e'} : L.ExprLike e e' → StmtLike (.expression e) (.expression e')
  | print {k k' e e'} : L.token k k' → L.ExprLike e e' → StmtLike (.print k e) (.print k' e')
  | var {n n' i i'} : L.named n n' → Option.Rel L.ExprLike i i' → StmtLike (.var n i) (.var n' i')
  | block {b b'} : StmtsLike b b' → StmtLike (.block b) (.block b')
  | ifThen {c c' s s'} : L.ExprLike c c' → StmtLike s s' → StmtLike (.ifThen c s) (.ifThen c' s')
  | ifElse {c c' s s' t t'} : L.ExprLike c c' → StmtLike s s' → StmtLike t t' →
      StmtLike (.ifElse c s t) (.ifElse c' s' t')
  | «while» {c c' s s'} : L.ExprLike c c' → StmtLike s s' → StmtLike (.while c s) (.while c' s')
  | function {n n' ps ps' b b'} : L.named n n' → List.Forall₂ L.named ps ps' → StmtsLike b b' →
      StmtLike (.function n ps b) (.function n' ps' b')
  | «return» {k k' v v'} : L.token k k' → Option.Rel L.ExprLike v v' →
      StmtLike (.return k v) (.return k' v')

/-- Lists of such statements, one by one. -/
inductive StmtsLike : List Stmt → List Stmt → Prop where
  | nil : StmtsLike [] []
  | cons {s s' ss ss'} : StmtLike s s' → StmtsLike ss ss' → StmtsLike (s :: ss) (s' :: ss')

end

/-! ## Values, frames and states -/

/-- Function values that were made of like declarations in the same, visible frame. -/
structure ClosureLike (f f' : Closure) : Prop where
  identity : L.identity f.identity f'.identity
  name : L.named f.declaration.name f'.declaration.name
  params : List.Forall₂ L.named f.declaration.params f'.declaration.params
  body : L.StmtsLike f.declaration.body f'.declaration.body
  frame_eq : f'.frame = f.frame
  visible : L.visible f.frame

/-- The same value, or like functions. -/
inductive ValueLike : Value → Value → Prop where
  | nil : ValueLike .nil .nil
  | boolean (b : Bool) : ValueLike (.boolean b) (.boolean b)
  | number (x : Float) : ValueLike (.number x) (.number x)
  | string (s : String) : ValueLike (.string s) (.string s)
  | function {f f' : Closure} : L.ClosureLike f f' → ValueLike (.function f) (.function f')

/-- Names that stand for each other, with like values. -/
def BindingLike (b b' : String × Value) : Prop :=
  L.name b.1 b'.1 ∧ L.ValueLike b.2 b'.2

/-- Such names with like values, inside the same frame. -/
structure FrameLike (f f' : Frame) : Prop where
  bindings : List.Forall₂ L.BindingLike f.bindings f'.bindings
  parent_eq : f'.parent = f.parent
  visible : ∀ p, f.parent = some p → L.visible p

/-- As many frames; like ones where both runs look, and in the first store the given ones
elsewhere. Frames and functions still to be created will be visible and stand for each other. -/
structure StoreLike (s t : Store) : Prop where
  size_eq : t.frames.size = s.frames.size
  frames : ∀ f, L.visible f → Option.Rel L.FrameLike s.frames[f]? t.frames[f]?
  hidden : ∀ f, ¬L.visible f → s.frames[f]? = L.hidden f
  visible : ∀ f, s.frames.size ≤ f → L.visible f
  identities : ∀ k, L.identity (s.identities + k) (t.identities + k)

/-- Like stores, the same present frame and depth, and corresponding output. -/
structure StateLike (s t : State) : Prop where
  store : L.StoreLike s.store t.store
  current_eq : t.current = s.current
  visible : L.visible s.current
  depth_eq : t.depth = s.depth
  sink : L.sink s.sink t.sink

/-- The same fault at tokens that stand for each other. -/
inductive FaultLike : Fault → Fault → Prop where
  | typeMismatch {o o'} (m : Mismatch) : L.token o o' →
      FaultLike (.typeMismatch o m) (.typeMismatch o' m)
  | undefinedVariable {n n'} : L.named n n' → FaultLike (.undefinedVariable n) (.undefinedVariable n')
  | notCallable {p p'} : L.token p p' → FaultLike (.notCallable p) (.notCallable p')
  | arityMismatch {p p'} (expected got : Nat) : L.token p p' →
      FaultLike (.arityMismatch p expected got) (.arityMismatch p' expected got)
  | stackOverflow {p p'} : L.token p p' → FaultLike (.stackOverflow p) (.stackOverflow p')
  | output {k k'} : L.token k k' → FaultLike (.output k) (.output k')

/-- Results of which both are faults, or neither is. -/
inductive ResultLike {α β : Type} (like : α → β → Prop) : Except Fault α → Except Fault β → Prop where
  | ok {a b} : like a b → ResultLike like (.ok a) (.ok b)
  | error {f f'} : L.FaultLike f f' → ResultLike like (.error f) (.error f')

/-- Ways to go on with the next statement, or to leave with like values. -/
inductive FlowLike : Flow → Flow → Prop where
  | normal : FlowLike .normal .normal
  | returned {v v'} : L.ValueLike v v' → FlowLike (.returned v) (.returned v')

/-- Like results in like states. -/
def OutcomeLike {α β : Type} (like : α → β → Prop) (out : Except Fault α × State)
    (out' : Except Fault β × State) : Prop :=
  L.ResultLike like out.1 out'.1 ∧ L.StateLike out.2 out'.2

variable {L}

/-- Faults that are alike have the same message, if names are the same in both runs. -/
theorem FaultLike.message_eq (hname : ∀ {n n'}, L.name n n' → n' = n) {f f' : Fault}
    (h : L.FaultLike f f') : f'.message = f.message := by
  cases h with
  | undefinedVariable hn =>
    exact congrArg (fun name => _ ++ name ++ _) (hname (L.lexeme_like hn))
  | _ => rfl

/-! ## Trees that are like themselves -/

section Refl

/-! If every token stands for itself, also where it is a name, every tree is like itself. -/

variable (htoken : ∀ t, L.token t t) (hnamed : ∀ t, L.named t t)

include htoken hnamed

mutual

/-- An expression is like itself, if its tokens are. -/
theorem exprLike_refl : (e : Expr) → L.ExprLike e e
  | .literal c => .literal c
  | .grouping e => .grouping (exprLike_refl e)
  | .unary _ e => .unary (htoken _) (exprLike_refl e)
  | .binary e _ f => .binary (exprLike_refl e) (htoken _) (exprLike_refl f)
  | .logical e _ f => .logical (exprLike_refl e) (htoken _) (exprLike_refl f)
  | .variable _ => .variable (hnamed _)
  | .assign _ e => .assign (hnamed _) (exprLike_refl e)
  | .call e _ es => .call (exprLike_refl e) (htoken _) (exprsLike_refl es)

/-- So are expressions in a list. -/
theorem exprsLike_refl : (es : List Expr) → L.ExprsLike es es
  | [] => .nil
  | e :: es => .cons (exprLike_refl e) (exprsLike_refl es)

end

/-- So is an expression that may be missing. -/
theorem optionLike_refl (o : Option Expr) : Option.Rel L.ExprLike o o := by
  cases o with
  | none => exact .none
  | some e => exact .some (exprLike_refl htoken hnamed e)

mutual

/-- A statement is like itself, if its tokens are. -/
theorem stmtLike_refl : (s : Stmt) → L.StmtLike s s
  | .expression e => .expression (exprLike_refl htoken hnamed e)
  | .print _ e => .print (htoken _) (exprLike_refl htoken hnamed e)
  | .var _ i => .var (hnamed _) (optionLike_refl htoken hnamed i)
  | .block b => .block (stmtsLike_refl b)
  | .ifThen c s => .ifThen (exprLike_refl htoken hnamed c) (stmtLike_refl s)
  | .ifElse c s t =>
    .ifElse (exprLike_refl htoken hnamed c) (stmtLike_refl s) (stmtLike_refl t)
  | .while c s => .while (exprLike_refl htoken hnamed c) (stmtLike_refl s)
  | .function _ _ b =>
    .function (hnamed _) (List.forall₂_same.2 fun t _ => hnamed t) (stmtsLike_refl b)
  | .return _ v => .return (htoken _) (optionLike_refl htoken hnamed v)

/-- So are statements in a list. -/
theorem stmtsLike_refl : (ss : List Stmt) → L.StmtsLike ss ss
  | [] => .nil
  | s :: ss => .cons (stmtLike_refl s) (stmtsLike_refl ss)

end

end Refl

section Exact

/-! If tokens stand for themselves only and no parentheses are left out, like trees are equal. -/

variable (htoken : ∀ t t', L.token t t' → t' = t) (hnamed : ∀ t t', L.named t t' → t' = t)
  (hloose : ¬L.loose)

include htoken hnamed hloose

mutual

/-- Conversely, expressions are the same if they are alike, tokens are like themselves only, and no
parentheses may be missing. -/
theorem ExprLike.eq : {e e' : Expr} → L.ExprLike e e' → e' = e
  | _, _, .literal _ => rfl
  | _, _, .grouping h => by rw [ExprLike.eq h]
  | _, _, .grouped hl _ => absurd hl hloose
  | _, _, .unary ho h => by rw [htoken _ _ ho, ExprLike.eq h]
  | _, _, .binary h ho h' => by rw [ExprLike.eq h, htoken _ _ ho, ExprLike.eq h']
  | _, _, .logical h ho h' => by rw [ExprLike.eq h, htoken _ _ ho, ExprLike.eq h']
  | _, _, .variable hn => by rw [hnamed _ _ hn]
  | _, _, .assign hn h => by rw [hnamed _ _ hn, ExprLike.eq h]
  | _, _, .call h hp hs => by rw [ExprLike.eq h, htoken _ _ hp, ExprsLike.eq hs]

/-- So are expressions in a list. -/
theorem ExprsLike.eq : {es es' : List Expr} → L.ExprsLike es es' → es' = es
  | _, _, .nil => rfl
  | _, _, .cons h hs => by rw [ExprLike.eq h, ExprsLike.eq hs]

end

/-- So is an expression that may be missing. -/
theorem optionLike_eq {o o' : Option Expr} (h : Option.Rel L.ExprLike o o') : o' = o := by
  cases h with
  | none => rfl
  | some h => rw [h.eq htoken hnamed hloose]

/-- So are lists of tokens. -/
theorem tokensLike_eq {ts ts' : List Token} (h : List.Forall₂ L.named ts ts') : ts' = ts := by
  induction h with
  | nil => rfl
  | cons ht _ ih => rw [hnamed _ _ ht, ih]

mutual

/-- Statements are the same if they are alike in this strict way. -/
theorem StmtLike.eq : {s s' : Stmt} → L.StmtLike s s' → s' = s
  | _, _, .expression h => by rw [h.eq htoken hnamed hloose]
  | _, _, .print hk h => by rw [htoken _ _ hk, h.eq htoken hnamed hloose]
  | _, _, .var hn h => by rw [hnamed _ _ hn, optionLike_eq htoken hnamed hloose h]
  | _, _, .block hs => by rw [StmtsLike.eq hs]
  | _, _, .ifThen h hs => by rw [h.eq htoken hnamed hloose, StmtLike.eq hs]
  | _, _, .ifElse h hs hs' => by
    rw [h.eq htoken hnamed hloose, StmtLike.eq hs, StmtLike.eq hs']
  | _, _, .while h hs => by rw [h.eq htoken hnamed hloose, StmtLike.eq hs]
  | _, _, .function hn hps hs => by
    rw [hnamed _ _ hn, tokensLike_eq htoken hnamed hloose hps, StmtsLike.eq hs]
  | _, _, .return hk h => by rw [htoken _ _ hk, optionLike_eq htoken hnamed hloose h]

/-- So are statements in a list. -/
theorem StmtsLike.eq : {ss ss' : List Stmt} → L.StmtsLike ss ss' → ss' = ss
  | _, _, .nil => rfl
  | _, _, .cons h hs => by rw [StmtLike.eq h, StmtsLike.eq hs]

end

end Exact

/-! ## Values and operators -/

/-- Values that are alike count as true or not alike. -/
theorem ValueLike.isTruthy_eq {v v' : Value} (h : L.ValueLike v v') :
    v'.isTruthy = v.isTruthy := by
  cases h <;> rfl

/-- A printed function shows its name and nothing else. -/
theorem ValueLike.shown {v v' : Value} (h : L.ValueLike v v') : Shown L.name v v' := by
  cases h with
  | function hf => exact .function (L.lexeme_like hf.name)
  | _ => exact .plain fun _ hv => by cases hv

/-- Whether two values are equal is the same for values that are alike. For functions this is why
identities must correspond one to one. -/
theorem ValueLike.equals_eq {v v' w w' : Value} (hv : L.ValueLike v v') (hw : L.ValueLike w w') :
    v'.equals w' = v.equals w := by
  cases hv with
  | function hf =>
    cases hw with
    | function hg =>
      simp only [Value.equals, beq_eq_beq]
      exact (L.identity_iff hf.identity hg.identity).symm
    | _ => rfl
  | _ => cases hw <;> rfl

/-- Functions that are alike take as many arguments. -/
theorem ClosureLike.arity_eq {f f' : Closure} (h : L.ClosureLike f f') : f'.arity = f.arity :=
  h.params.length_eq.symm

/-- The value of a constant is like itself. -/
theorem ofConstant_like (c : Constant) :
    L.ValueLike (Value.ofConstant c) (Value.ofConstant c) := by
  cases c with
  | nil => exact .nil
  | boolean b => exact .boolean b
  | number x => exact .number x
  | string s => exact .string s

/-- Whether an `and` or an `or` is decided by its left side is the same in both runs. -/
theorem decides_eq {o o' : Token} {v v' : Value} (ho : L.token o o') (hv : L.ValueLike v v') :
    decides o' v' = decides o v := by
  unfold decides
  rw [L.kind_eq ho, hv.isTruthy_eq]

/-- A unary operator does the same to values that are alike, or fails at the corresponding token. -/
theorem unary_like {o o' : Token} {v v' : Value} (ho : L.token o o') (hv : L.ValueLike v v') :
    L.ResultLike L.ValueLike (unary o v) (unary o' v') := by
  unfold unary
  rw [L.kind_eq ho, hv.isTruthy_eq]
  cases o.kind with
  | minus =>
    cases hv with
    | number x => exact .ok (.number _)
    | _ => exact .error (.typeMismatch _ ho)
  | not => exact .ok (.boolean _)
  | _ => exact .error (.typeMismatch _ ho)

/-- Arithmetic on numbers is the same, or fails at the corresponding token. -/
theorem arithmetic_like {o o' : Token} (ho : L.token o o') (x y : Float) :
    L.ResultLike L.ValueLike (arithmetic o x y) (arithmetic o' x y) := by
  unfold arithmetic
  rw [L.kind_eq ho]
  split
  all_goals first
    | exact .ok (.number _)
    | exact .ok (.boolean _)
    | exact .error (.typeMismatch _ ho)

/-- A binary operator does the same to values that are alike, or fails at the corresponding token. -/
theorem binary_like {o o' : Token} {v v' w w' : Value} (ho : L.token o o')
    (hv : L.ValueLike v v') (hw : L.ValueLike w w') :
    L.ResultLike L.ValueLike (binary o v w) (binary o' v' w') := by
  unfold binary
  rw [L.kind_eq ho, hv.equals_eq hw]
  split
  · exact .ok (.boolean _)
  · exact .ok (.boolean _)
  · cases hv <;> cases hw <;>
      first
        | exact .ok (.number _)
        | exact .ok (.string _)
        | exact .error (.typeMismatch _ ho)
  · cases hv <;> cases hw <;>
      first
        | exact arithmetic_like ho _ _
        | exact .error (.typeMismatch _ ho)

/-- Fresh interpreters are alike, if nothing is hidden and functions stand for those created at the same
time. -/
theorem stateLike_initial (hvisible : ∀ f, L.visible f) (hidentity : ∀ i, L.identity i i)
    {sink sink' : Sink} (hsink : L.sink sink sink') :
    L.StateLike (.initial sink) (.initial sink') where
  store :=
    { size_eq := rfl
      frames := by
        intro f _
        cases f with
        | zero => exact .some ⟨.nil, rfl, fun p _ => hvisible p⟩
        | succ f => exact .none
      hidden := fun f hf => absurd (hvisible f) hf
      visible := fun f _ => hvisible f
      identities := fun k => hidentity _ }
  current_eq := rfl
  visible := hvisible _
  depth_eq := rfl
  sink := hsink

/-! ## Reading a store -/

variable {n n' : String}

/-- What a name is looked up to in bindings that are alike is alike, or missing in both. -/
theorem lookup_like {bs bs' : List (String × Value)} (h : List.Forall₂ L.BindingLike bs bs')
    (hn : L.name n n') : Option.Rel L.ValueLike (bs.lookup n) (bs'.lookup n') := by
  induction h with
  | nil => exact .none
  | @cons b b' bs bs' hb _ ih =>
    obtain ⟨key, v⟩ := b
    obtain ⟨key', v'⟩ := b'
    obtain ⟨hkey, hv⟩ : L.name key key' ∧ L.ValueLike v v' := hb
    have hsame : (n == key) = (n' == key') := by
      rw [Bool.eq_iff_iff, beq_iff_eq, beq_iff_eq]
      exact L.name_iff hn hkey
    rw [List.lookup_cons, List.lookup_cons, hsame]
    cases n' == key' with
    | true => exact .some hv
    | false => exact ih

/-- A name is bound in a frame if the corresponding one is bound in the corresponding frame. -/
theorem FrameLike.binds_eq {f f' : Frame} (h : L.FrameLike f f') (hn : L.name n n') :
    f'.binds n' = f.binds n := by
  have hrel := lookup_like h.bindings hn
  unfold Frame.binds Frame.find?
  revert hrel
  generalize f.bindings.lookup n = o
  generalize f'.bindings.lookup n' = o'
  rintro (_ | _) <;> rfl

namespace StoreLike

variable {s t : Store}

/-- A frame that is seen is missing in both stores, or is in both and alike. -/
theorem frame_cases (h : L.StoreLike s t) {f : FrameId} (hf : L.visible f) :
    (s.frames[f]? = none ∧ t.frames[f]? = none) ∨
    ∃ fr fr', s.frames[f]? = some fr ∧ t.frames[f]? = some fr' ∧ L.FrameLike fr fr' := by
  have hrel := h.frames f hf
  revert hrel
  generalize s.frames[f]? = o
  generalize t.frames[f]? = o'
  rintro (hrel | _)
  · exact .inr ⟨_, _, rfl, rfl, hrel⟩
  · exact .inl ⟨rfl, rfl⟩

/-- A walk outwards from a visible frame stays in visible frames, and is the same in both stores. -/
theorem definer?_eq (h : L.StoreLike s t) (hn : L.name n n') (f : FrameId) (hf : L.visible f) :
    t.definer? f n' = s.definer? f n ∧ ∀ g, s.definer? f n = some g → L.visible g := by
  induction f using Nat.strongRecOn with
  | _ f ih =>
    rw [Store.definer?, Store.definer?]
    rcases h.frame_cases hf with ⟨hs, ht⟩ | ⟨fr, fr', hs, ht, hfr⟩
    · rw [hs, ht]
      exact ⟨rfl, fun g hg => by cases hg⟩
    · rw [hs, ht]
      simp only [hfr.binds_eq hn, hfr.parent_eq]
      by_cases hb : fr.binds n = true
      · simp only [if_pos hb]
        refine ⟨trivial, fun g hg => ?_⟩
        cases hg
        exact hf
      · simp only [if_neg hb]
        cases hp : fr.parent with
        | none => exact ⟨rfl, fun g hg => by cases hg⟩
        | some outer =>
          by_cases hlt : outer < f
          · simp only [if_pos hlt]
            exact ih outer hlt (hfr.visible outer hp)
          · simp only [if_neg hlt]
            exact ⟨trivial, fun g hg => by cases hg⟩

/-- What a variable is looked up to from a frame that is seen is alike, or missing in both. The walk goes
through frames that are seen, too. -/
theorem lookup (h : L.StoreLike s t) (hn : L.name n n') {f : FrameId} (hf : L.visible f) :
    Option.Rel L.ValueLike (s.lookup f n) (t.lookup f n') := by
  obtain ⟨hdef, hvis⟩ := h.definer?_eq hn f hf
  unfold Store.lookup
  rw [hdef]
  cases hd : s.definer? f n with
  | none => exact .none
  | some g =>
    show Option.Rel L.ValueLike (s.frames[g]?.bind (·.find? n)) (t.frames[g]?.bind (·.find? n'))
    rcases h.frame_cases (hvis g hd) with ⟨hs, ht⟩ | ⟨fr, fr', hs, ht, hfr⟩
    · rw [hs, ht]
      exact .none
    · rw [hs, ht]
      exact lookup_like hfr.bindings hn

/-- Reading a variable has like values, or fails at the corresponding token. -/
theorem get (h : L.StoreLike s t) {n n' : Token} (hn : L.named n n') {f : FrameId}
    (hf : L.visible f) : L.ResultLike L.ValueLike (s.get f n) (t.get f n') := by
  have hrel := h.lookup (L.lexeme_like hn) hf
  unfold Store.get
  revert hrel
  generalize s.lookup f n.lexeme = o
  generalize t.lookup f n'.lexeme = o'
  rintro (hv | _)
  · exact .ok hv
  · exact .error (.undefinedVariable hn)

/-! ## Changing a store -/

/-- Binding corresponding names to values that are alike keeps bindings alike. -/
theorem bind_like {bs bs' : List (String × Value)} (h : List.Forall₂ L.BindingLike bs bs')
    (hn : L.name n n') {v v' : Value} (hv : L.ValueLike v v') :
    List.Forall₂ L.BindingLike (Frame.bind n v bs) (Frame.bind n' v' bs') := by
  induction h with
  | nil => exact .cons ⟨hn, hv⟩ .nil
  | @cons b b' bs bs' hb hbs ih =>
    obtain ⟨key, w⟩ := b
    obtain ⟨key', w'⟩ := b'
    obtain ⟨hkey, hw⟩ : L.name key key' ∧ L.ValueLike w w' := hb
    unfold Frame.bind
    by_cases hk : key = n
    · simp only [if_pos hk, if_pos ((L.name_iff hkey hn).1 hk)]
      exact .cons ⟨hn, hv⟩ hbs
    · simp only [if_neg hk, if_neg fun hk' => hk ((L.name_iff hkey hn).2 hk')]
      exact .cons ⟨hkey, hw⟩ ih

/-- What is defined in a visible frame is defined in both stores and leaves the rest alone. -/
theorem define (h : L.StoreLike s t) {f : FrameId} (hf : L.visible f) (hn : L.name n n')
    {v v' : Value} (hv : L.ValueLike v v') :
    L.StoreLike (s.define f n v) (t.define f n' v') where
  size_eq := by simpa [Store.define] using h.size_eq
  frames g hg := by
    unfold Store.define
    rw [Array.getElem?_modify, Array.getElem?_modify]
    by_cases hfg : f = g
    · subst hfg
      simp only [if_true]
      rcases h.frame_cases hf with ⟨hs, ht⟩ | ⟨fr, fr', hs, ht, hfr⟩
      · rw [hs, ht]
        exact .none
      · rw [hs, ht]
        exact .some ⟨bind_like hfr.bindings hn hv, hfr.parent_eq, hfr.visible⟩
    · simp only [if_neg hfg]
      exact h.frames g hg
  hidden g hg := by
    have hfg : f ≠ g := fun hfg => hg (hfg ▸ hf)
    unfold Store.define
    rw [Array.getElem?_modify, if_neg hfg]
    exact h.hidden g hg
  visible g hg := h.visible g (by simpa [Store.define] using hg)
  identities := h.identities

/-- An assignment succeeds in both stores or in neither, and keeps them alike. -/
theorem assign (h : L.StoreLike s t) {f : FrameId} (hf : L.visible f) {n n' : Token}
    (hn : L.named n n') {v v' : Value} (hv : L.ValueLike v v') :
    L.ResultLike (fun _ _ => True) (s.assign f n v).1 (t.assign f n' v').1 ∧
      L.StoreLike (s.assign f n v).2 (t.assign f n' v').2 := by
  obtain ⟨hdef, hvis⟩ := h.definer?_eq (L.lexeme_like hn) f hf
  unfold Store.assign
  rw [hdef]
  cases hd : s.definer? f n.lexeme with
  | none => exact ⟨.error (.undefinedVariable hn), h⟩
  | some g => exact ⟨.ok trivial, h.define (hvis g hd) (L.lexeme_like hn) hv⟩

/-- A new frame is visible and has the same number in both stores. -/
theorem newFrame (h : L.StoreLike s t) {p : FrameId} (hp : L.visible p) :
    (t.newFrame (some p)).1 = (s.newFrame (some p)).1 ∧
      L.visible (s.newFrame (some p)).1 ∧
      L.StoreLike (s.newFrame (some p)).2 (t.newFrame (some p)).2 := by
  refine ⟨h.size_eq, h.visible _ (Nat.le_refl _), ?_, ?_, ?_, ?_, h.identities⟩
  · simpa [Store.newFrame] using h.size_eq
  · intro f hf
    show Option.Rel _ (s.frames.push _)[f]? (t.frames.push _)[f]?
    rw [Array.getElem?_push, Array.getElem?_push, h.size_eq]
    by_cases hnew : f = s.frames.size
    · simp only [if_pos hnew]
      exact .some ⟨.nil, rfl, fun q hq => by cases hq; exact hp⟩
    · simp only [if_neg hnew]
      exact h.frames f hf
  · intro f hf
    show (s.frames.push _)[f]? = _
    have hnew : f ≠ s.frames.size := fun hnew => hf (h.visible f (Nat.le_of_eq hnew.symm))
    rw [Array.getElem?_push, if_neg hnew]
    exact h.hidden f hf
  · intro f hf
    refine h.visible f (Nat.le_of_succ_le ?_)
    simpa [Store.newFrame] using hf

/-- The functions that both runs create next are alike: their identities correspond, as the likeness says
of new ones. -/
theorem newClosure (h : L.StoreLike s t) (d d' : Function) (hname : L.named d.name d'.name)
    (hparams : List.Forall₂ L.named d.params d'.params) (hbody : L.StmtsLike d.body d'.body)
    {f : FrameId} (hf : L.visible f) :
    L.ClosureLike (s.newClosure d f).1 (t.newClosure d' f).1 ∧
      L.StoreLike (s.newClosure d f).2 (t.newClosure d' f).2 := by
  refine ⟨⟨h.identities 0, hname, hparams, hbody, rfl, hf⟩,
    h.size_eq, h.frames, h.hidden, h.visible, ?_⟩
  intro k
  have hk := h.identities (k + 1)
  rwa [show s.identities + (k + 1) = s.identities + 1 + k by omega,
    show t.identities + (k + 1) = t.identities + 1 + k by omega] at hk

end StoreLike

end Likeness

end Treewalk.Evaluation
