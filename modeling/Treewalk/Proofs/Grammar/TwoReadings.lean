import Treewalk.Proofs.Evaluation.Likeness
import Treewalk.Proofs.Grammar.Progress
import Treewalk.Proofs.Plan.InStep

/-!
# Like tokens are read alike

The parser decides by the kinds of tokens, and takes over their texts and values. So two lists of tokens
that agree in these, one by one, are read in step: with like trees, and with complaints about tokens at
the same places of the two lists, also when declarations are abandoned and the parser finds a place to go
on (`Reading.parse_like`). A `Reading` fixes which tokens stand for each other, and what has to hold of two
complaints that are noted at the same time.

One complaint is special. It is made about the token of a number or a string that has no value, and what
has to hold of it is only asked for if there is such a token (`Reading.noted_atToken`).
-/

namespace Treewalk.Grammar

open Routine (call become attempt modify)

/-- What may differ between two readings. -/
structure Reading extends Evaluation.Likeness where
  exact : ¬loose
  literal_eq : ∀ {t t'}, token t t' → t'.literal = t.literal
  named_of : ∀ {t t'}, token t t' → t.kind = .identifier → named t t' := by
    intro t t' h _
    exact h
  /-- Complaints that may be made at the same time. -/
  noted : Diagnostic → Diagnostic → Prop
  noted_atToken : ∀ {t t'} (c : Complaint), token t t' →
    (c = .literalWithoutValue → (t.kind = .number ∨ t.kind = .string) ∧ t.literal = none) →
    noted (.atToken t c) (.atToken t' c)

namespace Reading

variable (R : Reading) {α β γ δ : Type}

/-- The same place in lists of like tokens, and like complaints so far. -/
structure StateLike (s t : State) : Prop where
  rest : List.Forall₂ R.token s.rest t.rest
  finish : R.token s.finish t.finish
  index_eq : t.index = s.index
  last : Option.Rel R.token s.last t.last
  depth_eq : t.depth = s.depth
  diagnostics : List.Forall₂ R.noted s.diagnostics.toList t.diagnostics.toList

/-- Goals to read the same after like trees. -/
inductive GoalLike : Goal → Goal → Prop where
  | program {ss ss'} : R.StmtsLike ss ss' → GoalLike (.program ss) (.program ss')
  | block {ss ss'} : R.StmtsLike ss ss' → GoalLike (.block ss) (.block ss')
  | declaration : GoalLike .declaration .declaration
  | statement : GoalLike .statement .statement
  | expression : GoalLike .expression .expression
  | operation (level) : GoalLike (.operation level) (.operation level)
  | operatorTail (level) {e e'} : R.ExprLike e e' →
      GoalLike (.operatorTail level e) (.operatorTail level e')
  | unary : GoalLike .unary .unary
  | calls {e e'} : R.ExprLike e e' → GoalLike (.calls e) (.calls e')
  | arguments {es es'} : R.ExprsLike es es' → GoalLike (.arguments es) (.arguments es')
  | parameters {ts ts'} : List.Forall₂ R.named ts ts' → GoalLike (.parameters ts) (.parameters ts')

/-- Like trees for goals of the same kind. -/
def TreeLike : (g g' : Goal) → g.Result → g'.Result → Prop
  | .program _, .program _ => R.StmtsLike
  | .block _, .block _ => R.StmtsLike
  | .declaration, .declaration => Option.Rel R.StmtLike
  | .statement, .statement => R.StmtLike
  | .expression, .expression => R.ExprLike
  | .operation _, .operation _ => R.ExprLike
  | .operatorTail _ _, .operatorTail _ _ => R.ExprLike
  | .unary, .unary => R.ExprLike
  | .calls _, .calls _ => R.ExprLike
  | .arguments _, .arguments _ => R.ExprsLike
  | .parameters _, .parameters _ => List.Forall₂ R.named
  | _, _ => fun _ _ => False

/-- Both give something of the kind, or both give up. -/
inductive ResultLike (like : α → β → Prop) : Except Abandoned α → Except Abandoned β → Prop where
  | ok {a : α} {b : β} (h : like a b) : ResultLike like (.ok a) (.ok b)
  | error : ResultLike like (.error ⟨⟩) (.error ⟨⟩)

/-- Like results in like states. -/
def OutcomeLike (like : α → β → Prop) (out : Except Abandoned α × State)
    (out' : Except Abandoned β × State) : Prop :=
  ResultLike like out.1 out'.1 ∧ R.StateLike out.2 out'.2

/-- Like goals in like states correspond, and so do like outcomes. -/
def toMatch : Plan.Match (Reply Goal.Result Abandoned State) where
  asked q q' := R.GoalLike q.1 q'.1 ∧ R.StateLike q.2 q'.2
  replied q q' := R.OutcomeLike (R.TreeLike q.1 q'.1)

/-- Two parts of the parser do the same steps from like states, and end with like results. -/
def InStep (like : α → β → Prop) (x : Parse α) (y : Parse β) : Prop :=
  ∀ s t, R.StateLike s t → Plan.InStep R.toMatch (R.OutcomeLike like) (x s) (y t)

variable {R} {like : α → β → Prop} {like' : γ → δ → Prop}

/-! ## Lists of like trees -/

/-- Lists of expressions are alike if they are so one by one. -/
theorem exprsLike_iff {es es' : List Expr} : R.ExprsLike es es' ↔ List.Forall₂ R.ExprLike es es' := by
  constructor
  · intro h
    induction es generalizing es' with
    | nil => cases h; exact .nil
    | cons e es ih =>
      cases h with
      | cons he hes => exact .cons he (ih hes)
  · intro h
    induction h with
    | nil => exact .nil
    | cons he _ ih => exact .cons he ih

/-- Lists of statements are alike if they are so one by one. -/
theorem stmtsLike_iff {ss ss' : List Stmt} : R.StmtsLike ss ss' ↔ List.Forall₂ R.StmtLike ss ss' := by
  constructor
  · intro h
    induction ss generalizing ss' with
    | nil => cases h; exact .nil
    | cons s ss ih =>
      cases h with
      | cons hs hss => exact .cons hs (ih hss)
  · intro h
    induction h with
    | nil => exact .nil
    | cons hs _ ih => exact .cons hs ih

/-! ## Putting parts in step together -/

/-- What is pure is in step, if the results are alike. -/
theorem inStep_pure {a : α} {b : β} (h : like a b) : R.InStep like (pure a) (pure b) :=
  fun _ _ hst => .done ⟨.ok h, hst⟩

/-- Steps are in step, if they lead from like states to like outcomes. -/
theorem inStep_step {f : State → Except Abandoned α × State}
    {f' : State → Except Abandoned β × State}
    (h : ∀ s t, R.StateLike s t → R.OutcomeLike like (f s) (f' t)) :
    R.InStep like (Routine.step f) (Routine.step f') :=
  fun s t hst => .done (h s t hst)

/-- Changes of the state are in step, if they keep states alike. -/
theorem inStep_modify {f f' : State → State}
    (h : ∀ s t, R.StateLike s t → R.StateLike (f s) (f' t)) :
    R.InStep (fun _ _ => True) (modify f) (modify f') :=
  fun s t hst => .done ⟨.ok trivial, h s t hst⟩

/-- Sequences are in step, if their parts are. Where one first part is abandoned, so is the other. -/
theorem inStep_bind {x : Parse α} {y : Parse β} {f : α → Parse γ} {g : β → Parse δ}
    (hx : R.InStep like x y) (hf : ∀ a b, like a b → R.InStep like' (f a) (g b)) :
    R.InStep like' (x >>= f) (y >>= g) := by
  intro s t hst
  refine (hx s t hst).bind ?_
  rintro ⟨r, s'⟩ ⟨r', t'⟩ ⟨hr, hst'⟩
  cases hr with
  | ok h => exact hf _ _ h s' t' hst'
  | error => exact .done ⟨.error, hst'⟩

/-- One part after another whose result is not used. -/
theorem inStep_next {x : Parse α} {y : Parse β} {x' : Parse γ} {y' : Parse δ}
    (hx : R.InStep like x y) (hx' : R.InStep like' x' y') :
    R.InStep like' (do let _ ← x; x') (do let _ ← y; y') :=
  inStep_bind hx fun _ _ _ => hx'

/-- Goals that are alike correspond. -/
theorem inStep_call {g g' : Goal} (h : R.GoalLike g g') :
    R.InStep (R.TreeLike g g') (call g) (call g') :=
  fun _ _ hst => .ask ⟨h, hst⟩ fun _ _ hr => .done hr

/-- So do goals that are become. -/
theorem inStep_become {g g' : Goal} (h : R.GoalLike g g') :
    R.InStep (R.TreeLike g g') (become g) (become g') :=
  fun _ _ hst => .pass ⟨h, hst⟩ fun _ _ hr => hr

/-- Attempts are in step, if what they attempt is. -/
theorem inStep_attempt {x : Parse α} {y : Parse β} (h : R.InStep like x y) :
    R.InStep (ResultLike like) (attempt x) (attempt y) := by
  intro s t hst
  refine (h s t hst).bind ?_
  rintro ⟨r, s'⟩ ⟨r', t'⟩ ⟨hr, hst'⟩
  exact .done ⟨.ok hr, hst'⟩

/-- Reading inside a function body is in step, if the reading is. -/
theorem inStep_inFunction {x : Parse α} {y : Parse β} (h : R.InStep like x y) :
    R.InStep like (Parse.inFunction x) (Parse.inFunction y) := by
  intro s t hst
  have hin : R.StateLike { s with depth := s.depth + 1 } { t with depth := t.depth + 1 } :=
    { hst with depth_eq := congrArg (· + 1) hst.depth_eq }
  refine (h _ _ hin).bind ?_
  rintro ⟨r, s'⟩ ⟨r', t'⟩ ⟨hr, hst'⟩
  exact .done ⟨hr, { hst' with depth_eq := congrArg (· - 1) hst'.depth_eq }⟩

/-- A test that comes out the same. -/
theorem inStep_ite {c : Prop} [Decidable c] {x x' : Parse α} {y y' : Parse β}
    (hx : R.InStep like x y) (hx' : R.InStep like x' y') :
    R.InStep like (if c then x else x') (if c then y else y') := by
  split
  · exact hx
  · exact hx'

/-! ## Single steps -/

namespace StateLike

variable {s t : State}

/-- The next tokens stand for each other. -/
theorem peek (h : R.StateLike s t) : R.token s.peek t.peek := by
  have hrest := h.rest
  unfold State.peek
  revert hrest
  generalize s.rest = us
  generalize t.rest = us'
  rintro (_ | ⟨hu, _⟩)
  · exact h.finish
  · exact hu

/-- After a token was taken in both, states are still alike. -/
theorem advance (h : R.StateLike s t) : R.StateLike s.advance t.advance := by
  obtain ⟨us, finish, index, last, depth, ds⟩ := s
  obtain ⟨us', finish', index', last', depth', ds'⟩ := t
  obtain ⟨hrest, hfinish, hindex, hlast, hdepth, hds⟩ := h
  cases hrest with
  | nil => exact ⟨.nil, hfinish, hindex, hlast, hdepth, hds⟩
  | cons hu hus => exact ⟨hus, hfinish, congrArg (· + 1) hindex, .some hu, hdepth, hds⟩

/-- So they are after a complaint in both, if the complaints may be noted at the same time. -/
theorem report (h : R.StateLike s t) {d d' : Diagnostic} (hd : R.noted d d') :
    R.StateLike { s with diagnostics := s.diagnostics.push d, hadError := true }
      { t with diagnostics := t.diagnostics.push d', hadError := true } := by
  refine { h with diagnostics := ?_ }
  rw [Array.toList_push, Array.toList_push]
  exact List.rel_append h.diagnostics (.cons hd .nil)

/-- So they are after skipping: both skip as many tokens, because they go by the kinds. -/
theorem skip_go (h : R.StateLike s t) (index : Nat) {us us' : List Token}
    (hus : List.Forall₂ R.token us us') {last last' : Option Token}
    (hlast : Option.Rel R.token last last') :
    R.StateLike (State.skip.go s last index us) (State.skip.go t last' index us') := by
  induction hus generalizing last last' index with
  | nil => exact { h with rest := .nil, index_eq := rfl, last := hlast }
  | @cons u u' us us' hu hus ih =>
    have hsemicolon : last'.any (·.kind = .semicolon) = last.any (·.kind = .semicolon) := by
      cases hlast with
      | none => rfl
      | some ht => simp only [Option.any_some, R.kind_eq ht]
    unfold State.skip.go
    rw [hsemicolon, R.kind_eq hu]
    split
    · exact { h with rest := .cons hu hus, index_eq := rfl, last := hlast }
    · exact ih (index + 1) (.some hu)

/-- So they are after finding a place to go on. -/
theorem synchronize (h : R.StateLike s t) (start : Nat) :
    R.StateLike (s.synchronize start) (t.synchronize start) := by
  have hskip : ∀ {s t : State}, R.StateLike s t → R.StateLike s.skip t.skip := by
    intro s t h
    unfold State.skip
    rw [h.index_eq]
    exact h.skip_go s.index h.rest h.last
  unfold State.synchronize
  rw [h.index_eq]
  split
  · exact hskip h.advance
  · exact hskip h

end StateLike

/-- Looking at the next token gives tokens that stand for each other. -/
theorem inStep_peek : R.InStep R.token Parse.peek Parse.peek :=
  inStep_step fun _ _ hst => ⟨.ok hst.peek, hst⟩

/-- Looking at its kind gives the same kind. -/
theorem inStep_peekKind : R.InStep (fun k k' => k' = k) Parse.peekKind Parse.peekKind :=
  inStep_step fun _ _ hst => ⟨.ok (R.kind_eq hst.peek), hst⟩

/-- Taking a token is in step. -/
theorem inStep_advance : R.InStep (fun _ _ => True) Parse.advance Parse.advance :=
  inStep_modify fun _ _ hst => hst.advance

/-- Looking at the count of tokens taken gives the same count. -/
theorem inStep_index : R.InStep (fun i i' => i' = i) Parse.index Parse.index :=
  inStep_step fun _ _ hst => ⟨.ok hst.index_eq, hst⟩

/-- Finding a place to go on is in step. -/
theorem inStep_synchronize (start : Nat) : R.InStep (fun _ _ => True)
    (modify (State.synchronize start)) (modify (State.synchronize start)) :=
  inStep_modify fun _ _ hst => hst.synchronize start

/-- Accepting tokens of some kinds is in step. -/
theorem inStep_accept (kinds : List Kind) :
    R.InStep (Option.Rel R.token) (Parse.accept? kinds) (Parse.accept? kinds) := by
  refine inStep_step fun s t hst => ?_
  have hrest := hst.rest
  revert hrest
  generalize s.rest = us
  generalize t.rest = us'
  rintro (_ | ⟨hu, _⟩)
  · exact ⟨.ok .none, hst⟩
  · simp only [R.kind_eq hu]
    split
    · exact ⟨.ok (.some hu), hst.advance⟩
    · exact ⟨.ok .none, hst⟩

/-- Expecting a token is in step; where it is missing, it is so in both, and both complain. -/
theorem inStep_expect (kind : Kind) (what : Expected) :
    R.InStep (fun t t' => R.token t t' ∧ t.kind = kind) (Parse.expect kind what)
      (Parse.expect kind what) := by
  refine inStep_step fun s t hst => ?_
  have hrest := hst.rest
  revert hrest
  generalize s.rest = us
  generalize t.rest = us'
  rintro (_ | ⟨hu, _⟩)
  · exact ⟨.error, hst.report (R.noted_atToken _ hst.finish nofun)⟩
  · simp only [R.kind_eq hu]
    split
    case isTrue h => exact ⟨.ok ⟨hu, h⟩, hst.advance⟩
    case isFalse => exact ⟨.error, hst.report (R.noted_atToken _ hu nofun)⟩

/-- Expecting a name gives names that stand for each other. -/
theorem inStep_expectName (what : Expected) :
    R.InStep R.named (Parse.expect .identifier what) (Parse.expect .identifier what) := by
  intro s t hst
  refine (inStep_expect _ _ s t hst).mono ?_
  rintro ⟨r, s'⟩ ⟨r', t'⟩ ⟨hr, hst'⟩
  cases hr with
  | ok h => exact ⟨.ok (R.named_of h.1 h.2), hst'⟩
  | error => exact ⟨.error, hst'⟩

/-- Being abandoned is in step, if the complaints may be noted at the same time. -/
theorem inStep_refuse {t t' : Token} {c : Complaint} (h : R.noted (.atToken t c) (.atToken t' c)) :
    R.InStep like (Parse.refuse t c) (Parse.refuse t' c) :=
  inStep_step fun _ _ hst => ⟨.error, hst.report h⟩

/-- So is reporting a complaint. -/
theorem inStep_report {t t' : Token} {c : Complaint} (h : R.noted (.atToken t c) (.atToken t' c)) :
    R.InStep (fun _ _ => True) (Parse.report t c) (Parse.report t' c) :=
  inStep_modify fun _ _ hst => hst.report h

/-- So is complaining about a `return` outside function bodies: both are inside or neither is. -/
theorem inStep_reportOutside {t t' : Token} {c : Complaint}
    (h : R.noted (.atToken t c) (.atToken t' c)) :
    R.InStep (fun _ _ => True) (Parse.reportOutside t c) (Parse.reportOutside t' c) := by
  refine inStep_modify fun s t hst => ?_
  rw [hst.depth_eq]
  split
  · exact hst
  · exact hst.report h

/-- So is complaining about too many entries: both lists have as many. -/
theorem inStep_reportBeyond (before : Nat) {c : Complaint} (hc : c ≠ .literalWithoutValue) :
    R.InStep (fun _ _ => True) (Parse.reportBeyond before c) (Parse.reportBeyond before c) := by
  refine inStep_modify fun s t hst => ?_
  split
  · exact hst.report (R.noted_atToken c hst.peek fun h => absurd h hc)
  · exact hst

/-! ## Productions for expressions -/

/-- Operands are read in step. -/
theorem operand_inStep (level : Level) : R.InStep R.ExprLike (operand level) (operand level) := by
  unfold operand
  cases level.next? with
  | some tighter => exact inStep_call (.operation tighter)
  | none => exact inStep_call .unary

/-- A token is taken, and something follows from it alone. -/
theorem taken_inStep {a : α} {b : β} (h : like a b) :
    R.InStep like (do Parse.advance; pure a) (do Parse.advance; pure b) :=
  inStep_next inStep_advance (inStep_pure h)

/-- Numbers and strings are read in step, by their values. Without a value both complain. -/
theorem literal_inStep {t t' : Token} (ht : R.token t t')
    (hkind : t.kind = .number ∨ t.kind = .string) :
    R.InStep R.ExprLike
      (do
        Parse.advance
        match t.literal with
        | some (.number value) => pure (.literal (.number value))
        | some (.string value) => pure (.literal (.string value))
        | none => Parse.refuse t .literalWithoutValue)
      (do
        Parse.advance
        match t'.literal with
        | some (.number value) => pure (.literal (.number value))
        | some (.string value) => pure (.literal (.string value))
        | none => Parse.refuse t' .literalWithoutValue) := by
  refine inStep_next inStep_advance ?_
  rw [R.literal_eq ht]
  cases hliteral : t.literal with
  | none => exact inStep_refuse (R.noted_atToken _ ht fun _ => ⟨hkind, hliteral⟩)
  | some literal =>
    cases literal with
    | number value => exact inStep_pure (.literal _)
    | string value => exact inStep_pure (.literal _)

/-- Primary expressions are read in step. -/
theorem primary_inStep : R.InStep R.ExprLike primary primary := by
  refine inStep_bind inStep_peek fun t t' ht => ?_
  rw [R.kind_eq ht]
  cases hkind : t.kind with
  | kwFalse => exact taken_inStep (.literal _)
  | kwTrue => exact taken_inStep (.literal _)
  | kwNil => exact taken_inStep (.literal _)
  | number => exact literal_inStep ht (.inl hkind)
  | string => exact literal_inStep ht (.inr hkind)
  | identifier => exact taken_inStep (.variable (R.named_of ht hkind))
  | leftParen =>
    refine inStep_next inStep_advance (inStep_bind (inStep_call .expression) fun e e' he => ?_)
    exact inStep_next (inStep_expect _ _) (inStep_pure (.grouping he))
  | _ => exact inStep_refuse (R.noted_atToken _ ht nofun)

/-- Clauses are read in step, or left out in both. -/
theorem clause_inStep (closing : Kind) :
    R.InStep (Option.Rel R.ExprLike) (clause closing) (clause closing) := by
  refine inStep_bind inStep_peekKind ?_
  rintro kind _ rfl
  refine inStep_ite (inStep_pure .none) ?_
  exact inStep_bind (inStep_call .expression) fun e e' he => inStep_pure (.some he)

/-- Expressions are read in step. What is assigned to is a bare name in both or in neither. -/
theorem expression_inStep : R.InStep R.ExprLike expression expression := by
  refine inStep_bind (inStep_call (.operation .or)) fun left left' hleft => ?_
  refine inStep_bind (inStep_accept _) fun equals equals' hequals => ?_
  cases hequals with
  | none => exact inStep_pure hleft
  | some hequals =>
    refine inStep_bind (inStep_call .expression) fun value value' hvalue => ?_
    have hreport : R.InStep (fun _ _ => True) (Parse.report _ .invalidAssignmentTarget)
        (Parse.report _ .invalidAssignmentTarget) :=
      inStep_report (R.noted_atToken _ hequals nofun)
    cases hleft with
    | «variable» hname => exact inStep_pure (.assign hname hvalue)
    | grouped hloose => exact absurd hloose R.exact
    | literal c => exact inStep_next hreport (inStep_pure (.literal c))
    | grouping he => exact inStep_next hreport (inStep_pure (.grouping he))
    | unary ho he => exact inStep_next hreport (inStep_pure (.unary ho he))
    | binary he ho hf => exact inStep_next hreport (inStep_pure (.binary he ho hf))
    | logical he ho hf => exact inStep_next hreport (inStep_pure (.logical he ho hf))
    | assign hn he => exact inStep_next hreport (inStep_pure (.assign hn he))
    | call he hp hes => exact inStep_next hreport (inStep_pure (.call he hp hes))

/-- Operations with like sides and corresponding operators are alike. -/
theorem join_like (level : Level) {left left' right right' : Expr} {o o' : Token}
    (hleft : R.ExprLike left left') (ho : R.token o o') (hright : R.ExprLike right right') :
    R.ExprLike (level.join left o right) (level.join left' o' right') := by
  cases level with
  | or => exact .logical hleft ho hright
  | and => exact .logical hleft ho hright
  | _ => exact .binary hleft ho hright

/-- Operations are read in step. -/
theorem operation_inStep (level : Level) :
    R.InStep R.ExprLike (operation level) (operation level) :=
  inStep_bind (operand_inStep level) fun _ _ h => inStep_become (.operatorTail level h)

/-- So are the tails of operations, behind left sides that are alike. -/
theorem operatorTail_inStep (level : Level) {left left' : Expr} (hleft : R.ExprLike left left') :
    R.InStep R.ExprLike (operatorTail level left) (operatorTail level left') := by
  refine inStep_bind (inStep_accept _) fun operator operator' ho => ?_
  cases ho with
  | none => exact inStep_pure hleft
  | some ho =>
    exact inStep_bind (operand_inStep level) fun right right' hright =>
      inStep_become (.operatorTail level (join_like level hleft ho hright))

/-- Unary expressions are read in step. -/
theorem unary_inStep : R.InStep R.ExprLike unary unary := by
  refine inStep_bind (inStep_accept _) fun operator operator' ho => ?_
  cases ho with
  | some ho =>
    exact inStep_bind (inStep_call .unary) fun right right' hright =>
      inStep_pure (.unary ho hright)
  | none =>
    exact inStep_bind primary_inStep fun callee callee' hcallee => inStep_become (.calls hcallee)

/-- Argument lists are read in step. -/
theorem argumentList_inStep : R.InStep R.ExprsLike argumentList argumentList := by
  refine inStep_bind inStep_peekKind ?_
  rintro kind _ rfl
  refine inStep_ite (inStep_pure .nil) ?_
  exact inStep_bind (inStep_call .expression) fun e e' he =>
    inStep_call (.arguments (.cons he .nil))

/-- Calls are read in step, behind callees that are alike. -/
theorem calls_inStep {callee callee' : Expr} (hcallee : R.ExprLike callee callee') :
    R.InStep R.ExprLike (calls callee) (calls callee') := by
  refine inStep_bind (inStep_accept _) fun opening opening' hopening => ?_
  cases hopening with
  | none => exact inStep_pure hcallee
  | some _ =>
    refine inStep_bind argumentList_inStep fun args args' hargs => ?_
    exact inStep_bind (inStep_expect _ _) fun paren paren' hparen =>
      inStep_become (.calls (.call hcallee hparen.1 hargs))

/-- Arguments are read in step, behind those that have been read alike. -/
theorem arguments_inStep {read read' : List Expr} (hread : R.ExprsLike read read') :
    R.InStep R.ExprsLike (arguments read) (arguments read') := by
  refine inStep_bind (inStep_accept _) fun comma comma' hcomma => ?_
  cases hcomma with
  | none => exact inStep_pure (exprsLike_iff.2 (List.rel_reverse (exprsLike_iff.1 hread)))
  | some _ =>
    rw [← (exprsLike_iff.1 hread).length_eq]
    refine inStep_next (inStep_reportBeyond _ nofun) ?_
    exact inStep_bind (inStep_call .expression) fun e e' he => inStep_become (.arguments (.cons he hread))

/-! ## Productions for statements and declarations -/

/-- The rests of blocks are read in step. -/
theorem blockRest_inStep : R.InStep R.StmtsLike blockRest blockRest :=
  inStep_bind (inStep_call (.block .nil)) fun _ _ hbody =>
    inStep_next (inStep_expect _ _) (inStep_pure hbody)

/-- Parameter lists are read in step. -/
theorem parameterList_inStep :
    R.InStep (List.Forall₂ R.named) parameterList parameterList := by
  refine inStep_bind inStep_peekKind ?_
  rintro kind _ rfl
  exact inStep_ite (inStep_pure .nil) (inStep_call (.parameters .nil))

/-- Declarations of functions are read in step. -/
theorem function_inStep : R.InStep R.StmtLike function function := by
  refine inStep_bind (inStep_expectName _) fun name name' hname => ?_
  refine inStep_next (inStep_expect _ _) ?_
  refine inStep_bind parameterList_inStep fun params params' hparams => ?_
  refine inStep_next (inStep_expect _ _) (inStep_next (inStep_expect _ _) ?_)
  exact inStep_bind (inStep_inFunction blockRest_inStep) fun body body' hbody =>
    inStep_pure (.function hname hparams hbody)

/-- Parameters are read in step, behind those that have been read alike. -/
theorem parameters_inStep {read read' : List Token} (hread : List.Forall₂ R.named read read') :
    R.InStep (List.Forall₂ R.named) (parameters read) (parameters read') := by
  unfold parameters
  rw [← hread.length_eq]
  refine inStep_next (inStep_reportBeyond _ nofun) ?_
  refine inStep_bind (inStep_expectName _) fun name name' hname => ?_
  refine inStep_bind (inStep_accept _) fun comma comma' hcomma => ?_
  cases hcomma with
  | some _ => exact inStep_become (.parameters (.cons hname hread))
  | none => exact inStep_pure (List.rel_reverse (.cons hname hread))

/-- Initial values are read in step, or left out in both. -/
theorem initialValue_inStep :
    R.InStep (Option.Rel R.ExprLike) initialValue initialValue := by
  refine inStep_bind (inStep_accept _) fun equals equals' hequals => ?_
  cases hequals with
  | some _ => exact inStep_bind (inStep_call .expression) fun e e' he => inStep_pure (.some he)
  | none => exact inStep_pure .none

/-- Variables are read in step. -/
theorem variableRest_inStep : R.InStep R.StmtLike variableRest variableRest := by
  refine inStep_bind (inStep_expectName _) fun name name' hname => ?_
  refine inStep_bind initialValue_inStep fun init init' hinit => ?_
  exact inStep_next (inStep_expect _ _) (inStep_pure (.var hname hinit))

/-- Expression statements are read in step. -/
theorem expressionStatement_inStep :
    R.InStep R.StmtLike expressionStatement expressionStatement :=
  inStep_bind (inStep_call .expression) fun _ _ he =>
    inStep_next (inStep_expect _ _) (inStep_pure (.expression he))

/-- Statements with `print` are read in step behind their keywords. -/
theorem printRest_inStep {keyword keyword' : Token} (hk : R.token keyword keyword') :
    R.InStep R.StmtLike (printRest keyword) (printRest keyword') :=
  inStep_bind (inStep_call .expression) fun _ _ he =>
    inStep_next (inStep_expect _ _) (inStep_pure (.print hk he))

/-- Conditionals are read in step, with an `else` in both or in neither. -/
theorem ifRest_inStep : R.InStep R.StmtLike ifRest ifRest := by
  refine inStep_next (inStep_expect _ _) ?_
  refine inStep_bind (inStep_call .expression) fun condition condition' hcondition => ?_
  refine inStep_next (inStep_expect _ _) ?_
  refine inStep_bind (inStep_call .statement) fun consequent consequent' hconsequent => ?_
  refine inStep_bind (inStep_accept _) fun other other' hother => ?_
  cases hother with
  | some _ =>
    exact inStep_bind (inStep_call .statement) fun alternative alternative' halternative =>
      inStep_pure (.ifElse hcondition hconsequent halternative)
  | none => exact inStep_pure (.ifThen hcondition hconsequent)

/-- Loops with `while` are read in step. -/
theorem whileRest_inStep : R.InStep R.StmtLike whileRest whileRest := by
  refine inStep_next (inStep_expect _ _) ?_
  refine inStep_bind (inStep_call .expression) fun condition condition' hcondition => ?_
  refine inStep_next (inStep_expect _ _) ?_
  exact inStep_bind (inStep_call .statement) fun body body' hbody =>
    inStep_pure (.while hcondition hbody)

/-- Initializers are read in step. -/
theorem forInit_inStep : R.InStep (Option.Rel R.StmtLike) forInit forInit := by
  refine inStep_bind (inStep_accept _) fun lead lead' hlead => ?_
  cases hlead with
  | some hlead =>
    simp only [R.kind_eq hlead]
    refine inStep_ite (inStep_pure .none) ?_
    exact inStep_bind variableRest_inStep fun s s' hs => inStep_pure (.some hs)
  | none =>
    exact inStep_bind expressionStatement_inStep fun s s' hs => inStep_pure (.some hs)

/-- Loops that are lowered from like clauses and bodies are alike. -/
theorem forLoop_like {init init' : Option Stmt} (hinit : Option.Rel R.StmtLike init init')
    {condition condition' : Expr} (hcondition : R.ExprLike condition condition')
    {increment increment' : Option Expr} (hincrement : Option.Rel R.ExprLike increment increment')
    {body body' : Stmt} (hbody : R.StmtLike body body') :
    R.StmtLike (forLoop init condition increment body) (forLoop init' condition' increment' body') := by
  have hloop : ∀ {b b' : Stmt}, R.StmtLike b b' →
      R.StmtLike (.block (init.toList ++ [.while condition b]))
        (.block (init'.toList ++ [.while condition' b'])) := by
    intro b b' hb
    cases hinit with
    | some hs => exact .block (.cons hs (.cons (.while hcondition hb) .nil))
    | none => exact .block (.cons (.while hcondition hb) .nil)
  cases hincrement with
  | some he => exact hloop (.block (.cons hbody (.cons (.expression he) .nil)))
  | none => exact hloop hbody

/-- Loops with `for` are read in step. -/
theorem forRest_inStep : R.InStep R.StmtLike forRest forRest := by
  refine inStep_next (inStep_expect _ _) ?_
  refine inStep_bind forInit_inStep fun init init' hinit => ?_
  refine inStep_bind (clause_inStep _) fun condition condition' hcondition => ?_
  refine inStep_next (inStep_expect _ _) ?_
  refine inStep_bind (clause_inStep _) fun increment increment' hincrement => ?_
  refine inStep_next (inStep_expect _ _) ?_
  refine inStep_bind (inStep_call .statement) fun body body' hbody => ?_
  refine inStep_pure (forLoop_like hinit ?_ hincrement hbody)
  cases hcondition with
  | some he => exact he
  | none => exact .literal _

/-- Statements with `return` are read in step. -/
theorem returnRest_inStep {keyword keyword' : Token} (hk : R.token keyword keyword') :
    R.InStep R.StmtLike (returnRest keyword) (returnRest keyword') := by
  refine inStep_next (inStep_reportOutside (R.noted_atToken _ hk nofun)) ?_
  refine inStep_bind (clause_inStep _) fun value value' hvalue => ?_
  exact inStep_next (inStep_expect _ _) (inStep_pure (.return hk hvalue))

/-- Statements are read in step: their first tokens have the same kind. -/
theorem statement_inStep : R.InStep R.StmtLike statement statement := by
  refine inStep_bind inStep_peek fun t t' ht => ?_
  rw [R.kind_eq ht]
  cases t.kind with
  | kwPrint => exact inStep_next inStep_advance (printRest_inStep ht)
  | kwIf => exact inStep_next inStep_advance ifRest_inStep
  | kwWhile => exact inStep_next inStep_advance whileRest_inStep
  | kwFor => exact inStep_next inStep_advance forRest_inStep
  | kwReturn => exact inStep_next inStep_advance (returnRest_inStep ht)
  | leftBrace =>
    exact inStep_next inStep_advance (inStep_bind blockRest_inStep fun _ _ hbody =>
      inStep_pure (.block hbody))
  | _ => exact expressionStatement_inStep

/-- So are declarations. -/
theorem declarationBody_inStep : R.InStep R.StmtLike declarationBody declarationBody := by
  refine inStep_bind inStep_peek fun t t' ht => ?_
  rw [R.kind_eq ht]
  cases t.kind with
  | kwFun => exact inStep_next inStep_advance function_inStep
  | kwVar => exact inStep_next inStep_advance variableRest_inStep
  | _ => exact inStep_call .statement

/-- Declarations are read in step also where they are dropped: both find the corresponding place to go
on. -/
theorem declaration_inStep : R.InStep (Option.Rel R.StmtLike) declaration declaration := by
  refine inStep_bind inStep_index ?_
  rintro _ start rfl
  refine inStep_bind (inStep_attempt declarationBody_inStep) fun result result' hresult => ?_
  cases hresult with
  | ok hs => exact inStep_pure (.some hs)
  | error => exact inStep_next (inStep_synchronize start) (inStep_pure .none)

/-- What has been read stays alike with a declaration more, or with a dropped one in both. -/
theorem declared_like {s s' : Option Stmt} (hs : Option.Rel R.StmtLike s s') {read read' : List Stmt}
    (hread : R.StmtsLike read read') : R.StmtsLike (s.toList ++ read) (s'.toList ++ read') := by
  cases hs with
  | none => exact hread
  | some hs => exact .cons hs hread

/-- Blocks are read in step. -/
theorem block_inStep {read read' : List Stmt} (hread : R.StmtsLike read read') :
    R.InStep R.StmtsLike (block read) (block read') := by
  refine inStep_bind inStep_peekKind ?_
  rintro kind _ rfl
  refine inStep_ite ?_ ?_
  · exact inStep_pure (stmtsLike_iff.2 (List.rel_reverse (stmtsLike_iff.1 hread)))
  · exact inStep_bind (inStep_call .declaration) fun s s' hs =>
      inStep_become (.block (declared_like hs hread))

/-- Programs are read in step. -/
theorem program_inStep {read read' : List Stmt} (hread : R.StmtsLike read read') :
    R.InStep R.StmtsLike (program read) (program read') := by
  refine inStep_bind inStep_peekKind ?_
  rintro kind _ rfl
  refine inStep_ite ?_ ?_
  · exact inStep_pure (stmtsLike_iff.2 (List.rel_reverse (stmtsLike_iff.1 hread)))
  · exact inStep_bind (inStep_call .declaration) fun s s' hs =>
      inStep_become (.program (declared_like hs hread))

/-- **The parser does the same for like goals.** -/
theorem rules_inStep {g g' : Goal} (h : R.GoalLike g g') :
    R.InStep (R.TreeLike g g') (rules g) (rules g') := by
  cases h with
  | program hread => exact program_inStep hread
  | block hread => exact block_inStep hread
  | declaration => exact declaration_inStep
  | statement => exact statement_inStep
  | expression => exact expression_inStep
  | operation level => exact operation_inStep level
  | operatorTail level hleft => exact operatorTail_inStep level hleft
  | unary => exact unary_inStep
  | calls hcallee => exact calls_inStep hcallee
  | arguments hread => exact arguments_inStep hread
  | parameters hread => exact parameters_inStep hread

/-! ## Whole programs -/

/-- Where two lists of like tokens end: at like tokens, which may have been supplied. -/
theorem ofTokens_like {tokens tokens' : List Token} (h : List.Forall₂ R.token tokens tokens')
    (hend : R.token (State.suppliedEnd tokens) (State.suppliedEnd tokens')) :
    R.StateLike (State.ofTokens tokens) (State.ofTokens tokens') := by
  have hfinish : ∀ {t t' : Token}, R.token t t' →
      R.token ((tokens.find? (·.kind = .eof)).getD t) ((tokens'.find? (·.kind = .eof)).getD t') := by
    clear hend
    intro t t' ht
    induction h with
    | nil => exact ht
    | cons hu _ ih =>
      simp only [List.find?_cons, R.kind_eq hu]
      split
      · exact hu
      · exact ih
  refine ⟨?_, hfinish hend, rfl, .none, rfl, .nil⟩
  clear hfinish hend
  show List.Forall₂ R.token (tokens.takeWhile _) (tokens'.takeWhile _)
  induction h with
  | nil => exact .nil
  | cons hu _ ih =>
    simp only [List.takeWhile_cons, R.kind_eq hu]
    split
    · exact .cons hu ih
    · exact .nil

/-- **Like tokens are read alike**: as like programs, with like complaints. -/
theorem parse_like {tokens tokens' : List Token} (h : List.Forall₂ R.token tokens tokens')
    (hend : R.token (State.suppliedEnd tokens) (State.suppliedEnd tokens')) :
    R.StmtsLike (parse tokens).program (parse tokens').program ∧
      List.Forall₂ R.noted (parse tokens).diagnostics.toList (parse tokens').diagnostics.toList := by
  have hrules : ∀ q q', R.toMatch.asked q q' →
      Plan.InStep R.toMatch (R.toMatch.replied q q') (Routine.rulesOf rules q)
          (Routine.rulesOf rules q') ∨
        R.toMatch.Waits (Routine.rulesOf rules) (fun _ => 0) q q' :=
    fun q q' hq => .inl (rules_inStep hq.1 q.2 q'.2 hq.2)
  have hrel := Plan.Match.rel_eval (Plan.Match.rel_value hrules)
    (program_inStep .nil _ _ (ofTokens_like h hend))
  obtain ⟨program, s, hvalue, hparse⟩ := exists_parse tokens
  obtain ⟨program', s', hvalue', hparse'⟩ := exists_parse tokens'
  unfold Routine.value at hvalue hvalue'
  rw [hvalue, hvalue'] at hrel
  rw [hparse, hparse']
  obtain ⟨hresult, hstate⟩ := Option.rel_some_some.1 hrel
  cases hresult with
  | ok hprogram => exact ⟨hprogram, hstate.diagnostics⟩

end Reading

end Treewalk.Grammar
