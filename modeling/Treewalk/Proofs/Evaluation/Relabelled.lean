import Treewalk.Proofs.Evaluation.TwoRuns
import Treewalk.Proofs.Tree.Relabel

/-!
# Replacing tokens commutes with running

A token stands in a program for its kind and its text; the evaluator looks at nothing else of it, and
hands tokens on only inside functions and faults. So if tokens are replaced by others of the same kind
and text, in a program and in the functions that an interpreter holds, then the run is the same one
with tokens replaced in its outcome (`value_relabelAll`).
-/

set_option linter.unusedSectionVars false

namespace Treewalk

variable (φ ψ : Token → Token)

/-! ## Replacing tokens in a running program -/

/-- The function value with every token of its declaration replaced. -/
def Closure.relabel (c : Closure) : Closure :=
  { c with declaration := c.declaration.relabel φ }

/-- The value with every token in it replaced. -/
def Value.relabel : Value → Value
  | .function c => .function (c.relabel φ)
  | v => v

/-- The frame with every token in it replaced. -/
def Frame.relabel (f : Frame) : Frame :=
  { f with bindings := f.bindings.map fun b => (b.1, b.2.relabel φ) }

/-- The frame with its names replaced, too. -/
def Frame.rename (ν : String → String) (f : Frame) : Frame :=
  { f with bindings := f.bindings.map fun b => (ν b.1, b.2.relabel φ) }

/-- The store with every token in it replaced. -/
def Store.relabel (s : Store) : Store :=
  { s with frames := s.frames.map (Frame.relabel φ) }

/-- The store with the names in its frames replaced, too. -/
def Store.rename (ν : String → String) (s : Store) : Store :=
  { s with frames := s.frames.map (Frame.rename φ ν) }

/-- The fault at another token. -/
def Fault.relabel : Fault → Fault
  | .typeMismatch t m => .typeMismatch (φ t) m
  | .undefinedVariable t => .undefinedVariable (φ t)
  | .notCallable t => .notCallable (φ t)
  | .arityMismatch t expected got => .arityMismatch (φ t) expected got
  | .stackOverflow t => .stackOverflow (φ t)
  | .output t => .output (φ t)

namespace Evaluation

/-- The state with every token in it replaced. -/
def State.relabel (s : State) : State :=
  { s with store := s.store.relabel φ }

/-- How a statement ended, with every token replaced. -/
def Flow.relabel : Flow → Flow
  | .normal => .normal
  | .returned v => .returned (v.relabel φ)

/-- How a run ended, with every token replaced. -/
def relabelOutcome (out : Except Fault Flow × State) : Except Fault Flow × State :=
  (match out.1 with
    | .ok flow => .ok (flow.relabel φ)
    | .error f => .error (f.relabel φ),
   out.2.relabel φ)

end Evaluation

/-! ## Replacing twice, or not at all -/

/-- Replacing the tokens of a value twice is replacing them once, by both in turn. -/
theorem Value.relabel_relabel (v : Value) : (v.relabel φ).relabel ψ = v.relabel (ψ ∘ φ) := by
  cases v with
  | function c => simp only [Value.relabel, Closure.relabel, Function.relabel_relabel]
  | _ => rfl

/-- So for a frame. -/
theorem Frame.relabel_relabel (f : Frame) : (f.relabel φ).relabel ψ = f.relabel (ψ ∘ φ) := by
  simp only [Frame.relabel, List.map_map, Function.comp_def, Value.relabel_relabel]

/-- So for a state. -/
theorem Evaluation.State.relabel_relabel (s : State) :
    (s.relabel φ).relabel ψ = s.relabel (ψ ∘ φ) := by
  have hframe : Frame.relabel ψ ∘ Frame.relabel φ = Frame.relabel (ψ ∘ φ) :=
    funext fun f => f.relabel_relabel φ ψ
  simp only [State.relabel, Store.relabel, Array.map_map, hframe]

/-- Replacing each token by itself changes no value. -/
theorem Value.relabel_id (v : Value) : v.relabel id = v := by
  cases v with
  | function c => simp only [Value.relabel, Closure.relabel, Function.relabel_id]
  | _ => rfl

/-- Nor does it change a frame. -/
theorem Frame.relabel_id (f : Frame) : f.relabel id = f := by
  simp only [Frame.relabel, Value.relabel_id, List.map_id']

/-- Nor a store. -/
theorem Store.relabel_id (s : Store) : s.relabel id = s := by
  have hframe : Frame.relabel id = id := funext Frame.relabel_id
  simp only [Store.relabel, hframe, Array.map_id]

/-- Nor a state. -/
theorem Evaluation.State.relabel_id (s : State) : s.relabel id = s := by
  simp only [State.relabel, Store.relabel_id]

/-- Nor a fault. -/
theorem Fault.relabel_id (f : Fault) : f.relabel id = f := by
  cases f <;> rfl

/-- A fault with its token replaced is reported at the other token. -/
@[simp] theorem Fault.token_relabel (f : Fault) : (f.relabel φ).token = φ f.token := by
  cases f <;> rfl

/-- Only what becomes of its own token matters to a fault. -/
theorem Fault.relabel_congr {φ ψ : Token → Token} {f : Fault} (h : φ f.token = ψ f.token) :
    f.relabel φ = f.relabel ψ := by
  cases f with
  | typeMismatch _ m => exact congrArg (Fault.typeMismatch · m) h
  | undefinedVariable => exact congrArg Fault.undefinedVariable h
  | notCallable => exact congrArg Fault.notCallable h
  | arityMismatch _ expected got => exact congrArg (Fault.arityMismatch · expected got) h
  | stackOverflow => exact congrArg Fault.stackOverflow h
  | output => exact congrArg Fault.output h

/-- Replacing the token of a fault twice is replacing it once, by both in turn. -/
theorem Fault.relabel_relabel (f : Fault) : (f.relabel φ).relabel ψ = f.relabel (ψ ∘ φ) := by
  cases f <;> rfl

/-! ## Alike, and the same once tokens are replaced -/

namespace Evaluation

variable {φ ψ}

/-- Like tokens are the same when they are replaced by `φ` in the first run and by `ψ` in the second, like
names when they are replaced by `ν` in the first; and nothing but tokens and names may differ. -/
structure Likeness.Replaces (L : Likeness) (φ ψ : Token → Token) (ν : String → String) : Prop where
  token_eq : ∀ {t t'}, L.token t t' → ψ t' = φ t
  named_eq : ∀ {t t'}, L.named t t' → ψ t' = φ t
  name_eq : ∀ {n n'}, L.name n n' → n' = ν n
  identity_eq : ∀ {i i'}, L.identity i i' → i' = i
  visible : ∀ f, L.visible f
  exact : ¬L.loose

namespace Likeness.Replaces

variable {L : Likeness} {ν : String → String} (hL : L.Replaces φ ψ ν)

include hL

mutual

/-- Expressions that are alike under a likeness that replaces tokens are the same with their tokens
replaced. -/
theorem expr_eq : {e e' : Expr} → L.ExprLike e e' → e'.relabel ψ = e.relabel φ
  | _, _, .literal _ => rfl
  | _, _, .grouping h => by simp only [Expr.relabel, expr_eq h]
  | _, _, .grouped hl _ => absurd hl hL.exact
  | _, _, .unary ho h => by simp only [Expr.relabel, hL.token_eq ho, expr_eq h]
  | _, _, .binary h ho h' | _, _, .logical h ho h' => by
    simp only [Expr.relabel, hL.token_eq ho, expr_eq h, expr_eq h']
  | _, _, .variable hn => by simp only [Expr.relabel, hL.named_eq hn]
  | _, _, .assign hn h => by simp only [Expr.relabel, hL.named_eq hn, expr_eq h]
  | _, _, .call h hp hs => by simp only [Expr.relabel, hL.token_eq hp, expr_eq h, exprs_eq hs]

/-- So are expressions in a list. -/
theorem exprs_eq : {es es' : List Expr} → L.ExprsLike es es' →
    Expr.relabelAll ψ es' = Expr.relabelAll φ es
  | _, _, .nil => rfl
  | _, _, .cons h hs => by simp only [Expr.relabelAll, expr_eq h, exprs_eq hs]

end

/-- So is an expression that may be missing. -/
theorem option_eq {o o' : Option Expr} (h : Option.Rel L.ExprLike o o') :
    o'.map (Expr.relabel ψ) = o.map (Expr.relabel φ) := by
  cases h with
  | none => rfl
  | some h => simp only [Option.map_some, hL.expr_eq h]

/-- So are names in a list. -/
theorem names_eq {ts ts' : List Token} (h : List.Forall₂ L.named ts ts') : ts'.map ψ = ts.map φ := by
  induction h with
  | nil => rfl
  | cons ht _ ih => simp only [List.map_cons, hL.named_eq ht, ih]

mutual

/-- So are statements. -/
theorem stmt_eq : {s s' : Stmt} → L.StmtLike s s' → s'.relabel ψ = s.relabel φ
  | _, _, .expression h => by simp only [Stmt.relabel, hL.expr_eq h]
  | _, _, .print hk h => by simp only [Stmt.relabel, hL.token_eq hk, hL.expr_eq h]
  | _, _, .var hn h => by simp only [Stmt.relabel, hL.named_eq hn, hL.option_eq h]
  | _, _, .return hk h => by simp only [Stmt.relabel, hL.token_eq hk, hL.option_eq h]
  | _, _, .block hs => by simp only [Stmt.relabel, stmts_eq hs]
  | _, _, .ifThen h hs | _, _, .while h hs => by
    simp only [Stmt.relabel, hL.expr_eq h, stmt_eq hs]
  | _, _, .ifElse h hs hs' => by
    simp only [Stmt.relabel, hL.expr_eq h, stmt_eq hs, stmt_eq hs']
  | _, _, .function hn hps hs => by
    simp only [Stmt.relabel, hL.named_eq hn, hL.names_eq hps, stmts_eq hs]

/-- So are statements in a list. -/
theorem stmts_eq : {ss ss' : List Stmt} → L.StmtsLike ss ss' →
    Stmt.relabelAll ψ ss' = Stmt.relabelAll φ ss
  | _, _, .nil => rfl
  | _, _, .cons h hs => by simp only [Stmt.relabelAll, stmt_eq h, stmts_eq hs]

end

/-- Values that are alike are the same with their tokens replaced. -/
theorem value_eq {v v' : Value} (h : L.ValueLike v v') : v'.relabel ψ = v.relabel φ := by
  cases h with
  | function hc =>
    simp only [Value.relabel, Closure.relabel, Function.relabel, hL.identity_eq hc.identity,
      hL.named_eq hc.name, hL.names_eq hc.params, hL.stmts_eq hc.body, hc.frame_eq]
  | _ => rfl

/-- So are frames, in which the names are replaced besides. -/
theorem frame_eq {f f' : Frame} (h : L.FrameLike f f') : f'.relabel ψ = f.rename φ ν := by
  obtain ⟨bs, p⟩ := f
  obtain ⟨bs', p'⟩ := f'
  obtain ⟨hbs, rfl, -⟩ := h
  have hmap : bs'.map (fun b => (b.1, b.2.relabel ψ)) = bs.map fun b => (ν b.1, b.2.relabel φ) := by
    dsimp only at hbs
    induction hbs with
    | nil => rfl
    | cons hb _ ih =>
      simp only [List.map_cons, hL.name_eq hb.1, hL.value_eq hb.2, ih]
  exact congrArg (Frame.mk · _) hmap

/-- So are stores, frame by frame. -/
theorem store_eq {s s' : Store} (h : L.StoreLike s s') : s'.relabel ψ = s.rename φ ν := by
  obtain ⟨frames, identities⟩ := s
  obtain ⟨frames', identities'⟩ := s'
  have hids : identities' = identities := hL.identity_eq (h.identities 0)
  have hframes : frames'.map (Frame.relabel ψ) = frames.map (Frame.rename φ ν) := by
    apply Array.ext_getElem?
    intro f
    rw [Array.getElem?_map, Array.getElem?_map]
    rcases h.frame_cases (hL.visible f) with ⟨hs, ht⟩ | ⟨fr, fr', hs, ht, hfr⟩
    · rw [show frames[f]? = none from hs, show frames'[f]? = none from ht]
      rfl
    · rw [show frames[f]? = some fr from hs, show frames'[f]? = some fr' from ht, Option.map_some,
        hL.frame_eq hfr, Option.map_some]
  exact congrArg₂ Store.mk hframes hids

/-- So are faults. -/
theorem fault_eq {f f' : Fault} (h : L.FaultLike f f') : f'.relabel ψ = f.relabel φ := by
  cases h with
  | undefinedVariable ht => simp only [Fault.relabel, hL.named_eq ht]
  | typeMismatch _ ht | notCallable ht | arityMismatch _ _ ht | stackOverflow ht | output ht =>
    simp only [Fault.relabel, hL.token_eq ht]

end Likeness.Replaces

/-! ## Trees and states that are alike -/

/-- Trees are alike if the tokens of the second one are those of the first one, replaced. -/
def relabelling (hφ : Token.Moves φ) : Likeness where
  token t t' := t' = φ t
  identity := Eq
  visible _ := True
  hidden _ := none
  loose := False
  kind_eq := by
    rintro t t' rfl
    exact hφ.kind_eq t
  lexeme_like := by
    rintro t t' rfl
    exact hφ.lexeme_eq t
  identity_iff := Likeness.identity_iff_of_eq

namespace relabelling

variable (hφ : Token.Moves φ)

/-! ### Trees are like their relabelled copies -/

mutual

/-- An expression is like itself with its tokens moved. -/
theorem exprLike_relabel : (e : Expr) → (relabelling hφ).ExprLike e (e.relabel φ)
  | .literal value => .literal value
  | .grouping e => .grouping (exprLike_relabel e)
  | .unary _ e => .unary rfl (exprLike_relabel e)
  | .binary e _ f => .binary (exprLike_relabel e) rfl (exprLike_relabel f)
  | .logical e _ f => .logical (exprLike_relabel e) rfl (exprLike_relabel f)
  | .variable _ => .variable rfl
  | .assign _ e => .assign rfl (exprLike_relabel e)
  | .call e _ es => .call (exprLike_relabel e) rfl (exprsLike_relabel es)

/-- So are expressions in a list. -/
theorem exprsLike_relabel :
    (es : List Expr) → (relabelling hφ).ExprsLike es (Expr.relabelAll φ es)
  | [] => .nil
  | e :: es => .cons (exprLike_relabel e) (exprsLike_relabel es)

end

/-- So is an expression that may be missing. -/
theorem optionLike_relabel (o : Option Expr) :
    Option.Rel (relabelling hφ).ExprLike o (o.map (Expr.relabel φ)) := by
  cases o with
  | none => exact .none
  | some e => exact .some (exprLike_relabel hφ e)

/-- So are lists of tokens. -/
theorem tokensLike_relabel (ts : List Token) :
    List.Forall₂ (relabelling hφ).token ts (ts.map φ) := by
  induction ts with
  | nil => exact .nil
  | cons t ts ih => exact .cons rfl ih

mutual

/-- A statement is like itself with its tokens moved. -/
theorem stmtLike_relabel : (s : Stmt) → (relabelling hφ).StmtLike s (s.relabel φ)
  | .expression e => .expression (exprLike_relabel hφ e)
  | .print _ e => .print rfl (exprLike_relabel hφ e)
  | .var _ init => .var rfl (optionLike_relabel hφ init)
  | .block b => .block (stmtsLike_relabel b)
  | .ifThen c s => .ifThen (exprLike_relabel hφ c) (stmtLike_relabel s)
  | .ifElse c s t =>
    .ifElse (exprLike_relabel hφ c) (stmtLike_relabel s) (stmtLike_relabel t)
  | .while c s => .while (exprLike_relabel hφ c) (stmtLike_relabel s)
  | .function _ ps b => .function rfl (tokensLike_relabel hφ ps) (stmtsLike_relabel b)
  | .return _ value => .return rfl (optionLike_relabel hφ value)

/-- So are statements in a list. -/
theorem stmtsLike_relabel :
    (ss : List Stmt) → (relabelling hφ).StmtsLike ss (Stmt.relabelAll φ ss)
  | [] => .nil
  | s :: ss => .cons (stmtLike_relabel s) (stmtsLike_relabel ss)

end

/-! ### States are like their relabelled copies, and like nothing else -/

variable {hφ}

/-- Moving tokens is a likeness that replaces tokens, and keeps names. -/
theorem replaces : (relabelling hφ).Replaces φ id id :=
  ⟨id, id, id, Eq.symm, fun _ => trivial, id⟩

/-- So statements that are alike are the same ones with their tokens moved. -/
theorem eq_of_stmtsLike {ss ss' : List Stmt} (h : (relabelling hφ).StmtsLike ss ss') :
    ss' = Stmt.relabelAll φ ss :=
  (Stmt.relabelAll_id ss').symm.trans (replaces.stmts_eq h)

/-- A value is like itself with its tokens moved. -/
theorem valueLike_relabel (v : Value) : (relabelling hφ).ValueLike v (v.relabel φ) := by
  cases v with
  | nil => exact .nil
  | boolean b => exact .boolean b
  | number x => exact .number x
  | string s => exact .string s
  | function c =>
    exact .function ⟨rfl, rfl, tokensLike_relabel hφ _, stmtsLike_relabel hφ _, rfl, trivial⟩

/-- So is a frame. -/
theorem frameLike_relabel (f : Frame) : (relabelling hφ).FrameLike f (f.relabel φ) where
  bindings := by
    obtain ⟨bs, p⟩ := f
    show List.Forall₂ _ bs (bs.map _)
    induction bs with
    | nil => exact .nil
    | cons b bs ih => exact .cons ⟨rfl, valueLike_relabel b.2⟩ ih
  parent_eq := rfl
  visible _ _ := trivial

/-- So is a state. -/
theorem stateLike_relabel (s : State) : (relabelling hφ).StateLike s (s.relabel φ) where
  store :=
    { size_eq := Array.size_map
      frames := by
        intro f _
        show Option.Rel _ s.store.frames[f]? (s.store.frames.map (Frame.relabel φ))[f]?
        rw [Array.getElem?_map]
        cases s.store.frames[f]? with
        | none => exact .none
        | some fr => exact .some (frameLike_relabel fr)
      hidden := fun f hf => absurd trivial hf
      visible := fun _ _ => trivial
      identities := fun _ => rfl }
  current_eq := rfl
  visible := trivial
  depth_eq := rfl
  sink := rfl

/-- Conversely, states that are alike are the same one with its tokens moved. -/
theorem eq_of_stateLike {s s' : State} (h : (relabelling hφ).StateLike s s') :
    s' = s.relabel φ := by
  obtain ⟨store, current, depth, sink⟩ := s
  obtain ⟨store', current', depth', sink'⟩ := s'
  obtain ⟨hstore, rfl, -, rfl, rfl⟩ := h
  have hstore' : store' = store.relabel φ :=
    store'.relabel_id.symm.trans (replaces.store_eq hstore)
  rw [hstore']
  rfl

/-- So are outcomes. -/
theorem eq_of_outcomeLike {out out' : Except Fault Flow × State}
    (h : (relabelling hφ).OutcomeLike (relabelling hφ).FlowLike out out') :
    out' = relabelOutcome φ out := by
  obtain ⟨result, s⟩ := out
  obtain ⟨result', s'⟩ := out'
  obtain ⟨hresult, hstate⟩ := h
  refine Prod.ext ?_ (eq_of_stateLike hstate)
  cases hresult with
  | ok hflow =>
    cases hflow with
    | normal => rfl
    | @returned v v' hv =>
      have hv' : v' = v.relabel φ := v'.relabel_id.symm.trans (replaces.value_eq hv)
      rw [hv']
      rfl
  | @error f f' hf =>
    have hf' : f' = f.relabel φ := f'.relabel_id.symm.trans (replaces.fault_eq hf)
    rw [hf']
    rfl

end relabelling

/-- **Replacing tokens commutes with running.** A program with its tokens replaced, on an interpreter
with its tokens replaced, ends exactly if the program itself does, and then with the tokens replaced
in what comes of it. -/
theorem value_relabelAll (hφ : Token.Moves φ) (program : List Stmt) (s : State) :
    Routine.value rules (execAll (Stmt.relabelAll φ program)) (s.relabel φ) =
      (Routine.value rules (execAll program) s).map (relabelOutcome φ) := by
  have hrel := Likeness.rel_value
    (Likeness.execAll_inStep (relabelling.stmtsLike_relabel hφ program))
    (relabelling.stateLike_relabel s)
  revert hrel
  generalize Routine.value rules (execAll program) s = out
  generalize Routine.value rules (execAll (Stmt.relabelAll φ program)) (s.relabel φ) = out'
  rintro (hlike | _)
  · rw [Option.map_some, relabelling.eq_of_outcomeLike hlike]
  · rfl

end Evaluation

end Treewalk
