import Treewalk.Proofs.Evaluation.TwoRuns
import Treewalk.Proofs.Tree.Erase

/-!
# Parentheses and positions do not matter to a run

A program and the same program without its parentheses and the places of its tokens are alike in the
sense of `Treewalk.Proofs.Evaluation.Likeness`, so they run alike. What is seen of a run from outside
(`Seen`) is its output and how it ended, a fault without its place: programs that are equal after
erasure have the same runs, as far as this can be seen (`seen_interpret_iff`).
-/

namespace Treewalk

namespace Evaluation

/-- Trees are alike if parentheses and the places of tokens are all that the second one lacks. -/
def erasing : Likeness where
  token t t' := t' = t.erase
  identity := Eq
  visible _ := True
  hidden _ := none
  loose := True
  kind_eq := by
    rintro t t' rfl
    rfl
  lexeme_like := by
    rintro t t' rfl
    rfl
  identity_iff := Likeness.identity_iff_of_eq

namespace erasing

mutual

/-- An expression is like the one without parentheses and positions. -/
theorem exprLike_erase : (e : Expr) → erasing.ExprLike e e.erase
  | .literal value => .literal value
  | .grouping e => .grouped trivial (exprLike_erase e)
  | .unary _ e => .unary rfl (exprLike_erase e)
  | .binary e _ f => .binary (exprLike_erase e) rfl (exprLike_erase f)
  | .logical e _ f => .logical (exprLike_erase e) rfl (exprLike_erase f)
  | .variable _ => .variable rfl
  | .assign _ e => .assign rfl (exprLike_erase e)
  | .call e _ es => .call (exprLike_erase e) rfl (exprsLike_erase es)

/-- So are expressions in a list. -/
theorem exprsLike_erase : (es : List Expr) → erasing.ExprsLike es (Expr.eraseAll es)
  | [] => .nil
  | e :: es => .cons (exprLike_erase e) (exprsLike_erase es)

end

/-- So is an expression that may be missing. -/
theorem optionLike_erase (o : Option Expr) :
    Option.Rel erasing.ExprLike o (o.map Expr.erase) := by
  cases o with
  | none => exact .none
  | some e => exact .some (exprLike_erase e)

/-- Tokens are like those without positions. -/
theorem tokensLike_erase (ts : List Token) :
    List.Forall₂ erasing.token ts (ts.map Token.erase) := by
  induction ts with
  | nil => exact .nil
  | cons t ts ih => exact .cons rfl ih

mutual

/-- A statement is like the one without parentheses and positions. -/
theorem stmtLike_erase : (s : Stmt) → erasing.StmtLike s s.erase
  | .expression e => .expression (exprLike_erase e)
  | .print _ e => .print rfl (exprLike_erase e)
  | .var _ init => .var rfl (optionLike_erase init)
  | .block b => .block (stmtsLike_erase b)
  | .ifThen c s => .ifThen (exprLike_erase c) (stmtLike_erase s)
  | .ifElse c s t => .ifElse (exprLike_erase c) (stmtLike_erase s) (stmtLike_erase t)
  | .while c s => .while (exprLike_erase c) (stmtLike_erase s)
  | .function _ ps b => .function rfl (tokensLike_erase ps) (stmtsLike_erase b)
  | .return _ value => .return rfl (optionLike_erase value)

/-- So are statements in a list. -/
theorem stmtsLike_erase : (ss : List Stmt) → erasing.StmtsLike ss (Stmt.eraseAll ss)
  | [] => .nil
  | s :: ss => .cons (stmtLike_erase s) (stmtsLike_erase ss)

end

/-- A fresh interpreter is like itself. -/
theorem stateLike_initial (sink : Sink) : erasing.StateLike (.initial sink) (.initial sink) :=
  Likeness.stateLike_initial (fun _ => trivial) (fun _ => rfl) rfl

/-- Alike faults differ in their places only. -/
theorem fault_eq {f f' : Fault} (h : erasing.FaultLike f f') : f'.erase = f.erase := by
  cases h with
  | typeMismatch _ ht => obtain rfl := ht; rfl
  | undefinedVariable ht => obtain rfl := ht; rfl
  | notCallable ht => obtain rfl := ht; rfl
  | arityMismatch _ _ ht => obtain rfl := ht; rfl
  | stackOverflow ht => obtain rfl := ht; rfl
  | output ht => obtain rfl := ht; rfl

end erasing

/-! ## What is seen of a run -/

/-- What is seen of a run from outside: the output, and how it ended, with a fault and its words. -/
def seen {α : Type} (out : Except Fault α × State) : ByteArray × Except (Fault × String) Unit :=
  (out.2.sink.written,
    match out.1 with
    | .ok _ => .ok ()
    | .error f => .error (f.erase, f.message))

/-- Outcomes that are alike look the same from outside. -/
theorem seen_eq_of_like {α β : Type} {like : α → β → Prop} {out : Except Fault α × State}
    {out' : Except Fault β × State} (h : erasing.OutcomeLike like out out') : seen out' = seen out := by
  obtain ⟨result, s⟩ := out
  obtain ⟨result', s'⟩ := out'
  obtain ⟨hresult, hstate⟩ := h
  unfold seen
  rw [show s'.sink = s.sink from hstate.sink]
  cases hresult with
  | ok => rfl
  | error hf =>
    dsimp only
    rw [erasing.fault_eq hf, hf.message_eq id]

/-- A program is seen to run as it does without parentheses and positions. -/
theorem seen_value_eraseAll (program : List Stmt) (sink : Sink) :
    (Routine.value rules (execAll (Stmt.eraseAll program)) (.initial sink)).map seen =
      (Routine.value rules (execAll program) (.initial sink)).map seen := by
  have hrel := Likeness.rel_value (Likeness.execAll_inStep (erasing.stmtsLike_erase program))
    (erasing.stateLike_initial sink)
  revert hrel
  generalize Routine.value rules (execAll program) (.initial sink) = out
  generalize Routine.value rules (execAll (Stmt.eraseAll program)) (.initial sink) = out'
  rintro (hlike | _)
  · rw [Option.map_some, Option.map_some, seen_eq_of_like hlike]
  · rfl

/-- What can be seen of a run of a program is what can be seen of its value. -/
theorem exists_interpret_iff (program : List Stmt) (s : State)
    (x : ByteArray × Except (Fault × String) Unit) :
    (∃ steps, (interpret steps program s).map seen = some x) ↔
      (Routine.value rules (execAll program) s).map seen = some x := by
  have hseen : ∀ out : Except Fault Flow × State,
      seen ((out.1.map fun _ => ()), out.2) = seen out := by
    rintro ⟨_ | _, s⟩ <;> rfl
  unfold interpret
  simp only [Option.map_map, Option.map_eq_some_iff, Function.comp_def, hseen,
    Routine.value_eq_some_iff]
  constructor
  · rintro ⟨steps, out, hrun, rfl⟩
    exact ⟨out, ⟨steps, hrun⟩, rfl⟩
  · rintro ⟨out, ⟨steps, hrun⟩, rfl⟩
    exact ⟨steps, out, hrun, rfl⟩

/-- **Programs that are equal without parentheses and positions run alike**: what is seen of a run of
one is seen of a run of the other. -/
theorem seen_interpret_iff {program program' : List Stmt}
    (h : Stmt.eraseAll program' = Stmt.eraseAll program) (sink : Sink)
    (x : ByteArray × Except (Fault × String) Unit) :
    (∃ steps, (interpret steps program' (.initial sink)).map seen = some x) ↔
      ∃ steps, (interpret steps program (.initial sink)).map seen = some x := by
  rw [exists_interpret_iff, exists_interpret_iff, ← seen_value_eraseAll, h, seen_value_eraseAll]

end Evaluation

end Treewalk
