import Treewalk.Proofs.Grammar.Operators
import Treewalk.Proofs.Grammar.TwoReadings
import Treewalk.Proofs.Script.Run
import Treewalk.Proofs.Script.Sequence

/-!
# Answers that are never given

The parser has a complaint ready for a number or a string without a value; a program that meets a `return`
outside functions just ends; and operators that are unknown have faults of their own. None of this happens
to a text, whatever texts the interpreter has run before (`defences_unreachable`). The scanner gives every
number and string its value, and what is complained about in a row of such tokens is something else
(`Grammar.complaint_of_parse`). A program that is accepted is a sentence of the grammar: it has no `return`
outside functions, so that all of its statements are executed up to the first that fails, and operators of
the language only. The functions that a run leaves behind come from such programs as well, and are called in
later runs with the same effect (`operable_of_history`).
-/

namespace Treewalk

/-! ## Values of tokens -/

namespace Token

/-- The end token needs no value. -/
theorem valued_of_eof {t : Token} (h : t.kind = .eof) : t.Valued := by
  rintro (hkind | hkind) <;> rw [h] at hkind <;> cases hkind

/-- A token that could have been scanned has a value if its kind calls for one. -/
theorem Genuine.valued {t : Token} (h : t.Genuine) : t.Valued := by
  rintro (hkind | hkind) <;> rw [h.literal_eq, hkind] <;> exact Option.some_ne_none _

/-- **The scanner gives numbers and strings their values.** -/
theorem valued_of_mem_tokenize {source : String} {t : Token}
    (h : t ∈ (tokenize source).tokens.toList) : t.Valued := by
  by_cases hkind : t.kind = .eof
  · exact valued_of_eof hkind
  · rw [tokenize_eq, List.toList_toArray] at h
    exact (genuine_of_mem_scanAll h hkind).valued

/-- What the scanner complains about is a lexical error. -/
theorem exists_error_of_mem_scanAll {r : Reader} {d : Diagnostic} (h : d ∈ r.scanAll.2) :
    ∃ e : LexicalError, d = e.diagnostic := by
  fun_induction Reader.scanAll r with
  | case1 r t r' hs hk => cases h
  | case2 r t r' hs hk hlt ts ds hall ih =>
    rw [hall] at ih
    exact ih h
  | case3 r e r' hs hlt ts ds hall ih =>
    rcases List.mem_cons.1 h with rfl | h
    · exact ⟨e, rfl⟩
    · rw [hall] at ih
      exact ih h

end Token

/-! ## Complaints about values -/

/-- The words for a missing value are said of nothing else. -/
theorem Complaint.eq_of_message {c : Complaint} (h : c.message = "Literal token without a value") :
    c = .literalWithoutValue := by
  cases c with
  | literalWithoutValue => rfl
  | unexpectedCharacter | tooManyParameters | tooManyArguments =>
    refine absurd h ?_
    unfold Complaint.message
    simp only [String.append_assoc]
    exact Text.append_ne (by decide)
  | expected => exact absurd h (Text.append_ne (by decide))
  | unterminatedString | invalidAssignmentTarget | returnOutsideFunction =>
    exact absurd h (by decide)

namespace Grammar

/-- Tokens with values, read twice in the same way. -/
def valued : Reading where
  token t t' := t' = t ∧ t.Valued
  identity := Eq
  visible _ := True
  hidden _ := none
  loose := False
  kind_eq := by
    rintro t _ ⟨rfl, -⟩
    rfl
  lexeme_like := by
    rintro t _ ⟨rfl, -⟩
    rfl
  identity_iff := Evaluation.Likeness.identity_iff_of_eq
  exact := id
  literal_eq := by
    rintro t _ ⟨rfl, -⟩
    rfl
  noted d _ := d.complaint ≠ .literalWithoutValue
  noted_atToken := by
    rintro t _ c ⟨rfl, ht⟩ hc hcomplaint
    obtain ⟨hkind, hnone⟩ := hc hcomplaint
    exact ht hkind hnone

/-- **No value is missed in tokens that have one.** -/
theorem complaint_of_parse {tokens : List Token} (h : ∀ t ∈ tokens, t.Valued) {d : Diagnostic}
    (hd : d ∈ (parse tokens).diagnostics.toList) : d.complaint ≠ .literalWithoutValue := by
  have htokens : List.Forall₂ valued.token tokens tokens :=
    List.forall₂_same.2 fun t ht => ⟨rfl, h t ht⟩
  have hend : valued.token (State.suppliedEnd tokens) (State.suppliedEnd tokens) :=
    ⟨rfl, Token.valued_of_eof rfl⟩
  exact List.forall₂_same.1 (valued.parse_like htokens hend).2 d hd

end Grammar

namespace Script

open Token
open Evaluation (State Heritage Executes exec execAll interpret outcome_eq_some_iff flow_of_exec
  outcome_eq_some_iff_executes rules)
open Grammar (Sentence Derives Yields.space apart_space delimited_cons)

variable {source : String} {s t : State} {log log' : Log}

/-- No text is ever told of a literal token without a value. -/
theorem message_of_parse {d : Diagnostic} (h : d ∈ (parse source).diagnostics) :
    d.complaint.message ≠ "Literal token without a value" := by
  intro hmessage
  have hcomplaint := Complaint.eq_of_message hmessage
  rcases Array.mem_append.1 h with h | h
  · rw [tokenize_eq, List.mem_toArray] at h
    obtain ⟨e, rfl⟩ := exists_error_of_mem_scanAll h
    cases e <;> cases hcomplaint
  · exact Grammar.complaint_of_parse (fun _ => valued_of_mem_tokenize) (Array.mem_toList_iff.2 h)
      hcomplaint

/-! ## Programs that are accepted -/

/-- A text that is read as a program is a sentence of the grammar with this tree. -/
theorem sentence_of_read {program : List Stmt} (h : read source log = (.ok program, log')) :
    Sentence (tokensOf source) program := by
  obtain ⟨rfl, rfl⟩ := log_of_read h
  exact (read_eq_ok_iff.1 h).2

/-- A program that was read has no `return` outside functions. -/
theorem returnless_of_read {program : List Stmt} (h : read source log = (.ok program, log')) :
    Stmt.ReturnlessAll program :=
  (sentence_of_read h).returnless rfl

/-- All operators of a program that was read are operators of the language. -/
theorem operable_of_read {program : List Stmt} (h : read source log = (.ok program, log')) :
    ∀ st ∈ program, st.Everywhere Expr.Operable :=
  (sentence_of_read h).operable

/-! ## Texts one after the other -/

/-- The states of an interpreter that has run some texts, each until it ended, failed or was refused. -/
inductive History (sink : Sink) : State → Prop where
  | start : History sink (.initial sink)
  | run {s t : State} {steps : Nat} {source : String} {log log' : Log}
      {result : Except Failure Unit} (h : History sink s)
      (hrun : Script.run steps source s log = some (result, t, log')) : History sink t

/-- What a run of a text works with comes from the text or was held before. -/
theorem operable_of_run (hs : Heritage.operable.HoldsAll s.store) {steps : Nat}
    {result : Except Failure Unit} (h : run steps source s log = some (result, t, log')) :
    (∀ f, result = .error (.fault f) → f.Operable) ∧ Heritage.operable.HoldsAll t.store := by
  rcases run_cases h with ⟨-, rfl, rfl⟩ | ⟨program, flow, hread, hvalue, rfl⟩
  · exact ⟨fun _ => nofun, hs⟩
  · have hprogram : Heritage.operable.HandsDown _ (execAll program) :=
      Heritage.handsDown_execAll (operable_of_read hread)
    obtain ⟨hresult, ht⟩ := Heritage.outcome_of_value hprogram hs hvalue
    refine ⟨fun f hf => ?_, ht⟩
    cases flow with
    | ok => cases hf
    | error => cases hf; exact hresult

/-- The functions that an interpreter holds have operators of the language only. -/
theorem operable_of_history {sink : Sink} (h : History sink s) :
    Heritage.operable.HoldsAll s.store := by
  induction h with
  | start => exact fun v hv => absurd hv (Store.not_binds_initial v)
  | run _ hrun ih => exact (operable_of_run ih hrun).2

/-- **Some answers are never given.** No value is ever missed in a text. A program that is accepted has no
`return` outside functions, so that none of its statements leaves a function, and all are executed up to the
first that fails; and its operators, in its functions too, are those of the language. No text that is run
after any others, and calls functions of theirs, fails because an operator is unknown. -/
theorem defences_unreachable :
    (∀ source, ∀ d ∈ (parse source).diagnostics,
      d.complaint.message ≠ "Literal token without a value") ∧
    (∀ source log program log', read source log = (.ok program, log') →
      Stmt.ReturnlessAll program ∧
      (∀ st ∈ program, ∀ s t flow,
        Routine.value rules (exec st) s = some (.ok flow, t) → flow = .normal) ∧
      (∀ s out, (∃ steps, interpret steps program s = some out) ↔ Executes program s out) ∧
      ∀ st ∈ program, ∀ e, st.Has e → e.Operable) ∧
    ∀ sink s, History sink s → ∀ steps source log failure t log',
      run steps source s log = some (.error failure, t, log') →
        failure.message ≠ "Unknown unary operator." ∧
          failure.message ≠ "Unknown binary operator." := by
  refine ⟨fun source d hd => message_of_parse hd, ?_, ?_⟩
  · intro source log program log' hread
    have hreturnless := returnless_of_read hread
    refine ⟨hreturnless, ?_, ?_, operable_of_read hread⟩
    · intro st hst s t flow hvalue
      exact flow_of_exec (Stmt.returnless_of_mem hreturnless hst) hvalue
    · intro s out
      rw [← outcome_eq_some_iff]
      exact outcome_eq_some_iff_executes hreturnless
  · intro sink s hs steps source log failure t log' hrun
    cases failure with
    | badProgram => decide
    | fault f => exact ((operable_of_run (operable_of_history hs) hrun).1 f rfl).message_ne

/-- The operator in the function of an earlier text is not unknown. -/
theorem defences_unreachable_function : ∃ s steps failure t,
    History (.empty none) s ∧ run steps "f();" s #[] = some (.error failure, t, #[]) ∧
      failure.message = "Operand must be a number." ∧
      failure.message ≠ "Unknown unary operator." := by
  obtain ⟨s, t, operator, -, -, hfirst, hsecond⟩ := exists_runs_negated_nil
  have hhistory : History (.empty none) s := .run .start hfirst
  obtain ⟨-, -, hwords⟩ := defences_unreachable
  exact ⟨s, 40, _, t, hhistory, hsecond, rfl, (hwords _ s hhistory 40 _ #[] _ t #[] hsecond).1⟩

end Script

end Treewalk
