import Treewalk.Proofs.Evaluation.Origin
import Treewalk.Proofs.Script.Unreachable
import Treewalk.Proofs.Token.Layout

/-!
# Faults point into the texts

A fault is reported at a token. The token has come a long way from the text to the report: through the
parser into a tree, with the tree into a function, and with the function into the frames of an interpreter,
from where a later text may have called it. On the whole way it is not changed, and no other token is put in
its place. So it is a token of one of the texts that were run on the interpreter, and it stands there as it
says it does (`exists_stretch`); and it is the kind of token that such a fault is reported at, since the
parser puts a token of that kind there (`Grammar.Derives.places`).

## Main statement

`faults_point_into_texts`, for all rows of texts that an interpreter can be given.
-/

namespace Treewalk

open Token

/-! ## Tokens and their texts -/

namespace Token

/-- **A token of a text stands where it says**: on the line after as many lines as the text before it
has. -/
theorem exists_stretch {source : String} {t : Token} (ht : t ∈ (tokenize source).tokens.toList) :
    ∃ ahead behind, source.toList = ahead ++ t.lexeme.toList ++ behind ∧ t.start = .after ahead ∧
      t.stop = .after (ahead ++ t.lexeme.toList) := by
  have hstart : (Reader.ofString source).position = .after [] := rfl
  obtain ⟨pieces, h⟩ := (Reader.ofString source).exists_laysOut hstart
  have htext : source.toList = [] ++ Piece.texts pieces := h.lossless
  rw [tokenize_eq, List.toList_toArray, h.tokens] at ht
  rcases List.mem_append.1 ht with ht | ht
  · rw [htext]
    exact h.fit.exists_stretch ht
  · obtain rfl := List.mem_singleton.1 ht
    have hempty : source.toList = source.toList ++ (finishOf source.toList).lexeme.toList ++ [] := by
      simp [finishOf]
    exact ⟨source.toList, [], hempty, rfl, by simp [finishOf, Reader.ofString]⟩

/-- The lines of a text are counted from one to the last. -/
theorem line_bounds {source : String} {t : Token} (ht : t ∈ (tokenize source).tokens.toList) :
    1 ≤ t.line ∧ t.line ≤ 1 + source.toList.count '\n' := by
  obtain ⟨ahead, behind, htext, hstart, -⟩ := exists_stretch ht
  have hcount : ahead.count '\n' ≤ source.toList.count '\n' := by
    rw [htext, List.append_assoc, List.count_append]
    exact Nat.le_add_right _ _
  have hline : t.line = 1 + ahead.count '\n' := by rw [line, hstart, Position.after]
  omega

end Token

/-! ## Rows of texts -/

namespace Script

open Evaluation (State Heritage execAll)

/-- What becomes of a fresh interpreter on which some texts are run, each until it ended, failed or was
refused, and each with what its diagnostics are reported to. -/
inductive Row (sink : Sink) : List String → State → Prop where
  | start : Row sink [] (.initial sink)
  | run {texts : List String} {s t : State} {ρ : Type} [Reporter ρ] {reporter reporter' : ρ}
      {steps : Nat} {source : String} {result : Except Failure Unit} (h : Row sink texts s)
      (hrun : runWith steps source s reporter = some (result, t, reporter')) :
      Row sink (texts ++ [source]) t

/-- A token of one of some texts. -/
def TokenOf (texts : List String) (t : Token) : Prop :=
  ∃ text ∈ texts, t ∈ (tokenize text).tokens.toList

/-- A token of some texts is a token of more texts. -/
theorem TokenOf.mono {texts texts' : List String} {t : Token} (h : TokenOf texts t)
    (hsub : texts ⊆ texts') : TokenOf texts' t := by
  obtain ⟨text, htext, ht⟩ := h
  exact ⟨text, hsub htext, ht⟩

/-- A store with tokens of some texts only is a store with tokens of more texts only. -/
theorem holdsAll_mono {texts texts' : List String} {s : Store}
    (h : (Heritage.pointing (TokenOf texts)).HoldsAll s) (hsub : texts ⊆ texts') :
    (Heritage.pointing (TokenOf texts')).HoldsAll s := by
  intro v hv
  have hv := h v hv
  cases v with
  | function c => exact fun p hp => ⟨(hv p hp).1, (hv p hp).2.mono hsub⟩
  | _ => trivial

/-- A program that is run is a sentence, whatever diagnostics are reported to: the parser has not
complained. -/
theorem sentence_of_readWith {ρ : Type} [Reporter ρ] {reporter reporter' : ρ} {source : String}
    {program : List Stmt} (h : readWith source reporter = (.ok program, reporter')) :
    Grammar.Sentence (Grammar.beforeEnd (tokenize source).tokens.toList) program := by
  have hprogram := congrArg Prod.fst h
  simp only [readWith] at hprogram
  split at hprogram
  · cases hprogram
  · next hflag =>
    cases hprogram
    apply Grammar.sentence_of_parse
    rw [Bool.not_eq_true, Bool.or_eq_false_iff] at hflag
    have hempty := Grammar.hadError_parse (tokenize source).tokens.toList
    have hflag' : (Grammar.parse (tokenize source).tokens.toList).hadError = false := hflag.1
    rw [hflag'] at hempty
    simpa using hempty.symm

/-- What a run works with has tokens of the text or of earlier ones, at places for their kinds. -/
theorem points_of_run {texts : List String} {s t : State}
    (hs : (Heritage.pointing (TokenOf texts)).HoldsAll s.store) {ρ : Type} [Reporter ρ]
    {reporter reporter' : ρ} {steps : Nat} {source : String} {result : Except Failure Unit}
    (h : runWith steps source s reporter = some (result, t, reporter')) :
    (∀ f, result = .error (.fault f) →
      f.token.kind ∈ f.kinds ∧ TokenOf (texts ++ [source]) f.token) ∧
    (Heritage.pointing (TokenOf (texts ++ [source]))).HoldsAll t.store := by
  have hs' := holdsAll_mono hs (List.subset_append_left texts [source])
  rcases runWith_cases h with ⟨-, rfl, rfl⟩ | ⟨program, flow, hread, hvalue, rfl⟩
  · exact ⟨fun _ => nofun, hs'⟩
  · have hprogram : ∀ st ∈ program, (Heritage.pointing (TokenOf (texts ++ [source]))).stmt st := by
      intro st hst p hp
      have hplaced := (sentence_of_readWith hread).places p (Stmt.mem_placesAll.2 ⟨st, hst, hp⟩)
      refine ⟨hplaced.1, source, List.mem_append_right _ List.mem_cons_self, ?_⟩
      exact (List.takeWhile_sublist _).subset hplaced.2
    obtain ⟨hresult, ht⟩ := Heritage.outcome_of_value (Heritage.handsDown_execAll hprogram) hs' hvalue
    refine ⟨fun f hf => ?_, ht⟩
    cases flow with
    | ok => cases hf
    | error => cases hf; exact hresult

/-- Whatever texts an interpreter was given, all tokens in the functions that it keeps are tokens of
those texts. -/
theorem points_of_row {sink : Sink} {texts : List String} {s : State} (h : Row sink texts s) :
    (Heritage.pointing (TokenOf texts)).HoldsAll s.store := by
  induction h with
  | start => exact fun v hv => absurd hv (Store.not_binds_initial v)
  | run _ hrun ih => exact (points_of_run ih hrun).2

/-- **Faults point into the texts.** If a text is run on an interpreter that has run some others, and ends
with a fault, then the token that the fault is reported at is a token of one of these texts, or of the last:
of the kind that is right for the fault, on one of the lines of that text, and in the place where it says it
is. If there were no others, it is a token of the text itself. The texts are so short that the counters of
lines and columns have room for all their positions. -/
theorem faults_point_into_texts {sink : Sink} {texts : List String} {s t : State} (h : Row sink texts s)
    {source : String} (hlength : ∀ text ∈ texts ++ [source], text.length < 2 ^ 31 - 1)
    {ρ : Type} [Reporter ρ] {reporter reporter' : ρ} {steps : Nat} {f : Fault}
    (hrun : runWith steps source s reporter = some (.error (.fault f), t, reporter')) :
    f.token.kind ∈ f.kinds ∧
    (∃ text ∈ texts ++ [source], Counted text ∧ f.token ∈ (tokenize text).tokens.toList ∧
      1 ≤ f.line ∧ f.line ≤ 1 + text.toList.count '\n' ∧
      ∃ ahead behind, text.toList = ahead ++ f.token.lexeme.toList ++ behind ∧
        f.token.start = .after ahead ∧ f.token.stop = .after (ahead ++ f.token.lexeme.toList)) ∧
    (texts = [] → f.token ∈ (tokenize source).tokens.toList) := by
  obtain ⟨hkind, text, htext, ht⟩ := (points_of_run (points_of_row h) hrun).1 f rfl
  obtain ⟨hfirst, hlast⟩ := line_bounds ht
  have hcounted := counted_of_length (hlength text htext)
  refine ⟨hkind, ⟨text, htext, hcounted, ht, hfirst, hlast, exists_stretch ht⟩, ?_⟩
  rintro rfl
  obtain rfl := List.mem_singleton.1 htext
  exact ht

/-- The operator in a function of an earlier text, on the only line of that text or of the last. -/
theorem faults_point_into_texts_function : ∃ s t operator,
    Row (.empty none) ["fun f()\x7breturn -nil;\x7d"] s ∧
      (∀ text ∈ ["fun f()\x7breturn -nil;\x7d", "f();"], text.length < 2 ^ 31 - 1) ∧
      run 40 "f();" s #[] =
        some (.error (.fault (.typeMismatch operator .operandNotNumber)), t, #[]) ∧
      operator.line = 1 ∧
      ∃ text ∈ ["fun f()\x7breturn -nil;\x7d", "f();"], operator ∈ (tokenize text).tokens.toList := by
  obtain ⟨s, t, operator, -, -, hfirst, hsecond⟩ := exists_runs_negated_nil
  have hrow : Row (.empty none) ["fun f()\x7breturn -nil;\x7d"] s := .run .start hfirst
  have hlength : ∀ text ∈ ["fun f()\x7breturn -nil;\x7d", "f();"], text.length < 2 ^ 31 - 1 := by
    decide +kernel
  obtain ⟨-, ⟨text, htext, -, ht, hfirstLine, hlastLine, -⟩, -⟩ :=
    faults_point_into_texts hrow hlength hsecond
  have hlines : ∀ text ∈ ["fun f()\x7breturn -nil;\x7d", "f();"], text.toList.count '\n' = 0 := by
    decide
  rw [hlines text htext] at hlastLine
  have hline : operator.line = 1 := le_antisymm hlastLine hfirstLine
  exact ⟨s, t, operator, hrow, hlength, hsecond, hline, text, htext, ht⟩

end Script

end Treewalk
