import Treewalk.Proofs.Script.Sequence
import Treewalk.Proofs.Token.Layout

/-!
# Errors in a text shut the gate

Texts are run one after the other on one interpreter, and what is wrong with them goes to one log that is
never cleared (`Series`). A run appends to the log what is wrong with its own text and takes nothing away
(`log_of_run`). So the log is empty exactly as long as no text was faulty (`Series.log_eq_empty_iff`), and
this is what decides about the next run: after a faulty text nothing is executed any more, be it in the
text itself or in a later one (`run_of_faulty`); before, the whole program is (`run_of_clean`).

That the log can be trusted is a matter of the parser: it never drops a declaration in silence
(`Grammar.notes_of_dropped`).
-/

namespace Treewalk.Script

open Token
open Grammar (Sentence Notes)
open Evaluation (State interpret)

/-- Something is wrong with a token of the text, or with its grammar. -/
def Faulty (source : String) : Prop :=
  (tokenize source).diagnostics ≠ #[] ∨
    (Grammar.parse (tokenize source).tokens.toList).diagnostics ≠ #[]

/-- The texts were run in this order on an interpreter that was in the state `s`, with a log that was
empty: the state and the log after the last of them. -/
inductive Series (s : State) : List String → State → Log → Prop where
  | start : Series s [] s #[]
  | run {sources : List String} {t u : State} {log log' : Log} {steps : Nat} {source : String}
      {result : Except Failure Unit} (h : Series s sources t log)
      (hrun : Script.run steps source t log = some (result, u, log')) :
      Series s (sources ++ [source]) u log'

variable {source : String} {sources : List String} {s t u : State} {log log' : Log}

/-- A text is faulty exactly if reading it leaves a diagnostic. -/
theorem faulty_iff : Faulty source ↔ (parse source).diagnostics ≠ #[] := by
  simp only [Faulty, parse, ne_eq, Array.append_eq_empty_iff]
  tauto

/-! ## One run -/

/-- A run appends to the log what is wrong with its text. -/
theorem log_of_run {steps : Nat} {result : Except Failure Unit}
    (h : run steps source t log = some (result, u, log')) :
    log' = log ++ (parse source).diagnostics := by
  have hlog := snd_read source log
  rcases run_cases h with ⟨hread, -⟩ | ⟨program, flow, hread, -⟩
  · rw [hread] at hlog
    exact hlog
  · rw [hread] at hlog
    exact hlog

/-- **With an entry in the log, nothing is executed.** -/
theorem run_of_faulty (h : log ++ (parse source).diagnostics ≠ #[]) (t : State) (steps : Nat) :
    run steps source t log = some (.error .badProgram, t, log ++ (parse source).diagnostics) := by
  apply run_of_error
  rw [read_eq, if_neg (by simpa using h)]

/-- With an empty log, a faulty text fails as a bad program, leaves the state and the output alone, and
logs what is wrong with it. -/
theorem run_fresh_of_faulty (h : Faulty source) (t : State) (steps : Nat) :
    run steps source t #[] = some (.error .badProgram, t, (parse source).diagnostics) := by
  have hlog : #[] ++ (parse source).diagnostics ≠ #[] := by
    simpa using faulty_iff.1 h
  simpa using run_of_faulty hlog t steps

/-- **With no entry in the log, the whole program is executed.** -/
theorem run_of_clean (h : log ++ (parse source).diagnostics = #[]) (t : State) :
    ∃ program, Sentence (tokensOf source) program ∧
      ∀ steps, run steps source t log =
        (interpret steps program t).map fun (result, u) => (result.mapError .fault, u, #[]) := by
  obtain ⟨rfl, hclean⟩ := Array.append_eq_empty_iff.1 h
  have hread : read source #[] = (.ok (parse source).program, #[]) := by
    rw [read_eq, hclean]
    simp
  refine ⟨(parse source).program, (read_eq_ok_iff.1 hread).2, fun steps => ?_⟩
  rw [run_eq, hread]

/-- If nothing is logged, neither before nor by this text, the run does not fail as a bad program. -/
theorem ne_badProgram_of_clean (h : log ++ (parse source).diagnostics = #[]) {steps : Nat}
    {result : Except Failure Unit} (hrun : run steps source t log = some (result, u, log')) :
    result ≠ .error .badProgram := by
  obtain ⟨program, -, hprogram⟩ := run_of_clean h t
  rw [hprogram, Option.map_eq_some_iff] at hrun
  obtain ⟨⟨_ | _, _⟩, -, hout⟩ := hrun <;> simp [Except.mapError, ← (Prod.mk.inj hout).1]

/-! ## One run after the other -/

/-- If the log is empty exactly while no text was faulty, then this is so with one more text run. -/
theorem append_eq_empty_iff (h : log = #[] ↔ ∀ source ∈ sources, ¬Faulty source) (source : String) :
    log ++ (parse source).diagnostics = #[] ↔ ∀ source' ∈ sources ++ [source], ¬Faulty source' := by
  rw [Array.append_eq_empty_iff, h, List.forall_mem_append, List.forall_mem_singleton, faulty_iff, not_not]

/-- The log is empty exactly if nothing was wrong with any text. -/
theorem Series.log_eq_empty_iff (h : Series s sources t log) :
    log = #[] ↔ ∀ source ∈ sources, ¬Faulty source := by
  induction h with
  | start => simp
  | run _ hrun ih =>
    rw [log_of_run hrun]
    exact append_eq_empty_iff ih _

/-- The pieces of a text, which show the order in which its tokens are complained about. -/
theorem exists_pieces (source : String) : ∃ pieces, LaysOut [] source.toList
    ((tokenize source).tokens.toList, (tokenize source).diagnostics.toList) pieces := by
  rw [tokenize_eq source]
  exact (Reader.ofString source).exists_laysOut rfl

/-- **Errors in a text shut the gate.** Let texts be run one after the other on one interpreter, in whatever
state, with one log. The next text is refused exactly if something was wrong with it or with a text before.
Then the state is as it was, and the run comes to its end at once; otherwise all that the tokens of the text
stand for is interpreted. In either case the log has grown by what is wrong with the tokens of the text, in
their order, and then by what is wrong with its grammar. The parser says that it has complained exactly if
it has added to the log, and it has done so whenever it drops a declaration. -/
theorem errors_shut_gate :
    (∀ s sources t log, Series s sources t log → ∀ source,
      (∀ steps result u log', run steps source t log = some (result, u, log') →
        (result = .error .badProgram ↔ ∃ source' ∈ sources ++ [source], Faulty source') ∧
        log' = log ++ (tokenize source).diagnostics ++
          (Grammar.parse (tokenize source).tokens.toList).diagnostics) ∧
      ((∃ source' ∈ sources ++ [source], Faulty source') →
        ∃ log', ∀ steps, run steps source t log = some (.error .badProgram, t, log')) ∧
      ((∀ source' ∈ sources ++ [source], ¬Faulty source') →
        ∃ program, Sentence (tokensOf source) program ∧ ∀ steps, run steps source t log =
          (interpret steps program t).map fun (result, u) => (result.mapError .fault, u, #[]))) ∧
    (∀ source, ∃ pieces, LaysOut [] source.toList
      ((tokenize source).tokens.toList, (tokenize source).diagnostics.toList) pieces) ∧
    (∀ tokens, (Grammar.parse tokens).hadError = true ↔ (Grammar.parse tokens).diagnostics ≠ #[]) ∧
    ∀ p d p', Routine.value Grammar.rules Grammar.declaration p = some (.ok d, p') →
      ∃ ds, Notes p ds p' ∧ (d = none → ds ≠ []) := by
  refine ⟨?_, exists_pieces, ?_, ?_⟩
  · intro s sources t log hseries source
    have hclean := append_eq_empty_iff hseries.log_eq_empty_iff source
    have hfaulty : log ++ (parse source).diagnostics ≠ #[] ↔
        ∃ source' ∈ sources ++ [source], Faulty source' := by
      simp only [ne_eq, hclean, not_forall, not_not, exists_prop]
    refine ⟨fun steps result u log' hrun => ⟨?_, ?_⟩, fun h => ?_, fun h => ?_⟩
    · rw [← hfaulty]
      constructor
      · intro hrefused hempty
        exact ne_badProgram_of_clean hempty hrun hrefused
      · intro hne
        rw [run_of_faulty hne] at hrun
        simp only [Option.some.injEq, Prod.mk.injEq] at hrun
        exact hrun.1.symm
    · rw [log_of_run hrun, parse, Array.append_assoc]
    · exact ⟨_, run_of_faulty (hfaulty.2 h) t⟩
    · exact run_of_clean (hclean.2 h) t
  · intro tokens
    simp [Grammar.hadError_parse]
  · intro p d p' hvalue
    by_cases hdropped : d = none
    · rw [hdropped] at hvalue
      obtain ⟨ds, hds, hne⟩ := Grammar.notes_of_dropped hvalue
      exact ⟨ds, hds, fun _ => hne⟩
    · obtain ⟨ds, hds, -⟩ := Grammar.Assembled.declaration.noting hvalue
      exact ⟨ds, hds, fun hnone => absurd hnone hdropped⟩

/-- A single `?` is faulty: no token begins with it. -/
theorem faulty_question : Faulty "?" := by
  have hscan : (Reader.ofString "?").scan = _ := Reader.scan_stretch rfl rfl
  left
  rw [tokenize_eq, Reader.scanAll_error hscan]
  simp

/-- A text with an error, and then one without. -/
theorem errors_shut_gate_question : ∃ log log',
    Series (.initial (.empty none)) ["?"] (.initial (.empty none)) log ∧ ¬Faulty "print nil;" ∧
      ∀ steps, run steps "print nil;" (.initial (.empty none)) log =
        some (.error .badProgram, .initial (.empty none), log') := by
  have hseries : Series (.initial (.empty none)) ["?"] (.initial (.empty none)) _ :=
    .run .start (run_fresh_of_faulty faulty_question (.initial (.empty none)) 0)
  have hclean : ¬Faulty "print nil;" := by
    obtain ⟨t, -, hread⟩ := read_print_nil
    rw [faulty_iff, parse_of_read hread]
    simp
  obtain ⟨log', hrefused⟩ := (errors_shut_gate.1 _ _ _ _ hseries "print nil;").2.1
    ⟨"?", by simp, faulty_question⟩
  exact ⟨_, log', hseries, hclean, hrefused⟩

end Treewalk.Script
