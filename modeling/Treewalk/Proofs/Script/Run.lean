import Treewalk.Proofs.Grammar.Complaints
import Treewalk.Script

/-!
# What comes of running a text

With a log, a text is refused exactly if the log has an entry afterwards, for the parser does not
complain without an entry (`read_eq`). A text is refused, and then nothing is run, or it is run as the
program that it is read as (`runWith_cases`, `run_of_error`, `exists_run_of_value`).
-/

namespace Treewalk.Script

open Evaluation (State execAll rules)

variable {source : String} {s t : State} {log log' : Log}

/-- How a program ended, as a text ends that is read as it. -/
def resultOf (flow : Except Fault Evaluation.Flow) : Except Failure Unit :=
  (flow.map fun _ => ()).mapError .fault

/-- The parser reports no error without an entry for it. -/
theorem diagnostics_of_hadError (h : (parse source).hadError = true) :
    (parse source).diagnostics ≠ #[] := by
  intro hempty
  have hgrammar := (Array.append_eq_empty_iff.1 hempty).2
  have hflag := Grammar.hadError_parse (Token.tokenize source).tokens.toList
  rw [hgrammar] at hflag
  exact absurd (h.symm.trans hflag) (by simp)

/-- **A text is refused if the log has an entry afterwards**, and is read as its program otherwise. -/
theorem read_eq (source : String) (log : Log) : read source log =
    (if (log ++ (parse source).diagnostics).isEmpty then .ok (parse source).program
      else .error .badProgram, log ++ (parse source).diagnostics) := by
  have hlog : (parse source).diagnostics.foldl Reporter.report log = log ++ (parse source).diagnostics :=
    rfl
  unfold read readWith
  simp only [hlog]
  refine Prod.ext ?_ rfl
  by_cases hempty : log ++ (parse source).diagnostics = #[]
  · have hflag : (parse source).hadError = false :=
      Bool.eq_false_iff.2 fun h => diagnostics_of_hadError h (Array.append_eq_empty_iff.1 hempty).2
    simp [hempty, hflag, Reporter.hadError]
  · have hempty' : (log ++ (parse source).diagnostics).isEmpty = false := by simpa using hempty
    simp [hempty', Reporter.hadError]

/-- Reading a text appends what is wrong with it to the log. -/
theorem snd_read (source : String) (log : Log) :
    (read source log).2 = log ++ (parse source).diagnostics := by
  rw [read_eq]

/-- With a log for reporter, running a text is reading it and, if it is a program, executing this. -/
theorem run_eq (steps : Nat) (source : String) (s : State) (log : Log) : run steps source s log =
    match read source log with
    | (.error failure, log) => some (.error failure, s, log)
    | (.ok program, log) => (Evaluation.interpret steps program s).map fun (result, s) =>
      (result.mapError .fault, s, log) := by
  unfold run runWith read
  rcases readWith source log with ⟨_ | _, _⟩ <;> rfl

/-- A text that is read as a program is read without complaints, with none before. -/
theorem log_of_read {program : List Stmt} (h : read source log = (.ok program, log')) :
    log = #[] ∧ log' = #[] := by
  rw [read_eq] at h
  simp only [Prod.mk.injEq] at h
  obtain ⟨hprogram, hlog⟩ := h
  split at hprogram
  · next hempty =>
    rw [hlog, Array.isEmpty_iff] at hempty
    rw [hempty] at hlog
    exact ⟨(Array.append_eq_empty_iff.1 hlog).1, hempty⟩
  · cases hprogram

/-- Reading fails in one way only, as a bad program. -/
theorem failure_of_readWith {ρ : Type} [Reporter ρ] {reporter reporter' : ρ} {failure : Failure}
    (h : readWith source reporter = (.error failure, reporter')) : failure = .badProgram := by
  have hfailure := congrArg Prod.fst h
  simp only [readWith] at hfailure
  split at hfailure
  · cases hfailure
    rfl
  · cases hfailure

/-- The same for a reporter that is a log. -/
theorem failure_of_read {failure : Failure} (h : read source log = (.error failure, log')) :
    failure = .badProgram :=
  failure_of_readWith h

/-- Either the text was refused, or its program was run, whatever diagnostics are reported to. -/
theorem runWith_cases {ρ : Type} [Reporter ρ] {reporter reporter' : ρ} {steps : Nat}
    {result : Except Failure Unit}
    (h : runWith steps source s reporter = some (result, t, reporter')) :
    (readWith source reporter = (.error .badProgram, reporter') ∧ result = .error .badProgram ∧
        t = s) ∨
      ∃ program flow, readWith source reporter = (.ok program, reporter') ∧
        Routine.value rules (execAll program) s = some (flow, t) ∧ result = resultOf flow := by
  unfold runWith at h
  split at h
  · next failure reporter'' hread =>
    cases h
    cases failure_of_readWith hread
    exact .inl ⟨hread, rfl, rfl⟩
  · next program reporter'' hread =>
    obtain ⟨⟨_, u⟩, hinterpret, hout⟩ := Option.map_eq_some_iff.1 h
    cases hout
    obtain ⟨⟨flow, _⟩, hrun, hout⟩ := Option.map_eq_some_iff.1 hinterpret
    cases hout
    exact .inr ⟨program, flow, hread, Routine.value_of_run rules hrun, rfl⟩

/-- A run has either refused the text and left the state alone, or it has read a program and ends as the
execution of this does. -/
theorem run_cases {steps : Nat} {result : Except Failure Unit}
    (h : run steps source s log = some (result, t, log')) :
    (read source log = (.error .badProgram, log') ∧ result = .error .badProgram ∧ t = s) ∨
      ∃ program flow, read source log = (.ok program, log') ∧
        Routine.value rules (execAll program) s = some (flow, t) ∧ result = resultOf flow :=
  runWith_cases h

/-- A text that is refused comes to an end in any state and with any bound on the steps, with nothing
executed. -/
theorem run_of_error (h : read source log = (.error .badProgram, log')) (s : State) (steps : Nat) :
    run steps source s log = some (.error .badProgram, s, log') := by
  rw [run_eq, h]

/-- A program that is read, and whose execution comes to an end, has a run that ends so. -/
theorem exists_run_of_value {program : List Stmt} (hread : read source log = (.ok program, log'))
    {flow : Except Fault Evaluation.Flow}
    (h : Routine.value rules (execAll program) s = some (flow, t)) :
    ∃ steps, run steps source s log = some (resultOf flow, t, log') := by
  obtain ⟨steps, hsteps⟩ := (Routine.value_eq_some_iff rules).1 h
  have hinterpret : Evaluation.interpret steps program s = some (flow.map fun _ => (), t) := by
    unfold Evaluation.interpret
    rw [hsteps]
    rfl
  refine ⟨steps, ?_⟩
  rw [run_eq, hread]
  show (Evaluation.interpret steps program s).map _ = _
  rw [hinterpret]
  rfl

end Treewalk.Script
