import Treewalk.Proofs.Evaluation.Truncation
import Treewalk.Proofs.Script.Run
import Treewalk.Proofs.Script.Sequence

/-!
# Texts whose output does not fit

A text is run twice from the same state, once without a limit for what it prints and once with room for
`n` bytes. If the first run comes to an end, so does the second. Either all that is printed fits, and
there is no difference but the room that is left; or the second run ends at the print statement whose
text has the first byte too many (`run_truncated`).
-/

namespace Treewalk.Script

open Evaluation

/-- **A limit for the output truncates the run of a text and changes nothing else.** Let `o` be what the
text prints without limit. With room for `n` bytes the run comes to an end as well: if `o` has at most `n`
bytes, with the same result in the same state; otherwise with the first `n` bytes of `o` and the fault of
the print statement that writes the next one, and what is done after that statement is not done. -/
theorem run_truncated {steps : Nat} {source : String} {s t : State} {log log' : Log}
    {result : Except Failure Unit} (n : Nat)
    (h : run steps source (s.withRoom none) log = some (result, t, log')) :
    ∃ o steps', t.sink = ⟨s.sink.written ++ o, none⟩ ∧
      (o.size ≤ n → run steps' source (s.withRoom (some n)) log =
        some (result, t.withRoom (some (n - o.size)), log')) ∧
      (n < o.size → ∃ program keyword t' before after, read source log = (.ok program, log') ∧
        run steps' source (s.withRoom (some n)) log =
          some (.error (.fault (.output keyword)), t', log') ∧
        CutOff program s n o keyword t' before after) := by
  rcases run_cases h with ⟨hread, rfl, rfl⟩ | ⟨program, flow, hread, hvalue, rfl⟩
  · refine ⟨ByteArray.empty, 0, ?_, fun _ => run_of_error hread _ _, fun hlt => ?_⟩
    · exact congrArg (Sink.mk · none) ByteArray.append_empty.symm
    · exact absurd hlt (Nat.not_lt_zero n)
  · obtain ⟨o, ho, ⟨hle, hvalue'⟩ | ⟨hlt, keyword, t', before, after, hcut⟩⟩ :=
      exists_truncated program s n hvalue
    · obtain ⟨steps', hrun⟩ := exists_run_of_value hread hvalue'
      exact ⟨o, steps', ho, fun _ => hrun, fun hlt => absurd hle (Nat.not_le_of_lt hlt)⟩
    · obtain ⟨steps', hrun⟩ := exists_run_of_value hread hcut.course.eval
      refine ⟨o, steps', ho, fun hle => absurd hle (Nat.not_le_of_lt hlt), fun _ => ?_⟩
      exact ⟨program, keyword, t', before, after, hread, hrun, hcut⟩

/-- Four bytes are printed where there is room for two. -/
theorem run_truncated_nil : ∃ steps keyword t,
    run steps "print nil;" (.initial (.empty (some 2))) #[] =
      some (.error (.fault (.output keyword)), t, #[]) ∧ t.sink = ⟨"ni".toUTF8, some 0⟩ := by
  obtain ⟨token, -, hread⟩ := read_print_nil
  have hwhole : ∃ t, run 20 "print nil;" (.initial (.empty none)) #[] = some (.ok (), t, #[]) ∧
      t.sink = ⟨"nil\n".toUTF8, none⟩ := by
    rw [run_eq, read_of_ok hread]
    exact ⟨_, rfl, rfl⟩
  obtain ⟨t, hrun, hsink⟩ := hwhole
  obtain ⟨o, steps, ho, -, hcut⟩ := run_truncated (s := .initial (.empty none)) 2 hrun
  have hwritten : "nil\n".toUTF8 = o := by
    rw [hsink] at ho
    exact (congrArg Sink.written ho).trans ByteArray.empty_append
  subst hwritten
  obtain ⟨program, keyword, t', before, after, -, hrun', hcutOff⟩ := hcut (by decide)
  exact ⟨steps, keyword, t', hrun', hcutOff.sink_eq⟩

end Treewalk.Script
