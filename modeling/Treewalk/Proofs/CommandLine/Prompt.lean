import Treewalk.CommandLine
import Treewalk.Proofs.Evaluation.Control
import Treewalk.Proofs.Evaluation.Output
import Treewalk.Proofs.Evaluation.Truncation
import Treewalk.Proofs.Script.Gate
import Treewalk.Proofs.Script.Unreachable

/-!
# The prompt is a session of independent runs

What is read at the prompt is split into lines (`Lines`), and each line is run on the interpreter as the
lines before have left it, with a log of its own (`Session`). This is what a process does: it prints a prompt
and what the line prints, and reports what is wrong with the line or how it failed.

The process has one console, which is reset before each line, in place of the logs; and the prompts go where
the output of the interpreter goes. Neither makes a difference: a console that was reset decides as an empty
log does (`runWith_reset`), and what is printed before makes no difference to a run (`ends_behind`).
-/

namespace Treewalk.CommandLine

open Evaluation (State execAll interpret globals Executes)
open Script (Ends Log)

/-! ## Lines -/

/-- A line without a carriage return at its end. -/
def withoutReturn (line : List UInt8) : List UInt8 :=
  if line.getLast? = some 0x0D then line.dropLast else line

/-- The lines of some bytes: each but the last ends before a line feed, and a carriage return before that
is dropped; the last needs no line feed, if there is anything in it. -/
inductive Lines : List UInt8 → List (List UInt8) → Prop where
  | nil : Lines [] []
  | last {line : List UInt8} (hne : line ≠ []) (h : 0x0A ∉ line) : Lines line [line]
  | line {line rest : List UInt8} {lines : List (List UInt8)} (h : 0x0A ∉ line)
      (hrest : Lines rest lines) : Lines (line ++ 0x0A :: rest) (withoutReturn line :: lines)

/-- As long as there is no line feed, the bytes go to the line that is being read. -/
theorem splitLines_append {line : List UInt8} (h : 0x0A ∉ line) (current : List UInt8)
    (lines : List (List UInt8)) (rest : List UInt8) :
    splitLines current lines (line ++ rest) = splitLines (line.reverse ++ current) lines rest := by
  induction line generalizing current with
  | nil => rfl
  | cons b line ih =>
    obtain ⟨hb, hline⟩ : b ≠ 0x0A ∧ 0x0A ∉ line := by
      simpa [eq_comm] using h
    rw [List.cons_append, splitLines, if_neg hb, ih hline]
    simp

/-- The lines that are complete already stand in front and do not matter to those that come. -/
theorem splitLines_eq_append (current : List UInt8) (lines : List (List UInt8)) (bytes : List UInt8) :
    splitLines current lines bytes = lines.reverse ++ splitLines current [] bytes := by
  induction bytes generalizing current lines with
  | nil =>
    unfold splitLines
    split <;> simp
  | cons b bytes ih =>
    unfold splitLines
    split
    · rw [ih, ih _ [_]]
      simp
    · exact ih _ _

/-- A line that ends with a line feed loses it, and a carriage return before it. -/
theorem trimLine_lineFeed (line : List UInt8) : trimLine (line ++ [0x0A]) = withoutReturn line := by
  unfold withoutReturn
  rcases List.eq_nil_or_concat line with rfl | ⟨before, b, rfl⟩
  · rfl
  · by_cases hb : b = 0x0D
    · simp [trimLine, hb]
    · simp [trimLine, hb]

/-- The last line may end without a line feed; then nothing is taken from it. -/
theorem trimLine_of_not_mem {line : List UInt8} (h : 0x0A ∉ line) : trimLine line = line := by
  rcases List.eq_nil_or_concat line with rfl | ⟨before, b, rfl⟩
  · rfl
  · have hb : b ≠ 0x0A := by
      rintro rfl
      simp at h
    simp [trimLine, hb]

/-- **Bytes are split as they should be.** -/
theorem Lines.splitLines_eq {bytes : List UInt8} {lines : List (List UInt8)} (h : Lines bytes lines) :
    (splitLines [] [] bytes).map trimLine = lines := by
  induction h with
  | nil => rfl
  | @last line hne h =>
    have hsplit := splitLines_append h [] [] []
    rw [List.append_nil] at hsplit
    simp [hsplit, splitLines, hne, trimLine_of_not_mem h]
  | @line line rest lines h _ ih =>
    rw [splitLines_append h, splitLines, if_pos rfl, splitLines_eq_append, List.map_append, ih]
    simp [trimLine_lineFeed]

/-- Any bytes can be split into lines. The induction goes line by line, by the length of what is left. -/
theorem exists_lines (bytes : List UInt8) : ∃ lines, Lines bytes lines := by
  induction hlength : bytes.length using Nat.strong_induction_on generalizing bytes with
  | _ n ih =>
    by_cases h : 0x0A ∈ bytes
    · -- the first line feed ends the first line
      obtain ⟨line, rest, rfl, hline⟩ := List.eq_append_cons_of_mem h
      have hshorter : rest.length < n := by
        simp only [List.length_append, List.length_cons] at hlength
        omega
      obtain ⟨lines, hlines⟩ := ih _ hshorter rest rfl
      exact ⟨_, .line hline hlines⟩
    · by_cases hnil : bytes = []
      · exact ⟨[], hnil ▸ .nil⟩
      · exact ⟨[bytes], .last hnil h⟩

/-- **The lines are those that the input is split into.** Hence they are unique. -/
theorem Lines.linesOf_eq {input : ByteArray} {lines : List (List UInt8)} (h : Lines input.toList lines) :
    linesOf input = lines.map fun line => ⟨line.toArray⟩ := by
  rw [← h.splitLines_eq, List.map_map]
  rfl

/-- The text of a line, if it is one. -/
def textOf (line : List UInt8) : Option String :=
  String.fromUTF8? ⟨line.toArray⟩

/-! ## A console that was reset -/

/-- Diagnostics as they are written down, one below the other. -/
def words (ds : List Diagnostic) : String :=
  String.join (ds.map fun d => d.text ++ "\n")

/-- A console prints the diagnostics one below the other. -/
theorem foldl_report (ds : List Diagnostic) (console : Console) :
    ds.foldl Reporter.report console =
      ⟨console.written ++ words ds, console.hadError || !ds.isEmpty⟩ := by
  induction ds generalizing console with
  | nil => simp [words]
  | cons d ds ih =>
    rw [List.foldl_cons, ih]
    simp [words, Reporter.report, Console.write, String.append_assoc]

/-- The console that says what a log says, below what was written before. -/
def consoleOf (written : String) (log : Log) : Console :=
  ⟨written ++ words log.toList, !log.isEmpty⟩

/-- A console that was reset reads a text as an empty log does, and prints what the log holds. -/
theorem readWith_reset (source : String) (console : Console) :
    Script.readWith source console.reset =
      ((Script.read source #[]).1, consoleOf console.written (Script.read source #[]).2) := by
  generalize hparsed : Script.parse source = parsed
  have hconsole : parsed.diagnostics.foldl Reporter.report console.reset =
      consoleOf console.written parsed.diagnostics := by
    rw [← Array.foldl_toList, foldl_report]
    simp [Console.reset, consoleOf]
  have hlog : parsed.diagnostics.foldl Reporter.report (#[] : Log) = parsed.diagnostics := by
    show #[] ++ parsed.diagnostics = _
    simp
  unfold Script.read Script.readWith
  simp only [hparsed, hconsole, hlog]
  rfl

/-- **A console that was reset decides as an empty log does**, and has then written what the log holds. -/
theorem runWith_reset (steps : Nat) (source : String) (s : State) (console : Console) :
    Script.runWith steps source s console.reset =
      (Script.run steps source s #[]).map fun (result, t, log) =>
        (result, t, consoleOf console.written log) := by
  rw [Script.run_eq, Script.runWith, readWith_reset]
  rcases Script.read source #[] with ⟨failure | program, log⟩
  · rfl
  · simp only [Option.map_map]
    rfl

/-! ## Steps -/

variable {source text : String} {s t : State} {result : Except Failure Unit} {log : Log}
  {lines : List ByteArray} {console : Console} {transcript : Transcript} {n m : Nat}

/-- More steps keep the outcome of a text. -/
theorem run_mono (hnm : n ≤ m) {out : Except Failure Unit × State × Log}
    (h : Script.run n source s log = some out) : Script.run m source s log = some out := by
  rw [Script.run_eq] at h ⊢
  generalize Script.read source log = r at h ⊢
  obtain ⟨failure | program, log'⟩ := r
  · exact h
  · simp only [interpret, Option.map_eq_some_iff] at h ⊢
    obtain ⟨out₁, ⟨out₂, hrun, hout₂⟩, hout₁⟩ := h
    exact ⟨out₁, ⟨out₂, Routine.run_mono _ hnm hrun, hout₂⟩, hout₁⟩

/-- A line that is no text ends the session. -/
theorem runLines_of_none {line : ByteArray} (h : String.fromUTF8? line = none) (steps : Nat) :
    runLines steps (line :: lines) s console =
      some ⟨(say prompt s).sink.written, (console.write notText).written, ioExitCode⟩ := by
  rw [runLines]
  simp only [h]

/-- A line is run, and then those after it. -/
theorem runLines_of_some {line : ByteArray} (h : String.fromUTF8? line = some text) (steps : Nat) :
    runLines steps (line :: lines) s console =
      (Script.run steps text (say prompt s) #[]).bind fun (result, t, log) =>
        runLines steps lines t ((consoleOf console.written log).write (renderFailure result)) := by
  rw [runLines]
  simp only [h, runLine, runWith_reset]
  rcases Script.run steps text (say prompt s) #[] with _ | ⟨result, t, log⟩ <;> rfl

/-- More steps keep the transcript of a session. -/
theorem runLines_mono (hnm : n ≤ m) (h : runLines n lines s console = some transcript) :
    runLines m lines s console = some transcript := by
  induction lines generalizing s console with
  | nil => exact h
  | cons line lines ih =>
    rcases htext : String.fromUTF8? line with _ | text
    · rw [runLines_of_none htext] at h ⊢
      exact h
    · simp only [runLines_of_some htext, Option.bind_eq_some_iff] at h ⊢
      obtain ⟨out, hrun, hrest⟩ := h
      exact ⟨out, run_mono hnm hrun, ih hrest⟩

/-- Each line may take as many steps as it needs. -/
theorem runLines_cons_iff {line : ByteArray} (h : String.fromUTF8? line = some text) :
    (∃ steps, runLines steps (line :: lines) s console = some transcript) ↔
      ∃ result t log, Ends text (say prompt s) (result, t, log) ∧
        ∃ steps, runLines steps lines t
          ((consoleOf console.written log).write (renderFailure result)) = some transcript := by
  simp only [runLines_of_some h, Option.bind_eq_some_iff]
  constructor
  · rintro ⟨steps, ⟨result, t, log⟩, hrun, hrest⟩
    exact ⟨result, t, log, ⟨steps, hrun⟩, steps, hrest⟩
  · rintro ⟨result, t, log, ⟨n, hrun⟩, m, hrest⟩
    exact ⟨max n m, _, run_mono (Nat.le_max_left n m) hrun, runLines_mono (Nat.le_max_right n m) hrest⟩

/-! ## How a line ends -/

/-- A text ends either because something is wrong with it, and then nothing has happened to the
interpreter, or as its program ends. -/
theorem ends_cases_iff : Ends source s (result, t, log) ↔
    (Script.read source #[] = (.error .badProgram, log) ∧ result = .error .badProgram ∧ t = s) ∨
      ∃ program flow, Script.read source #[] = (.ok program, log) ∧
        Routine.value Evaluation.rules (execAll program) s = some (flow, t) ∧
        result = Script.resultOf flow := by
  constructor
  · rintro ⟨steps, hrun⟩
    exact Script.run_cases hrun
  · rintro (⟨hread, rfl, rfl⟩ | ⟨program, flow, hread, hvalue, rfl⟩)
    · exact ⟨0, Script.run_of_error hread t 0⟩
    · exact Script.exists_run_of_value hread hvalue

/-- **What was printed before makes no difference to a line.** -/
theorem ends_behind (w : ByteArray) : Ends source (s.behind w) (result, t, log) ↔
    ∃ t', t = t'.behind w ∧ Ends source s (result, t', log) := by
  have hvalue : ∀ program, Routine.value Evaluation.rules (execAll program) (s.behind w) =
      (Routine.value Evaluation.rules (execAll program) s).map fun out => (out.1, out.2.behind w) := by
    intro program
    have hprogram : Evaluation.Assembled (fun _ => True) (execAll program) :=
      .execAll fun _ _ => trivial
    exact Evaluation.value_behind w hprogram s
  simp only [ends_cases_iff, hvalue, Option.map_eq_some_iff]
  constructor
  · rintro (⟨hread, hresult, rfl⟩ | ⟨program, flow, hread, ⟨⟨flow', t'⟩, hout, heq⟩, hresult⟩)
    · exact ⟨s, rfl, .inl ⟨hread, hresult, rfl⟩⟩
    · obtain ⟨rfl, rfl⟩ := Prod.mk.inj heq
      exact ⟨t', rfl, .inr ⟨program, flow', hread, hout, hresult⟩⟩
  · rintro ⟨t', rfl, ⟨hread, hresult, rfl⟩ | ⟨program, flow, hread, hout, hresult⟩⟩
    · exact .inl ⟨hread, hresult, rfl⟩
    · exact .inr ⟨program, flow, hread, ⟨(flow, t'), hout, rfl⟩, hresult⟩

/-- A run does not limit the output of an interpreter that has no limit. -/
theorem room_of_ends (h : Ends source s (result, t, log)) (hs : s.sink.room = none) :
    t.sink.room = none := by
  rcases ends_cases_iff.1 h with ⟨-, -, rfl⟩ | ⟨program, flow, -, hvalue, -⟩
  · exact hs
  · have hstart : s.Extends s.sink.written := by
      refine ⟨ByteArray.empty, ?_⟩
      rw [ByteArray.append_empty, ← hs]
    obtain ⟨more, hmore⟩ := (Evaluation.appending_keeps _).post_of_value
      ((Evaluation.Eval.truncates_execAll (N := 0) program).appends _ s hstart) hvalue
    rw [hmore]

/-- What is reported of a line: what is wrong with it, or the fault with which it ended. -/
def reportOf (log : Log) : Except Failure Unit → String
  | .error (.fault f) => f.report
  | _ => words log.toList

/-- Nothing is wrong with a line that ends with a fault. -/
theorem report_of_ends (h : Ends source s (result, t, log)) :
    words log.toList ++ renderFailure result = reportOf log result := by
  rcases ends_cases_iff.1 h with ⟨-, rfl, -⟩ | ⟨program, flow, hread, -, rfl⟩
  · simp [renderFailure, reportOf]
  · obtain ⟨-, rfl⟩ := Script.log_of_read hread
    rcases flow with f | flow
    · simp [renderFailure, reportOf, Script.resultOf, Except.map, Except.mapError, words]
    · simp [renderFailure, reportOf, Script.resultOf, Except.map, Except.mapError, words]

/-! ## Sessions -/

/-- What is seen of a line: what it prints, and what is reported of it. -/
structure Answer where
  printed : ByteArray
  reported : String

/-- Texts are run one after the other on one interpreter, each with an empty log; what a text has printed is
taken away before the next. -/
inductive Session : State → List String → List Answer → State → Prop where
  | nil (s : State) : Session s [] [] s
  | cons {s t u : State} {text : String} {texts : List String} {answers : List Answer}
      {result : Except Failure Unit} {log : Log} (h : Ends text s (result, t, log))
      (hrest : Session t.takeOutput.2 texts answers u) :
      Session s (text :: texts) (⟨t.takeOutput.1, reportOf log result⟩ :: answers) u

/-- What is printed in a session: what each line prints, with a prompt before it. -/
def printed : List Answer → ByteArray
  | [] => ByteArray.empty
  | a :: answers => prompt.toUTF8 ++ a.printed ++ printed answers

/-- What is reported in a session. -/
def reported : List Answer → String
  | [] => ""
  | a :: answers => a.reported ++ reported answers

/-- What the prompt prints goes behind all that was printed before. -/
theorem say_behind (hs : s.sink = .empty none) (w : ByteArray) (text : String) :
    say text (s.behind w) = s.behind (w ++ text.toUTF8) := by
  obtain ⟨store, current, depth, sink⟩ := s
  obtain rfl : sink = .empty none := hs
  simp [say, State.behind, Sink.behind, Sink.empty, Sink.write]

/-- To take the output of a run is to put it behind what was printed before. -/
theorem behind_takeOutput (w : ByteArray) (t : State) :
    t.behind w = t.takeOutput.2.behind (w ++ t.takeOutput.1) := by
  simp [State.behind, State.takeOutput, Sink.behind, Sink.empty]

/-- With these lines left, nothing more is run: the ending is added to the output, the remark to what is
written on the console, and the process ends with the exit code. -/
def Closes (lines : List ByteArray) (ending : ByteArray) (remark : String) (code : Nat) : Prop :=
  ∀ (steps : Nat) (s : State) (w : ByteArray) (console : Console), s.sink = .empty none →
    runLines steps lines (s.behind w) console = some ⟨w ++ ending, console.written ++ remark, code⟩

/-- **At the end of the input** a last prompt is printed with a line feed, and the exit code is 0. -/
theorem closes_nil : Closes [] (prompt ++ "\n").toUTF8 "" 0 := by
  intro steps s w console hs
  rw [runLines, say_behind hs]
  simp [State.behind, Sink.behind, hs, Sink.empty]

/-- **A line that is not UTF-8 ends the session**, whatever comes after it, with the exit code of an
input error. -/
theorem closes_of_none {line : ByteArray} (h : String.fromUTF8? line = none) (lines : List ByteArray) :
    Closes (line :: lines) prompt.toUTF8 notText ioExitCode := by
  intro steps s w console hs
  rw [runLines_of_none h, say_behind hs]
  simp [State.behind, Sink.behind, hs, Sink.empty, Console.write]

/-- Between two lines the interpreter has an empty sink without limit again. -/
theorem sink_takeOutput (h : Ends source s (result, t, log)) (hs : s.sink = .empty none) :
    t.takeOutput.2.sink = .empty none := by
  have hroom : s.sink.room = none := by rw [hs]; rfl
  show Sink.empty t.sink.room = .empty none
  rw [room_of_ends h hroom]

/-- What has been written after a line, and what is reported of the lines after it. -/
theorem written_of_ends (h : Ends source s (result, t, log)) (written : String) :
    ((consoleOf written log).write (renderFailure result)).written = written ++ reportOf log result := by
  rw [← report_of_ends h]
  simp [consoleOf, Console.write, String.append_assoc]

/-- **A process at the prompt is a session.** -/
theorem runLines_iff {ending : ByteArray} {remark : String} {code : Nat} {before : List ByteArray}
    {texts : List String} (hclose : Closes lines ending remark code)
    (htexts : before.map String.fromUTF8? = texts.map some) (hs : s.sink = .empty none) (w : ByteArray) :
    (∃ steps, runLines steps (before ++ lines) (s.behind w) console = some transcript) ↔
      ∃ answers t, Session s texts answers t ∧
        transcript = ⟨w ++ printed answers ++ ending, console.written ++ reported answers ++ remark, code⟩ := by
  induction texts generalizing before s w console with
  | nil =>
    obtain rfl : before = [] := by simpa using htexts
    simp only [List.nil_append, hclose _ s w console hs]
    constructor
    · rintro ⟨-, h⟩
      exact ⟨[], s, .nil s, by simpa [printed, reported] using h.symm⟩
    · rintro ⟨_, _, ⟨⟩, rfl⟩
      exact ⟨0, by simp [printed, reported]⟩
  | cons text texts ih =>
    obtain ⟨line, before, rfl⟩ : ∃ line rest, before = line :: rest := by
      apply List.exists_cons_of_ne_nil
      rintro rfl
      simp at htexts
    simp only [List.map_cons, List.cons.injEq] at htexts
    obtain ⟨htext, htexts⟩ := htexts
    simp only [List.cons_append, runLines_cons_iff htext, say_behind hs, ends_behind]
    constructor
    · rintro ⟨result, _, log, ⟨t, rfl, hends⟩, hrest⟩
      -- what the line has printed counts as printed before, and the lines after it begin with an empty sink
      rw [behind_takeOutput, ih htexts (sink_takeOutput hends hs), written_of_ends hends] at hrest
      obtain ⟨answers, u, hsession, rfl⟩ := hrest
      refine ⟨_ :: answers, u, .cons hends hsession, ?_⟩
      simp [printed, reported, ByteArray.append_assoc, String.append_assoc]
    · rintro ⟨_, u, hsession, rfl⟩
      cases hsession with
      | @cons _ t _ _ _ answers result log hends hrest =>
        refine ⟨result, _, log, ⟨t, rfl, hends⟩, ?_⟩
        rw [behind_takeOutput, ih htexts (sink_takeOutput hends hs), written_of_ends hends]
        refine ⟨answers, u, hrest, ?_⟩
        simp [printed, reported, ByteArray.append_assoc, String.append_assoc]

/-! ## What a line leaves behind -/

/-- A line with errors is not run. -/
theorem state_of_refused (h : Ends source s (.error .badProgram, t, log)) : t = s := by
  rcases ends_cases_iff.1 h with ⟨-, -, rfl⟩ | ⟨program, flow, -, -, hresult⟩
  · rfl
  · rcases flow with f | flow <;> simp [Script.resultOf, Except.map, Except.mapError] at hresult

/-- A line that fails has executed the statements before the one that fails, and of this as much as it
did. -/
theorem executes_of_failed {f : Fault} (h : Ends source s (.error (.fault f), t, log)) :
    ∃ program, Script.read source #[] = (.ok program, #[]) ∧ Executes program s (.error f, t) := by
  rcases ends_cases_iff.1 h with ⟨-, hresult, -⟩ | ⟨program, flow, hread, -, -⟩
  · simp at hresult
  · obtain ⟨-, rfl⟩ := Script.log_of_read hread
    obtain ⟨_, hout, hfault, -⟩ := (Script.ends_error_iff hread).1 h
    cases hfault
    refine ⟨program, hread, ?_⟩
    rwa [Evaluation.outcome_eq_some_iff_executes (Script.returnless_of_read hread)] at hout

/-- A line leaves the interpreter in the frame and at the depth of calls that it found it in. -/
theorem sameControl_of_ends (h : Ends source s (result, t, log)) (hs : s.depth ≤ Evaluation.maxCallDepth) :
    s.SameControl t := by
  rcases ends_cases_iff.1 h with ⟨-, -, rfl⟩ | ⟨program, flow, -, hvalue, -⟩
  · exact ⟨rfl, rfl⟩
  · exact (Evaluation.control_keeps s.depth).post_of_value
      (Evaluation.steady_execAll program s (Nat.le_refl _) hs) hvalue

/-- So does a whole session, because each of its lines does. -/
theorem Session.sameControl {texts : List String} {answers : List Answer} (h : Session s texts answers t)
    (hs : s.depth ≤ Evaluation.maxCallDepth) : s.SameControl t := by
  induction h with
  | nil s => exact ⟨rfl, rfl⟩
  | cons hends _ ih =>
    have hfirst := sameControl_of_ends hends hs
    exact hfirst.trans (ih (hfirst.2 ▸ hs))

/-- **The prompt is a session of independent runs.** Whatever is read is split into lines in one way. If all
lines are texts, what is printed is for each line a prompt and what the line prints, and then a prompt and a
line feed; what is reported is for each line what is wrong with it or how it failed; and the exit code is
zero. If a line is no text, the lines before the first such line have these effects, and then the session
ends with a prompt and another exit code. A process comes to its end exactly if the session does.

A line with errors leaves the interpreter as it was. A line that fails leaves what the statements up to the
one that fails have done. And each line begins among the global variables with no call under way. -/
theorem prompt_is_session (input : ByteArray) :
    (∃! lines, Lines input.toList lines) ∧
    (∀ lines texts, Lines input.toList lines → lines.map textOf = texts.map some → ∀ transcript,
      (∃ steps, runPrompt steps input = some transcript) ↔
        ∃ answers t, Session (.initial (.empty none)) texts answers t ∧
          transcript = ⟨printed answers ++ (prompt ++ "\n").toUTF8, reported answers, 0⟩) ∧
    (∀ before line after texts, Lines input.toList (before ++ line :: after) →
      before.map textOf = texts.map some → textOf line = none → ∀ transcript,
      (∃ steps, runPrompt steps input = some transcript) ↔
        ∃ answers t, Session (.initial (.empty none)) texts answers t ∧
          transcript = ⟨printed answers ++ prompt.toUTF8, reported answers ++ notText, 74⟩) ∧
    (∀ text s t log, Ends text s (.error .badProgram, t, log) → t = s) ∧
    (∀ text s f t log, Ends text s (.error (.fault f), t, log) →
      ∃ program, Script.read text #[] = (.ok program, #[]) ∧ Executes program s (.error f, t)) ∧
    ∀ texts answers t, Session (.initial (.empty none)) texts answers t →
      t.current = globals ∧ t.depth = 0 := by
  have hstart : State.initial (.empty none) = (State.initial (.empty none)).behind ByteArray.empty := by
    simp [State.behind, Sink.behind, State.initial, Sink.empty]
  refine ⟨?_, ?_, ?_, ?_, ?_, ?_⟩
  · obtain ⟨lines, hlines⟩ := exists_lines input.toList
    refine ⟨lines, hlines, ?_⟩
    intro lines' hlines'
    rw [← hlines.splitLines_eq, ← hlines'.splitLines_eq]
  · intro lines texts hlines htexts transcript
    have hmap : (linesOf input).map String.fromUTF8? = texts.map some := by
      rw [hlines.linesOf_eq, List.map_map]
      exact htexts
    have hlast : linesOf input = linesOf input ++ [] := by simp
    unfold runPrompt
    rw [hstart, hlast, runLines_iff closes_nil hmap rfl]
    simp [Console.empty, ← hstart]
  · intro before line after texts hlines htexts hline transcript
    have hmap : (before.map fun line => (⟨line.toArray⟩ : ByteArray)).map String.fromUTF8? =
        texts.map some := by
      rw [List.map_map]
      exact htexts
    unfold runPrompt
    rw [hstart, hlines.linesOf_eq, List.map_append, List.map_cons,
      runLines_iff (closes_of_none hline _) hmap rfl]
    simp [Console.empty, ioExitCode, ← hstart]
  · intro text s t log h
    exact state_of_refused h
  · intro text s f t log h
    exact executes_of_failed h
  · intro texts answers t h
    exact h.sameControl (Nat.zero_le _)

/-- A line with an error, one that prints, and one that is no text. -/
theorem prompt_is_session_errors : ∃ steps,
    runPrompt steps ("?\nprint nil;\n".toUTF8.push 0xFF) =
      some ⟨"> > nil\n> ".toUTF8, words (Script.parse "?").diagnostics.toList ++ notText, 74⟩ := by
  have hlines : Lines ("?\nprint nil;\n".toUTF8.push 0xFF).toList
      ([[0x3F], [0x70, 0x72, 0x69, 0x6E, 0x74, 0x20, 0x6E, 0x69, 0x6C, 0x3B]] ++ [0xFF] :: []) := by
    have hbytes : ("?\nprint nil;\n".toUTF8.push 0xFF).toList = [0x3F] ++ 0x0A ::
        ([0x70, 0x72, 0x69, 0x6E, 0x74, 0x20, 0x6E, 0x69, 0x6C, 0x3B] ++ 0x0A :: [0xFF]) := by cbv
    rw [hbytes]
    exact .line (by decide) (.line (by decide) (.last (by decide) (by decide)))
  have hbad : Ends "?" (.initial (.empty none)) (.error .badProgram, .initial (.empty none), _) :=
    ⟨0, Script.run_fresh_of_faulty Script.faulty_question _ 0⟩
  have hgood : ∃ t, Ends "print nil;" (.initial (.empty none)) (.ok (), t, #[]) ∧
      t.takeOutput.1 = "nil\n".toUTF8 := by
    obtain ⟨token, -, hread⟩ := Script.read_print_nil
    have hrun : ∃ t, Script.run 20 "print nil;" (.initial (.empty none)) #[] = some (.ok (), t, #[]) ∧
        t.takeOutput.1 = "nil\n".toUTF8 := by
      rw [Script.run_eq, Script.read_of_ok hread]
      exact ⟨_, rfl, rfl⟩
    obtain ⟨t, hrun, hprinted⟩ := hrun
    exact ⟨t, ⟨20, hrun⟩, hprinted⟩
  obtain ⟨t, hgood, hprinted⟩ := hgood
  obtain ⟨steps, hsteps⟩ := ((prompt_is_session _).2.2.1 _ _ _ ["?", "print nil;"] hlines rfl rfl _).2
    ⟨_, _, .cons hbad (.cons hgood (.nil _)), rfl⟩
  have hstdout : prompt.toUTF8 ++ ByteArray.empty ++
      (prompt.toUTF8 ++ "nil\n".toUTF8 ++ ByteArray.empty) ++ prompt.toUTF8 =
        "> > nil\n> ".toUTF8 := by cbv
  refine ⟨steps, hsteps.trans ?_⟩
  rw [← hstdout, ← hprinted]
  simp [printed, reported, reportOf, words, State.takeOutput, State.initial, Sink.empty]

end Treewalk.CommandLine
