import Treewalk.Proofs.Sink
import Treewalk.Tree.Outline

/-!
# The outline as a text, and what a full sink keeps of it

The outline of a program is a text (`Stmt.outlines`), which the printer hands to the sink in pieces. A part
of the printer that hands over a text from beginning to end, as far as the sink takes it, and is at the same
level afterwards, `Writes` this text. What writes, one part after the other or one level deeper, writes
again, and so the printer writes the outline of every program (`writes_stmts`).

A sink that gets full keeps the beginning of the outline, and the printer is left as it was. So programs that
are written with the same printer, each to a sink of its own, do not see each other (`outline_cut_short`).
-/

namespace Treewalk

/-! ## The outline as a text -/

namespace Printer

/-- The printer one level deeper. -/
def deeper (printer : Printer) : Printer :=
  { printer with level := printer.level + 1 }

/-- A line at the level of the printer. -/
def line (printer : Printer) (text : String) : String :=
  String.join (List.replicate printer.level printer.indentation) ++ text ++ "\n"

end Printer

mutual

/-- The outline of a statement at the level of a printer. -/
def Stmt.outline : Stmt → Printer → String
  | .expression e, p => p.line ("(; " ++ e.outline ++ ")")
  | .print _ e, p => p.line ("(print " ++ e.outline ++ ")")
  | .var name (some e), p => p.line ("(var " ++ name.lexeme ++ " " ++ e.outline ++ ")")
  | .var name none, p => p.line ("(var " ++ name.lexeme ++ ")")
  | .return _ (some e), p => p.line ("(return " ++ e.outline ++ ")")
  | .return _ none, p => p.line "(return)"
  | .block body, p => p.line "(block" ++ Stmt.outlines body p.deeper ++ p.line ")"
  | .ifThen condition consequent, p =>
    p.line ("(if " ++ condition.outline) ++ consequent.outline p.deeper ++ p.line ")"
  | .ifElse condition consequent alternative, p =>
    p.line ("(if-else " ++ condition.outline) ++
      (consequent.outline p.deeper ++ alternative.outline p.deeper) ++ p.line ")"
  | .while condition body, p =>
    p.line ("(while " ++ condition.outline) ++ body.outline p.deeper ++ p.line ")"
  | .function name params body, p =>
    p.line ("(fun " ++ name.lexeme ++ " (" ++ " ".intercalate (params.map Token.lexeme) ++ ")") ++
      Stmt.outlines body p.deeper ++ p.line ")"

/-- The outlines of some statements, one below the other. -/
def Stmt.outlines : List Stmt → Printer → String
  | [], _ => ""
  | s :: ss, p => s.outline p ++ Stmt.outlines ss p

end

namespace Printer

/-! ## Writing a text -/

/-- The text is handed to the sink, as far as it takes it, and the printer stays as it was. -/
def Writes (x : Writing Unit) (text : Printer → String) : Prop :=
  ∀ printer sink, x (printer, sink) =
    ((sink.write (text printer).toUTF8).1, printer, (sink.write (text printer).toUTF8).2)

variable {x y : Writing Unit} {text text' : Printer → String}

/-- Doing nothing writes nothing. -/
theorem writes_nothing : Writes (pure ()) fun _ => "" := by
  intro printer sink
  have hempty : sink.write "".toUTF8 = (.ok (), sink) := by
    obtain ⟨stored, room⟩ := sink
    cases room <;> simp [Sink.write]
  rw [hempty]
  rfl

/-- A line is written with the indentation of the level. -/
theorem writes_line (text : String) : Writes (writeLine text) (·.line text) :=
  fun _ _ => rfl

/-- Two parts of the printer write their texts one after the other. -/
theorem Writes.seq (hx : Writes x text) (hy : Writes y text') :
    Writes (do x; y) fun p => text p ++ text' p := by
  intro printer sink
  have hbytes : (text printer ++ text' printer).toUTF8 =
      (text printer).toUTF8 ++ (text' printer).toUTF8 := by simp
  have hboth : (do x; y : Writing Unit) (printer, sink) =
      match x (printer, sink) with
      | (.ok _, s) => y s
      | (.error e, s) => (.error e, s) := by
    simp only [bind, ExceptT.bind, ExceptT.mk, StateT.bind]
    rcases x (printer, sink) with ⟨_ | _, s⟩ <;> rfl
  rw [hboth, hx, hbytes, Sink.write_append]
  rcases sink.write (text printer).toUTF8 with ⟨_ | _, sink⟩
  · rfl
  · exact hy printer sink

/-- What is nested is written one level deeper. -/
theorem Writes.nested (hx : Writes x text) : Writes (nested x) fun p => text p.deeper := by
  intro printer sink
  have hdeep := hx printer.deeper sink
  unfold deeper at hdeep
  simp only [Printer.nested, hdeep]
  rfl

/-- A line that opens a statement, what stands in it, and the line that closes it. -/
theorem Writes.enclosed (hx : Writes x text) (opening : String) :
    Writes (do writeLine opening; Printer.nested x; writeLine ")") fun p =>
      p.line opening ++ text p.deeper ++ p.line ")" := by
  have hall := (writes_line opening).seq (hx.nested.seq (writes_line ")"))
  simpa only [String.append_assoc] using hall

mutual

/-- **The printer writes the outline.** -/
theorem writes_stmt : (s : Stmt) → Writes (writeStmt s) s.outline
  | .expression _ | .print _ _ | .var _ (some _) | .var _ none | .return _ (some _)
  | .return _ none => writes_line _
  | .block body => (writes_stmts body).enclosed _
  | .ifThen _ consequent => (writes_stmt consequent).enclosed _
  | .ifElse _ consequent alternative =>
    ((writes_stmt consequent).seq (writes_stmt alternative)).enclosed _
  | .while _ body => (writes_stmt body).enclosed _
  | .function _ _ body => (writes_stmts body).enclosed _

/-- The printer writes the outlines of statements one after the other. -/
theorem writes_stmts : (ss : List Stmt) → Writes (writeStmts ss) (Stmt.outlines ss)
  | [] => writes_nothing
  | s :: ss => (writes_stmt s).seq (writes_stmts ss)

end

/-- Writing a program is handing its outline to the sink, with the printer left as it was. -/
theorem writeProgram_eq (printer : Printer) (program : List Stmt) (sink : Sink) :
    printer.writeProgram program sink =
      ((sink.write (Stmt.outlines program printer).toUTF8).1, printer,
        (sink.write (Stmt.outlines program printer).toUTF8).2) :=
  writes_stmts program printer sink

/-! ## Sinks that get full -/

/-- What a printer writes of a program where there is room for all of it. -/
def whole (printer : Printer) (program : List Stmt) : ByteArray :=
  (printer.writeProgram program (.empty none)).2.2.written

/-- What an unlimited sink receives is the outline. -/
theorem whole_eq (printer : Printer) (program : List Stmt) :
    printer.whole program = (Stmt.outlines program printer).toUTF8 := by
  rw [whole, writeProgram_eq, Sink.write_of_room rfl]
  exact ByteArray.empty_append

/-- Programs written with one printer, one after the other, each to an empty sink with room for so many
bytes: for each of them the result and what its sink stores, and the printer in the end. -/
def writeEach (printer : Printer) :
    List (List Stmt × Nat) → List (Except Sink.Full Unit × ByteArray) × Printer
  | [] => ([], printer)
  | (program, n) :: steps =>
    let (result, printer, sink) := printer.writeProgram program (.empty (some n))
    let (results, printer) := printer.writeEach steps
    ((result, sink.written) :: results, printer)

/-- A sink with some room takes the outline whole if it fits, and else as much of it as there is room
for. -/
theorem writeProgram_some (printer : Printer) (program : List Stmt) (stored : ByteArray) (n : Nat) :
    printer.writeProgram program ⟨stored, some n⟩ =
      (if (printer.whole program).size ≤ n then .ok () else .error ⟨⟩, printer,
        ⟨stored ++ (printer.whole program).extract 0 (min n (printer.whole program).size),
          some (n - (printer.whole program).size)⟩) := by
  rw [writeProgram_eq, Sink.write_some, whole_eq]

/-- Programs written with the same printer are written as if each were the only one. -/
theorem writeEach_eq (printer : Printer) (steps : List (List Stmt × Nat)) :
    printer.writeEach steps =
      (steps.map fun (program, n) =>
        (if (printer.whole program).size ≤ n then .ok () else .error ⟨⟩,
          (printer.whole program).extract 0 (min n (printer.whole program).size)), printer) := by
  induction steps with
  | nil => rfl
  | cons step steps ih =>
    obtain ⟨program, n⟩ := step
    simp only [writeEach, Sink.empty, writeProgram_some, ih, ByteArray.empty_append, List.map_cons]

/-- **A full sink keeps the beginning of the outline, and the printer is as before.** Without limit every
program is written. To a sink with room for `n` bytes it is written just if its outline has no more, and the
sink stores the first `n` bytes of the outline, or all of them. So in any sequence of writes with one
printer, whatever the limits, each stores what it would store if it were the first. -/
theorem outline_cut_short (printer : Printer) :
    (∀ program stored, printer.writeProgram program ⟨stored, none⟩ =
      (.ok (), printer, ⟨stored ++ printer.whole program, none⟩)) ∧
    (∀ program stored n, ∃ result sink,
      printer.writeProgram program ⟨stored, some n⟩ = (result, printer, sink) ∧
        (result = .ok () ↔ (printer.whole program).size ≤ n) ∧
        sink.written =
          stored ++ (printer.whole program).extract 0 (min n (printer.whole program).size)) ∧
    ∀ steps, printer.writeEach steps =
      (steps.map fun (program, n) =>
        (if (printer.whole program).size ≤ n then .ok () else .error ⟨⟩,
          (printer.whole program).extract 0 (min n (printer.whole program).size)), printer) := by
  refine ⟨fun program stored => ?_, fun program stored n => ?_, printer.writeEach_eq⟩
  · rw [writeProgram_eq, Sink.write_of_room rfl, whole_eq]
  · refine ⟨_, _, writeProgram_some .., ?_, rfl⟩
    by_cases hfits : (printer.whole program).size ≤ n <;> simp [hfits]

/-- A conditional in a block, written twice with one printer. The first sink has room for twelve bytes and
gets full two levels deep. The second one has just room enough, and its outline begins at the margin again. -/
theorem outline_cut_short_nested :
    (ofIndentation "  ").writeEach
        [([.block [.ifThen (.literal (.boolean true)) (.expression (.literal .nil))]], 12),
          ([.block [.ifThen (.literal (.boolean true)) (.expression (.literal .nil))]], 36)] =
      ([(.error ⟨⟩, "(block\n  (if".toUTF8),
        (.ok (), "(block\n  (if true\n    (; nil)\n  )\n)\n".toUTF8)], ofIndentation "  ") := by
  have hwhole : (ofIndentation "  ").whole
      [.block [.ifThen (.literal (.boolean true)) (.expression (.literal .nil))]] =
        "(block\n  (if true\n    (; nil)\n  )\n)\n".toUTF8 := by
    rw [whole_eq]
    congr 1
  have hsize : "(block\n  (if true\n    (; nil)\n  )\n)\n".toUTF8.size = 36 := rfl
  rw [(outline_cut_short _).2.2]
  simp only [List.map_cons, List.map_nil, hwhole, hsize]
  rfl

end Printer

end Treewalk
