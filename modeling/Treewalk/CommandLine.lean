import Treewalk.Script
import Treewalk.Tree.Outline

/-!
# Scripts and the prompt

What a process prints and how it ends, as a function of what it reads: a script file, or lines from
a prompt. On the prompt all lines share one interpreter, and an error ends only the line it is in.
-/

namespace Treewalk.CommandLine

/-- The effects of a process. -/
structure Transcript where
  stdout : ByteArray
  stderr : String
  exitCode : Nat

/-- The exit code after trouble with reading. -/
def ioExitCode : Nat := 74

/-- What is said of bytes that are no text. -/
def notText : String := "Error: stream did not contain valid UTF-8\n"

/-- What is said of a script that does not exist. -/
def missingFile : String := "Error: No such file or directory (os error 2)\n"

/-- What is said of how a text ended, below its diagnostics. -/
def renderFailure : Except Failure Unit → String
  | .error (.fault f) => f.report
  | _ => ""

/-- The exit code for how a text ended. -/
def exitCode : Except Failure Unit → Nat
  | .ok () => 0
  | .error failure => failure.exitCode

/-! ## Scripts -/

/-- Run a program text. -/
def runText (steps : Nat) (source : String) : Option Transcript :=
  (Script.runWith steps source (.initial (.empty none)) Console.empty).map
    fun (result, s, console) =>
      ⟨s.sink.written, (console.write (renderFailure result)).written, exitCode result⟩

/-- How deep each level of a printed tree is indented. -/
def treeIndentation : String := "    "

/-- Print the tree of a program text. -/
def printTree (source : String) : Transcript :=
  match Script.readWith source Console.empty with
  | (.error failure, console) => ⟨ByteArray.empty, console.written, failure.exitCode⟩
  | (.ok program, console) =>
    let (_, _, sink) := (Printer.ofIndentation treeIndentation).writeProgram program (.empty none)
    ⟨sink.written, console.written, 0⟩

/-- Run a script file, or print its tree; there is no file if there are no contents. -/
def runScript (steps : Nat) (contents : Option ByteArray) (tree : Bool) : Option Transcript :=
  match contents with
  | none => some ⟨ByteArray.empty, missingFile, ioExitCode⟩
  | some bytes =>
    match String.fromUTF8? bytes with
    | none => some ⟨ByteArray.empty, notText, ioExitCode⟩
    | some source => if tree then some (printTree source) else runText steps source

/-! ## The prompt -/

/-- What stands before each line. -/
def prompt : String := "> "

/-- Write a text where the output of an interpreter goes. -/
def say (text : String) (s : Evaluation.State) : Evaluation.State :=
  { s with sink := (s.sink.write text.toUTF8).2 }

/-- Run one line. The console is reset, so that errors in earlier lines do not count. -/
def runLine (steps : Nat) (line : String) (s : Evaluation.State) (console : Console) :
    Option (Evaluation.State × Console) :=
  (Script.runWith steps line s console.reset).map fun (result, s, console) =>
    (s, console.write (renderFailure result))

/-- A line without the line feed that ends it and without a carriage return before that. -/
def trimLine (line : List UInt8) : List UInt8 :=
  match line.reverse with
  | 0x0A :: 0x0D :: rest => rest.reverse
  | 0x0A :: rest => rest.reverse
  | _ => line

/-- Split bytes after each line feed, the last line needing none; `current` is the beginning of a
line, in reverse, and `lines` holds the lines before it, in reverse. -/
def splitLines (current : List UInt8) (lines : List (List UInt8)) : List UInt8 → List (List UInt8)
  | [] => (if current.isEmpty then lines else current.reverse :: lines).reverse
  | b :: rest =>
    if b = 0x0A then splitLines [] ((b :: current).reverse :: lines) rest
    else splitLines (b :: current) lines rest

/-- The lines of some bytes. -/
def linesOf (input : ByteArray) : List ByteArray :=
  (splitLines [] [] input.toList).map fun line => ⟨(trimLine line).toArray⟩

/-- Run lines in order on one interpreter and one console. A line that is no text ends the session. -/
def runLines (steps : Nat) :
    List ByteArray → Evaluation.State → Console → Option Transcript
  | [], s, console => some ⟨(say (prompt ++ "\n") s).sink.written, console.written, 0⟩
  | line :: rest, s, console =>
    let s := say prompt s
    match String.fromUTF8? line with
    | none => some ⟨s.sink.written, (console.write notText).written, ioExitCode⟩
    | some text =>
      match runLine steps text s console with
      | none => none
      | some (s, console) => runLines steps rest s console

/-- A session at the prompt. -/
def runPrompt (steps : Nat) (input : ByteArray) : Option Transcript :=
  runLines steps (linesOf input) (.initial (.empty none)) Console.empty

end Treewalk.CommandLine
