import Treewalk.CommandLine

/-!
# The command line

`treewalk [--print-ast] [--verbose] [SCRIPT]` runs a script, or prints its tree; without a script it
reads lines from a prompt.
-/

namespace Treewalk.CommandLine

/-- More steps than any program performs. -/
def unlimitedSteps : Nat := Nat.pow 2 62

/-- What is asked for on the command line. -/
structure Options where
  script : Option String := none
  tree : Bool := false
  verbose : Bool := false

/-- Read the arguments of the command line. -/
def Options.parse? (options : Options) : List String → Option Options
  | [] => some options
  | "--print-ast" :: rest => parse? { options with tree := true } rest
  | "--verbose" :: rest => parse? { options with verbose := true } rest
  | "-v" :: rest => parse? { options with verbose := true } rest
  | arg :: rest =>
    if arg.startsWith "-" || options.script.isSome then none
    else parse? { options with script := some arg } rest

/-- Perform the effects of a process. -/
def Transcript.perform (t : Transcript) : IO UInt32 := do
  (← IO.getStdout).write t.stdout
  (← IO.getStdout).flush
  (← IO.getStderr).putStr t.stderr
  return t.exitCode.toUInt32

/-- Read a line with its line feed; nothing at the end of the input. -/
partial def readLine (input : IO.FS.Stream) (read : ByteArray) : IO ByteArray := do
  let bytes ← input.read 1
  if bytes.isEmpty then return read
  let read := read ++ bytes
  if bytes[0]? == some 0x0A then return read else readLine input read

/-- Read and run lines until the input ends. -/
partial def promptLoop (s : Evaluation.State) (console : Console) : IO UInt32 := do
  let stdout ← IO.getStdout
  let stderr ← IO.getStderr
  stdout.putStr prompt
  stdout.flush
  let line ← readLine (← IO.getStdin) ByteArray.empty
  if line.isEmpty then
    stdout.putStrLn ""
    return 0
  match String.fromUTF8? ⟨(trimLine line.toList).toArray⟩ with
  | none =>
    stderr.putStr notText
    return ioExitCode.toUInt32
  | some text =>
    match runLine unlimitedSteps text s { console with written := "" } with
    | none => return 1
    | some (s, console) =>
      let (output, s) := s.takeOutput
      stdout.write output
      stdout.flush
      stderr.putStr console.written
      promptLoop s console

end Treewalk.CommandLine

open Treewalk.CommandLine in
/-- Run a script, or lines from a prompt. -/
def main (args : List String) : IO UInt32 := do
  match Options.parse? {} args with
  | none =>
    (← IO.getStderr).putStrLn "usage: treewalk [--print-ast] [--verbose] [SCRIPT]"
    return 2
  | some options =>
    match options.script with
    | none => promptLoop (.initial (.empty none)) .empty
    | some path =>
      let contents ←
        try some <$> IO.FS.readBinFile path
        catch _ => pure none
      match runScript unlimitedSteps contents options.tree with
      | none => return 1
      | some transcript => transcript.perform
