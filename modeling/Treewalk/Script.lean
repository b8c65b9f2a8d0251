import Treewalk.Evaluation.Rules
import Treewalk.Grammar.Statement
import Treewalk.Token.Scan

/-!
# Program texts

From a text to its effects. Everything that is wrong with a text goes to a reporter; while this has
been told of something, be it about an earlier text, nothing is run. Where the diagnostics are of
interest themselves, the reporter is a log.
-/

namespace Treewalk

/-- Why a program text was not run to its end. -/
inductive Failure where
  /-- Something is wrong with the text; the log says what. -/
  | badProgram
  /-- The program failed while it ran. -/
  | fault (fault : Fault)

namespace Failure

/-- The failure in words. -/
def message : Failure → String
  | badProgram => "The program contains syntax errors"
  | fault f => f.message

/-- The exit code of a process that ends with the failure. -/
def exitCode : Failure → Nat
  | badProgram => 42
  | fault _ => 75

end Failure

namespace Script

/-- What has been found wrong with the texts read so far. -/
abbrev Log := Array Diagnostic

/-- The tokens of a text read as a program, and all that is wrong with it: first what is wrong with
its tokens, then what is wrong with its grammar. -/
def parse (source : String) : Grammar.Parsed :=
  let scanned := Token.tokenize source
  let parsed := Grammar.parse scanned.tokens.toList
  { parsed with diagnostics := scanned.diagnostics ++ parsed.diagnostics }

/-- Read a program text and report what is wrong with it. It fails if the parser has complained, or if
the reporter has been told of anything, be it about an earlier text. -/
def readWith {ρ : Type} [Reporter ρ] (source : String) (reporter : ρ) :
    Except Failure (List Stmt) × ρ :=
  let parsed := parse source
  let reporter := parsed.diagnostics.foldl Reporter.report reporter
  (if parsed.hadError || Reporter.hadError reporter then .error .badProgram else .ok parsed.program,
    reporter)

/-- Read a program text, report what is wrong with it and run it, at most `steps` steps of it. -/
def runWith {ρ : Type} [Reporter ρ] (steps : Nat) (source : String) (s : Evaluation.State)
    (reporter : ρ) : Option (Except Failure Unit × Evaluation.State × ρ) :=
  match readWith source reporter with
  | (.error failure, reporter) => some (.error failure, s, reporter)
  | (.ok program, reporter) =>
    (Evaluation.interpret steps program s).map fun (result, s) =>
      (result.mapError .fault, s, reporter)

/-- Read a program text. It fails if the log has an entry afterwards. -/
def read (source : String) (log : Log) : Except Failure (List Stmt) × Log :=
  readWith source log

/-- Read a program text and run it, at most `steps` steps of it. -/
def run (steps : Nat) (source : String) (s : Evaluation.State) (log : Log) :
    Option (Except Failure Unit × Evaluation.State × Log) :=
  runWith steps source s log

end Script

end Treewalk
