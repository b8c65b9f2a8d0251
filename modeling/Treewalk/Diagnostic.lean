import Treewalk.Token.Basic

/-!
# Diagnostics

What is wrong with a program text, and where. A `Complaint` is the cause, its wording is in
`Complaint.message`, and `Diagnostic.text` is the line a user sees. Diagnostics go to a `Reporter`: a
log, which keeps them, or a `Console`, which writes them down and keeps only that there were any.
-/

namespace Treewalk

/-- What the grammar asks for at a place where something else stands. -/
inductive Expected where
  | functionName | functionOpen | parameterName | parametersClose | functionBody
  | variableName | variableEnd | statementEnd
  | ifOpen | ifClose | whileOpen | whileClose
  | forOpen | forConditionEnd | forClose
  | returnEnd | blockClose
  | expression | groupClose | argumentsClose
  deriving DecidableEq

/-- The expected part in words. -/
def Expected.text : Expected → String
  | functionName => "function name after 'fun'"
  | functionOpen => "'(' after function name"
  | parameterName => "parameter name"
  | parametersClose => "')' after parameters"
  | functionBody => "'\x7b' before function body"
  | variableName => "variable name after 'var'"
  | variableEnd => "';' after variable declaration"
  | statementEnd => "';' after statement"
  | ifOpen => "'(' after 'if'"
  | ifClose => "')' after 'if' condition"
  | whileOpen => "'(' after 'while'"
  | whileClose => "')' after 'while' condition"
  | forOpen => "'(' after 'for'"
  | forConditionEnd => "';' after loop condition"
  | forClose => "')' after for clauses"
  | returnEnd => "';' after return value"
  | blockClose => "'\x7d' after block"
  | expression => "expression"
  | groupClose => "')' after expression"
  | argumentsClose => "')' after arguments"

/-- Something wrong with a program text. -/
inductive Complaint where
  /-- No token begins with this character. -/
  | unexpectedCharacter (c : Char)
  /-- A string is not closed before the end of the text. -/
  | unterminatedString
  /-- The grammar asks for something else. -/
  | expected (what : Expected)
  /-- What stands before `=` cannot be assigned to. -/
  | invalidAssignmentTarget
  | tooManyParameters
  | tooManyArguments
  /-- A `return` that belongs to no function. -/
  | returnOutsideFunction
  /-- A string or number token without the value it denotes. -/
  | literalWithoutValue
  deriving DecidableEq

/-- The most parameters or arguments that a function or a call can have. -/
def maxArguments : Nat := 255

/-- The wording of a complaint. -/
def Complaint.message : Complaint → String
  | unexpectedCharacter c => "Unexpected character '" ++ c.toString ++ "'."
  | unterminatedString => "Unterminated string."
  | expected what => "Expected " ++ what.text
  | invalidAssignmentTarget => "Invalid assignment target"
  | tooManyParameters => "Can't have more than " ++ toString maxArguments ++ " parameters"
  | tooManyArguments => "Can't have more than " ++ toString maxArguments ++ " arguments"
  | returnOutsideFunction => "Can't return from top-level code"
  | literalWithoutValue => "Literal token without a value"

/-- The part of a line that a diagnostic points to. -/
inductive Location where
  /-- Only the line is known. -/
  | line
  /-- The end of the program. -/
  | finish
  /-- A token, shown by its lexeme. -/
  | lexeme (text : String)
  deriving DecidableEq

/-- The location in words. -/
def Location.text : Location → String
  | line => ""
  | finish => " at end"
  | lexeme text => " at '" ++ text ++ "'"

/-- Where a token is, for a diagnostic. -/
def Location.ofToken (t : Token) : Location :=
  if t.kind = .eof then finish else lexeme t.lexeme

/-- A complaint about a place in a program text. -/
structure Diagnostic where
  line : Int
  location : Location
  complaint : Complaint
  deriving DecidableEq

namespace Diagnostic

/-- A complaint about a token. -/
def atToken (t : Token) (complaint : Complaint) : Diagnostic :=
  ⟨t.line, Location.ofToken t, complaint⟩

/-- The diagnostic as a user reads it. -/
def text (d : Diagnostic) : String :=
  "[line " ++ toString d.line ++ "] Error" ++ d.location.text ++ ": " ++ d.complaint.message

end Diagnostic

/-! ## Where diagnostics go -/

/-- What is told of everything that is wrong with a text. -/
class Reporter (ρ : Type) where
  /-- Tell it of a diagnostic. -/
  report : ρ → Diagnostic → ρ
  /-- Whether it has been told of any. -/
  hadError : ρ → Bool

/-- A log keeps what it is told of. -/
instance : Reporter (Array Diagnostic) where
  report := Array.push
  hadError log := !log.isEmpty

/-- A console writes down each diagnostic as soon as it is told of it. -/
structure Console where
  written : String
  /-- Whether there was a diagnostic since the console was last reset. -/
  hadError : Bool

namespace Console

/-- A console on which nothing is written. -/
def empty : Console :=
  ⟨"", false⟩

/-- Write a text below what is written. -/
def write (console : Console) (text : String) : Console :=
  { console with written := console.written ++ text }

/-- Forget that there were diagnostics. -/
def reset (console : Console) : Console :=
  { console with hadError := false }

/-- A console prints a diagnostic on a line of its own, and remembers that there was one. -/
instance : Reporter Console where
  report console d := { console.write (d.text ++ "\n") with hadError := true }
  hadError := Console.hadError

end Console

end Treewalk
