import Treewalk.Sink
import Treewalk.Token.Basic

/-!
# Faults

A `Fault` ends the execution of a program. It keeps the token whose evaluation failed.
-/

namespace Treewalk

/-- How an operator and its operands fail to fit. -/
inductive Mismatch where
  | operandNotNumber
  | operandsNotNumbers
  | operandsNotAlike
  | unknownUnary
  | unknownBinary
  deriving DecidableEq

/-- The mismatch in words. -/
def Mismatch.message : Mismatch → String
  | operandNotNumber => "Operand must be a number."
  | operandsNotNumbers => "Operands must be numbers."
  | operandsNotAlike => "Operands must be two numbers or two strings."
  | unknownUnary => "Unknown unary operator."
  | unknownBinary => "Unknown binary operator."

/-- Why the execution of a program ended early. -/
inductive Fault where
  /-- An operator was applied to values that it has no meaning for. -/
  | typeMismatch (operator : Token) (mismatch : Mismatch)
  /-- A name was used that no frame in sight defines. -/
  | undefinedVariable (name : Token)
  /-- A value was called that is no function. -/
  | notCallable (paren : Token)
  /-- A function was called with the wrong number of arguments. -/
  | arityMismatch (paren : Token) (expected got : Nat)
  /-- Calls were nested too deeply. -/
  | stackOverflow (paren : Token)
  /-- What was printed could not be written. -/
  | output (keyword : Token)

namespace Fault

/-- The token that the fault is reported at. -/
def token : Fault → Token
  | typeMismatch t _ => t
  | undefinedVariable t => t
  | notCallable t => t
  | arityMismatch t _ _ => t
  | stackOverflow t => t
  | output t => t

/-- The line that the fault is reported at. -/
def line (f : Fault) : Int :=
  f.token.line

/-- The fault in words. -/
def message : Fault → String
  | typeMismatch _ mismatch => mismatch.message
  | undefinedVariable name => "Undefined variable '" ++ name.lexeme ++ "'."
  | notCallable _ => "Can only call functions."
  | arityMismatch _ expected got =>
    "Expected " ++ toString expected ++ " arguments but got " ++ toString got ++ "."
  | stackOverflow _ => "Stack overflow."
  | output _ => "Failed to write output: " ++ Sink.Full.message

/-- The report of a fault: its words, and its line below them. -/
def report (f : Fault) : String :=
  f.message ++ "\n[line " ++ toString f.line ++ "]\n"

end Fault

end Treewalk
