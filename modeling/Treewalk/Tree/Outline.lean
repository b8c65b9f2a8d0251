import Treewalk.Number.Style
import Treewalk.Sink
import Treewalk.Tree.Basic

/-!
# Programs as an indented outline

The outline of a program shows its tree: one line for each simple statement, and for each statement
with parts a line that opens it, its parts one level deeper, and a line that closes it. Expressions
are written with their operator first. The outline goes to a `Sink` line by line, and ends where the
sink is full; the level of the printer is then the one it had before.
-/

namespace Treewalk

/-- An operator and its operands in parentheses. -/
def Expr.applied (operator : String) (operands : List String) : String :=
  "(" ++ operator ++ String.join (operands.map (" " ++ ·)) ++ ")"

mutual

/-- An expression, operator first. -/
def Expr.outline : Expr → String
  | .literal .nil => "nil"
  | .literal (.boolean true) => "true"
  | .literal (.boolean false) => "false"
  | .literal (.number value) => Number.valueStyle.text value
  | .literal (.string value) => "\"" ++ value ++ "\""
  | .grouping inner => applied "group" [inner.outline]
  | .unary operator right => applied operator.lexeme [right.outline]
  | .binary left operator right => applied operator.lexeme [left.outline, right.outline]
  | .logical left operator right => applied operator.lexeme [left.outline, right.outline]
  | .variable name => name.lexeme
  | .assign name value => applied "=" [name.lexeme, value.outline]
  | .call callee _ args => applied "call" (callee.outline :: Expr.outlines args)

/-- Some expressions, operator first. -/
def Expr.outlines : List Expr → List String
  | [] => []
  | e :: es => e.outline :: Expr.outlines es

end

/-- A printer of outlines: what one level is indented by, and how many levels deep it is. -/
structure Printer where
  indentation : String
  level : Nat

namespace Printer

/-- A printer at the outermost level. -/
def ofIndentation (indentation : String) : Printer :=
  ⟨indentation, 0⟩

/-- Writing with a printer to a sink, which may turn out to be full. -/
abbrev Writing : Type → Type :=
  ExceptT Sink.Full (StateM (Printer × Sink))

/-- Write a line at the current level. -/
def writeLine (text : String) : Writing Unit := fun (printer, sink) =>
  let indented := String.join (List.replicate printer.level printer.indentation) ++ text ++ "\n"
  let (result, sink) := sink.write indented.toUTF8
  (result, printer, sink)

/-- Write one level deeper, and come back whether or not that succeeds. -/
def nested (x : Writing Unit) : Writing Unit := fun (printer, sink) =>
  let (result, printer, sink) := x ({ printer with level := printer.level + 1 }, sink)
  (result, { printer with level := printer.level - 1 }, sink)

mutual

/-- Write the outline of a statement. -/
def writeStmt : Stmt → Writing Unit
  | .expression e => writeLine ("(; " ++ e.outline ++ ")")
  | .print _ e => writeLine ("(print " ++ e.outline ++ ")")
  | .var name (some e) => writeLine ("(var " ++ name.lexeme ++ " " ++ e.outline ++ ")")
  | .var name none => writeLine ("(var " ++ name.lexeme ++ ")")
  | .return _ (some e) => writeLine ("(return " ++ e.outline ++ ")")
  | .return _ none => writeLine "(return)"
  | .block body => do
    writeLine "(block"
    nested (writeStmts body)
    writeLine ")"
  | .ifThen condition consequent => do
    writeLine ("(if " ++ condition.outline)
    nested (writeStmt consequent)
    writeLine ")"
  | .ifElse condition consequent alternative => do
    writeLine ("(if-else " ++ condition.outline)
    nested do
      writeStmt consequent
      writeStmt alternative
    writeLine ")"
  | .while condition body => do
    writeLine ("(while " ++ condition.outline)
    nested (writeStmt body)
    writeLine ")"
  | .function name params body => do
    writeLine ("(fun " ++ name.lexeme ++ " (" ++ " ".intercalate (params.map Token.lexeme) ++ ")")
    nested (writeStmts body)
    writeLine ")"

/-- Write the outlines of some statements. -/
def writeStmts : List Stmt → Writing Unit
  | [] => pure ()
  | s :: ss => do
    writeStmt s
    writeStmts ss

end

/-- Write the outline of a program to a sink. -/
def writeProgram (printer : Printer) (program : List Stmt) (sink : Sink) :
    Except Sink.Full Unit × Printer × Sink :=
  writeStmts program (printer, sink)

end Printer

end Treewalk
