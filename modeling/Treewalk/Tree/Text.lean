import Treewalk.Number.Style
import Treewalk.Tree.Basic

/-!
# Programs on one line

`Stmt.text` writes a statement back as program text, on one line unless a string in it has line
breaks. Every operation stands in parentheses, so the text shows how the program was understood.
-/

namespace Treewalk

/-- The text of a literal; a string has its quotes and nothing else around it. -/
def Constant.text : Constant → String
  | nil => "nil"
  | boolean true => "true"
  | boolean false => "false"
  | number value => Number.treeStyle.text value
  | string value => "\"" ++ value ++ "\""

mutual

/-- The text of an expression. -/
def Expr.text : Expr → String
  | .literal value => value.text
  | .grouping inner => "(" ++ inner.text ++ ")"
  | .unary operator right => "(" ++ operator.lexeme ++ right.text ++ ")"
  | .binary left operator right =>
    "(" ++ left.text ++ " " ++ operator.lexeme ++ " " ++ right.text ++ ")"
  | .logical left operator right =>
    "(" ++ left.text ++ " " ++ operator.lexeme ++ " " ++ right.text ++ ")"
  | .variable name => name.lexeme
  | .assign name value => "(" ++ name.lexeme ++ " = " ++ value.text ++ ")"
  | .call callee _ args =>
    "(" ++ callee.text ++ "(" ++ ", ".intercalate (Expr.texts args) ++ "))"

/-- The texts of some expressions. -/
def Expr.texts : List Expr → List String
  | [] => []
  | e :: es => e.text :: Expr.texts es

end

mutual

/-- The text of a statement. -/
def Stmt.text : Stmt → String
  | .expression e => e.text ++ ";"
  | .print _ e => "print " ++ e.text ++ ";"
  | .var name (some e) => "var " ++ name.lexeme ++ " = " ++ e.text ++ ";"
  | .var name none => "var " ++ name.lexeme ++ ";"
  | .block body => "\x7b " ++ " ".intercalate (Stmt.texts body) ++ " \x7d"
  | .ifThen condition consequent => "if (" ++ condition.text ++ ") " ++ consequent.text
  | .ifElse condition consequent alternative =>
    "if (" ++ condition.text ++ ") " ++ consequent.text ++ " else " ++ alternative.text
  | .while condition body => "while (" ++ condition.text ++ ") " ++ body.text
  | .function name params body =>
    "fun " ++ name.lexeme ++ "(" ++ ", ".intercalate (params.map Token.lexeme) ++ ") \x7b " ++
      " ".intercalate (Stmt.texts body) ++ " \x7d"
  | .return _ (some e) => "return " ++ e.text ++ ";"
  | .return _ none => "return;"

/-- The texts of some statements. -/
def Stmt.texts : List Stmt → List String
  | [] => []
  | s :: ss => s.text :: Stmt.texts ss

end

end Treewalk
