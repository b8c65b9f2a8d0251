import Treewalk.Fault
import Treewalk.Tree.Basic

/-!
# Trees without parentheses and positions

`Expr.erase` and `Stmt.erase` leave out what does not matter to the meaning of a program: the
parentheses, and where in a text its tokens stood. Two programs are the same, as far as running them
goes, if they are equal after that.
-/

namespace Treewalk

/-- A token without its place in a text. -/
def Token.erase (t : Token) : Token :=
  { t with start := .start, stop := .start }

mutual

/-- An expression without parentheses, its tokens without places. -/
def Expr.erase : Expr → Expr
  | .literal value => .literal value
  | .grouping inner => inner.erase
  | .unary operator right => .unary operator.erase right.erase
  | .binary left operator right => .binary left.erase operator.erase right.erase
  | .logical left operator right => .logical left.erase operator.erase right.erase
  | .variable name => .variable name.erase
  | .assign name value => .assign name.erase value.erase
  | .call callee paren args => .call callee.erase paren.erase (Expr.eraseAll args)

/-- Expressions without parentheses, one by one. -/
def Expr.eraseAll : List Expr → List Expr
  | [] => []
  | e :: es => e.erase :: Expr.eraseAll es

end

mutual

/-- A statement without parentheses, its tokens without places. -/
def Stmt.erase : Stmt → Stmt
  | .expression e => .expression e.erase
  | .print keyword e => .print keyword.erase e.erase
  | .var name init => .var name.erase (init.map Expr.erase)
  | .block body => .block (Stmt.eraseAll body)
  | .ifThen condition consequent => .ifThen condition.erase consequent.erase
  | .ifElse condition consequent alternative =>
    .ifElse condition.erase consequent.erase alternative.erase
  | .while condition body => .while condition.erase body.erase
  | .function name params body =>
    .function name.erase (params.map Token.erase) (Stmt.eraseAll body)
  | .return keyword value => .return keyword.erase (value.map Expr.erase)

/-- Statements without parentheses, one by one. -/
def Stmt.eraseAll : List Stmt → List Stmt
  | [] => []
  | s :: ss => s.erase :: Stmt.eraseAll ss

end

/-- A fault at a token without its place. -/
def Fault.erase : Fault → Fault
  | .typeMismatch operator mismatch => .typeMismatch operator.erase mismatch
  | .undefinedVariable name => .undefinedVariable name.erase
  | .notCallable paren => .notCallable paren.erase
  | .arityMismatch paren expected got => .arityMismatch paren.erase expected got
  | .stackOverflow paren => .stackOverflow paren.erase
  | .output keyword => .output keyword.erase

/-- The positions in a list of expressions are erased one expression at a time. -/
theorem Expr.eraseAll_eq_map (es : List Expr) : Expr.eraseAll es = es.map Expr.erase := by
  induction es with
  | nil => rfl
  | cons e es ih => rw [Expr.eraseAll, ih, List.map_cons]

/-- The positions in a list of statements are erased one statement at a time. -/
theorem Stmt.eraseAll_eq_map (ss : List Stmt) : Stmt.eraseAll ss = ss.map Stmt.erase := by
  induction ss with
  | nil => rfl
  | cons s ss ih => rw [Stmt.eraseAll, ih, List.map_cons]

end Treewalk
