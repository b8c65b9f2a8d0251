import Treewalk.Token.Basic

/-!
# Program trees

A program is a list of statements. Trees keep the tokens they were built from, because a failure
while the program runs is reported at a token; two trees are the same (`==`) only if these tokens
are, with their positions. Numbers are compared as numbers, so a tree that holds a value which is
not a number differs from itself.
-/

namespace Treewalk

/-- A value that can be written in a program. -/
inductive Constant where
  | nil
  | boolean (value : Bool)
  | number (value : Float)
  | string (value : String)
  deriving BEq

/-- An expression. -/
inductive Expr where
  | literal (value : Constant)
  /-- An expression in parentheses. -/
  | grouping (inner : Expr)
  | unary (operator : Token) (right : Expr)
  | binary (left : Expr) (operator : Token) (right : Expr)
  /-- An `and` or an `or`, which need not look at its right side. -/
  | logical (left : Expr) (operator : Token) (right : Expr)
  | variable (name : Token)
  | assign (name : Token) (value : Expr)
  /-- A call; the closing parenthesis stands for it in messages. -/
  | call (callee : Expr) (paren : Token) (args : List Expr)

/-- A statement. -/
inductive Stmt where
  | expression (e : Expr)
  | print (keyword : Token) (e : Expr)
  | var (name : Token) (init : Option Expr)
  | block (body : List Stmt)
  | ifThen (condition : Expr) (consequent : Stmt)
  | ifElse (condition : Expr) (consequent alternative : Stmt)
  | while (condition : Expr) (body : Stmt)
  | function (name : Token) (params : List Token) (body : List Stmt)
  | return (keyword : Token) (value : Option Expr)

/-- A function as it is declared. -/
structure Function where
  name : Token
  params : List Token
  body : List Stmt

/-- How many arguments a function takes. -/
def Function.arity (f : Function) : Nat :=
  f.params.length

/-! ## Sameness of trees -/

mutual

/-- Whether two expressions are the same, tokens included. -/
def Expr.same : Expr → Expr → Bool
  | .literal a, .literal b => a == b
  | .grouping a, .grouping b => a.same b
  | .unary o a, .unary p b => o == p && a.same b
  | .binary a o a', .binary b p b' => a.same b && o == p && a'.same b'
  | .logical a o a', .logical b p b' => a.same b && o == p && a'.same b'
  | .variable a, .variable b => a == b
  | .assign n a, .assign m b => n == m && a.same b
  | .call a p as, .call b q bs => a.same b && p == q && Expr.sameAll as bs
  | _, _ => false

/-- Whether two lists of expressions are the same, one by one. -/
def Expr.sameAll : List Expr → List Expr → Bool
  | [], [] => true
  | a :: as, b :: bs => a.same b && Expr.sameAll as bs
  | _, _ => false

end

/-- Expressions are compared with all their tokens. -/
instance : BEq Expr := ⟨Expr.same⟩

mutual

/-- Whether two statements are the same, tokens included. -/
def Stmt.same : Stmt → Stmt → Bool
  | .expression a, .expression b => a == b
  | .print k a, .print l b => k == l && a == b
  | .var n a, .var m b => n == m && a == b
  | .block as, .block bs => Stmt.sameAll as bs
  | .ifThen c a, .ifThen d b => c == d && a.same b
  | .ifElse c a a', .ifElse d b b' => c == d && a.same b && a'.same b'
  | .while c a, .while d b => c == d && a.same b
  | .function n ps as, .function m qs bs => n == m && ps == qs && Stmt.sameAll as bs
  | .return k a, .return l b => k == l && a == b
  | _, _ => false

/-- Whether two lists of statements are the same, one by one. -/
def Stmt.sameAll : List Stmt → List Stmt → Bool
  | [], [] => true
  | a :: as, b :: bs => a.same b && Stmt.sameAll as bs
  | _, _ => false

end

/-- Statements are compared with all their tokens. -/
instance : BEq Stmt := ⟨Stmt.same⟩

end Treewalk
