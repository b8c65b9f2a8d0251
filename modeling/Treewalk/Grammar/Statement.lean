import Treewalk.Grammar.Expression

/-!
# Productions for statements and declarations

```text
program        = declaration* end
declaration    = "fun" function | "var" variable | statement
function       = IDENTIFIER "(" parameters? ")" block
parameters     = IDENTIFIER ( "," IDENTIFIER )*
variable       = IDENTIFIER ( "=" expression )? ";"
statement      = "print" expression ";"
               | "if" "(" expression ")" statement ( "else" statement )?
               | "while" "(" expression ")" statement
               | "for" "(" ( ";" | "var" variable | expression ";" ) expression? ";" expression? ")"
                 statement
               | "return" expression? ";"
               | block
               | expression ";"
block          = "{" declaration* "}"
```

A `for` loop is read as the block that it stands for: its first clause, then a `while` loop whose
body ends with the last clause.
-/

namespace Treewalk.Grammar

open Routine (call become attempt)

/-- The declarations of a block whose opening brace has been taken, and the closing brace. -/
def blockRest : Parse (List Stmt) := do
  let body ← call (Goal.block [])
  let _ ← Parse.expect .rightBrace .blockClose
  pure body

/-- The parameters of a function up to the closing parenthesis. -/
def parameterList : Parse (List Token) := do
  if (← Parse.peekKind) = .rightParen then pure [] else call (Goal.parameters [])

/-- A function after `fun`. -/
def function : Parse Stmt := do
  let name ← Parse.expect .identifier .functionName
  let _ ← Parse.expect .leftParen .functionOpen
  let params ← parameterList
  let _ ← Parse.expect .rightParen .parametersClose
  let _ ← Parse.expect .leftBrace .functionBody
  let body ← Parse.inFunction blockRest
  pure (.function name params body)

/-- Parameters after those read so far. One too many is complained about and read all the same. -/
def parameters (read : List Token) : Parse (List Token) := do
  Parse.reportBeyond read.length .tooManyParameters
  let name ← Parse.expect .identifier .parameterName
  match ← Parse.accept? [.comma] with
  | some _ => become (Goal.parameters (name :: read))
  | none => pure (name :: read).reverse

/-- The initial value of a variable, if it has one. -/
def initialValue : Parse (Option Expr) := do
  match ← Parse.accept? [.assign] with
  | some _ => do
    let e ← call Goal.expression
    pure (some e)
  | none => pure none

/-- A variable after `var`. -/
def variableRest : Parse Stmt := do
  let name ← Parse.expect .identifier .variableName
  let init ← initialValue
  let _ ← Parse.expect .semicolon .variableEnd
  pure (.var name init)

/-- An expression as a statement. -/
def expressionStatement : Parse Stmt := do
  let e ← call Goal.expression
  let _ ← Parse.expect .semicolon .statementEnd
  pure (.expression e)

/-- The rest of a `print` statement. -/
def printRest (keyword : Token) : Parse Stmt := do
  let e ← call Goal.expression
  let _ ← Parse.expect .semicolon .statementEnd
  pure (.print keyword e)

/-- The rest of an `if` statement. An `else` belongs to the nearest `if` before it. -/
def ifRest : Parse Stmt := do
  let _ ← Parse.expect .leftParen .ifOpen
  let condition ← call Goal.expression
  let _ ← Parse.expect .rightParen .ifClose
  let consequent ← call Goal.statement
  match ← Parse.accept? [.kwElse] with
  | some _ => do
    let alternative ← call Goal.statement
    pure (.ifElse condition consequent alternative)
  | none => pure (.ifThen condition consequent)

/-- The rest of a `while` loop. -/
def whileRest : Parse Stmt := do
  let _ ← Parse.expect .leftParen .whileOpen
  let condition ← call Goal.expression
  let _ ← Parse.expect .rightParen .whileClose
  let body ← call Goal.statement
  pure (.while condition body)

/-- The first clause of a `for` loop, with its semicolon. -/
def forInit : Parse (Option Stmt) := do
  match ← Parse.accept? [.semicolon, .kwVar] with
  | some t => do
    if t.kind = .semicolon then pure none
    else do
      let s ← variableRest
      pure (some s)
  | none => do
    let s ← expressionStatement
    pure (some s)

/-- The block that a `for` loop stands for. -/
def forLoop (init : Option Stmt) (condition : Expr) (increment : Option Expr) (body : Stmt) : Stmt :=
  let body :=
    match increment with
    | some e => .block [body, .expression e]
    | none => body
  .block (init.toList ++ [.while condition body])

/-- The rest of a `for` loop. -/
def forRest : Parse Stmt := do
  let _ ← Parse.expect .leftParen .forOpen
  let init ← forInit
  let condition ← clause .semicolon
  let _ ← Parse.expect .semicolon .forConditionEnd
  let increment ← clause .rightParen
  let _ ← Parse.expect .rightParen .forClose
  let body ← call Goal.statement
  pure (forLoop init (condition.getD (.literal (.boolean true))) increment body)

/-- The rest of a `return` statement. Outside every function it is complained about and read all the
same. -/
def returnRest (keyword : Token) : Parse Stmt := do
  Parse.reportOutside keyword .returnOutsideFunction
  let value ← clause .semicolon
  let _ ← Parse.expect .semicolon .returnEnd
  pure (.return keyword value)

/-- A statement. -/
def statement : Parse Stmt := do
  let t ← Parse.peek
  match t.kind with
  | .kwPrint => do
    Parse.advance
    printRest t
  | .kwIf => do
    Parse.advance
    ifRest
  | .kwWhile => do
    Parse.advance
    whileRest
  | .kwFor => do
    Parse.advance
    forRest
  | .kwReturn => do
    Parse.advance
    returnRest t
  | .leftBrace => do
    Parse.advance
    let body ← blockRest
    pure (.block body)
  | _ => expressionStatement

/-- A declaration that may be abandoned. -/
def declarationBody : Parse Stmt := do
  let t ← Parse.peek
  match t.kind with
  | .kwFun => do
    Parse.advance
    function
  | .kwVar => do
    Parse.advance
    variableRest
  | _ => call Goal.statement

/-- A declaration; if it is abandoned, the parser finds a place to go on. -/
def declaration : Parse (Option Stmt) := do
  let start ← Parse.index
  match ← attempt declarationBody with
  | .ok s => pure (some s)
  | .error _ => do
    Routine.modify (State.synchronize start)
    pure none

/-- Declarations up to a closing brace or the end. -/
def block (read : List Stmt) : Parse (List Stmt) := do
  let kind ← Parse.peekKind
  if kind = .rightBrace ∨ kind = .eof then pure read.reverse
  else do
    let s ← call Goal.declaration
    become (Goal.block (s.toList ++ read))

/-- Declarations up to the end. -/
def program (read : List Stmt) : Parse (List Stmt) := do
  if (← Parse.peekKind) = .eof then pure read.reverse
  else do
    let s ← call Goal.declaration
    become (Goal.program (s.toList ++ read))

/-- The parser. -/
def rules : (g : Goal) → Parse g.Result
  | .program read => program read
  | .block read => block read
  | .declaration => declaration
  | .statement => statement
  | .expression => expression
  | .operation level => operation level
  | .operatorTail level left => operatorTail level left
  | .unary => unary
  | .calls callee => calls callee
  | .arguments read => arguments read
  | .parameters read => parameters read

/-! ## Whole programs -/

/-- More steps than the parser needs for a list of tokens of the given length. -/
def enoughSteps (length : Nat) : Nat :=
  1000 * (length + 1)

/-- What becomes of a list of tokens: the statements that were not dropped, and the state of the
parser at the end. -/
def outcome (tokens : List Token) : Option (Except Abandoned (List Stmt) × State) :=
  Routine.run rules (enoughSteps tokens.length) (program []) (State.ofTokens tokens)

/-- The statements of a program and what was wrong with it, each in the order of the text, and whether
the parser has complained. -/
structure Parsed where
  program : List Stmt
  diagnostics : Array Diagnostic
  hadError : Bool

/-- Read a program from tokens. -/
def parse (tokens : List Token) : Parsed :=
  match outcome tokens with
  | some (.ok program, s) => ⟨program, s.diagnostics, s.hadError⟩
  | some (.error _, s) => ⟨[], s.diagnostics, s.hadError⟩
  | none => ⟨[], #[], false⟩

end Treewalk.Grammar
