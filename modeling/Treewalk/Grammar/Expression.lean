import Treewalk.Grammar.State

/-!
# Productions for expressions

```text
expression     = operation(or) ( "=" expression )?
operation(l)   = operand(l) ( operator(l) operand(l) )*
unary          = ( "!" | "-" ) unary | primary calls
calls          = ( "(" arguments? ")" )*
arguments      = expression ( "," expression )*
primary        = "true" | "false" | "nil" | NUMBER | STRING | IDENTIFIER | "(" expression ")"
```

What stands before `=` is read as an operation first; only if that is a bare name can it be assigned
to.
-/

namespace Treewalk.Grammar

open Routine (call become)

/-- An operand of a level. -/
def operand (level : Level) : Parse Expr :=
  match level.next? with
  | some tighter => call (Goal.operation tighter)
  | none => call Goal.unary

/-- An expression that no operator can be split off. -/
def primary : Parse Expr := do
  let t ← Parse.peek
  match t.kind with
  | .kwFalse => do
    Parse.advance
    pure (.literal (.boolean false))
  | .kwTrue => do
    Parse.advance
    pure (.literal (.boolean true))
  | .kwNil => do
    Parse.advance
    pure (.literal .nil)
  | .number | .string => do
    Parse.advance
    match t.literal with
    | some (.number value) => pure (.literal (.number value))
    | some (.string value) => pure (.literal (.string value))
    | none => Parse.refuse t .literalWithoutValue
  | .identifier => do
    Parse.advance
    pure (.variable t)
  | .leftParen => do
    Parse.advance
    let inner ← call Goal.expression
    let _ ← Parse.expect .rightParen .groupClose
    pure (.grouping inner)
  | _ => Parse.refuse t (.expected .expression)

/-- An expression, or nothing if there is none before a token of the given kind. -/
def clause (closing : Kind) : Parse (Option Expr) := do
  if (← Parse.peekKind) = closing then pure none
  else do
    let e ← call Goal.expression
    pure (some e)

/-- An assignment, or an operation. -/
def expression : Parse Expr := do
  let left ← call (Goal.operation .or)
  match ← Parse.accept? [.assign] with
  | none => pure left
  | some equals => do
    let value ← call Goal.expression
    match left with
    | .variable name => pure (.assign name value)
    | other => do
      Parse.report equals .invalidAssignmentTarget
      pure other

/-- An operand of a level and what follows it. -/
def operation (level : Level) : Parse Expr := do
  let left ← operand level
  become (Goal.operatorTail level left)

/-- More operations of a level, each with all before it as its left operand. -/
def operatorTail (level : Level) (left : Expr) : Parse Expr := do
  match ← Parse.accept? level.operators with
  | none => pure left
  | some operator => do
    let right ← operand level
    become (Goal.operatorTail level (level.join left operator right))

/-- An operator before its operand, or a call. -/
def unary : Parse Expr := do
  match ← Parse.accept? [.not, .minus] with
  | some operator => do
    let right ← call Goal.unary
    pure (.unary operator right)
  | none => do
    let callee ← primary
    become (Goal.calls callee)

/-- The arguments of a call up to the closing parenthesis. -/
def argumentList : Parse (List Expr) := do
  if (← Parse.peekKind) = .rightParen then pure []
  else do
    let first ← call Goal.expression
    call (Goal.arguments [first])

/-- Argument lists after a callee. -/
def calls (callee : Expr) : Parse Expr := do
  match ← Parse.accept? [.leftParen] with
  | none => pure callee
  | some _ => do
    let args ← argumentList
    let paren ← Parse.expect .rightParen .argumentsClose
    become (Goal.calls (.call callee paren args))

/-- Arguments after the first ones. One too many is complained about and read all the same. -/
def arguments (read : List Expr) : Parse (List Expr) := do
  match ← Parse.accept? [.comma] with
  | none => pure read.reverse
  | some _ => do
    Parse.reportBeyond read.length .tooManyArguments
    let e ← call Goal.expression
    become (Goal.arguments (e :: read))

end Treewalk.Grammar
