import Treewalk.Diagnostic
import Treewalk.Plan.Routine
import Treewalk.Tree.Basic

/-!
# Reading a list of tokens

The state of the parser, and the steps that its productions are made of. The parser sees the tokens
before the first one that marks the end, and after them that one, which it never takes. A complaint
is noted when it arises; a production that cannot go on is then *abandoned*, and the declaration it
belongs to is dropped.
-/

namespace Treewalk.Grammar

/-- What the parser works on. -/
structure State where
  /-- The tokens that have not been taken. -/
  rest : List Token
  /-- The token that marks the end. -/
  finish : Token
  /-- How many tokens have been taken. -/
  index : Nat
  /-- The token taken last. -/
  last : Option Token
  /-- How many function bodies the present place is in. -/
  depth : Nat
  diagnostics : Array Diagnostic
  /-- Whether a complaint has been noted. -/
  hadError : Bool

/-- A production was given up, after a complaint about it. -/
structure Abandoned where

namespace State

/-- The token that marks the end of a list that has none: it stands on the line where the last token
ends. -/
def suppliedEnd (tokens : List Token) : Token :=
  Token.synthetic .eof "" ((tokens.getLast?.map (·.stop.line)).getD 1)

/-- Before the first token. -/
def ofTokens (tokens : List Token) : State where
  rest := tokens.takeWhile (·.kind ≠ .eof)
  finish := (tokens.find? (·.kind = .eof)).getD (suppliedEnd tokens)
  index := 0
  last := none
  depth := 0
  diagnostics := #[]
  hadError := false

/-- The next token, which at the end is the one that marks it. -/
def peek (s : State) : Token :=
  s.rest.headD s.finish

/-- Take a token, unless at the end. -/
def advance (s : State) : State :=
  match s.rest with
  | [] => s
  | t :: rest => { s with rest, last := some t, index := s.index + 1 }

/-- Note a complaint about a token. -/
def report (s : State) (t : Token) (complaint : Complaint) : State :=
  { s with diagnostics := s.diagnostics.push (.atToken t complaint), hadError := true }

/-- The keywords that a new statement is taken to begin with after an error. -/
def beginsStatement (kind : Kind) : Bool :=
  kind ∈ [.kwClass, .kwFun, .kwVar, .kwFor, .kwIf, .kwWhile, .kwPrint, .kwReturn]

/-- Take tokens up to a place where a statement seems to end or to begin. -/
def skip (s : State) : State :=
  let rec go (last : Option Token) (index : Nat) : List Token → State
    | [] => { s with rest := [], last, index }
    | t :: rest =>
      if last.any (·.kind = .semicolon) || beginsStatement t.kind then
        { s with rest := t :: rest, last, index }
      else
        go (some t) (index + 1) rest
  go s.last s.index s.rest

/-- Find a place to go on after a declaration that began at `start` was abandoned. If it took no
token, one is taken, so that the parser always moves on. -/
def synchronize (start : Nat) (s : State) : State :=
  (if s.index = start then s.advance else s).skip

end State

/-- The levels of binary operators, the loosest first. -/
inductive Level where
  | or | and | equality | comparison | addition | multiplication

namespace Level

/-- The operators of a level. -/
def operators : Level → List Kind
  | or => [.kwOr]
  | and => [.kwAnd]
  | equality => [.notEqual, .equal]
  | comparison => [.greater, .greaterEqual, .less, .lessEqual]
  | addition => [.minus, .plus]
  | multiplication => [.slash, .star]

/-- The level of the operands; below the tightest one they are unary expressions. -/
def next? : Level → Option Level
  | or => some and
  | and => some equality
  | equality => some comparison
  | comparison => some addition
  | addition => some multiplication
  | multiplication => none

/-- An operation of a level. -/
def join (level : Level) (left : Expr) (operator : Token) (right : Expr) : Expr :=
  match level with
  | or | and => .logical left operator right
  | _ => .binary left operator right

end Level

/-- What the parser may have to read on the way. A list in a goal holds what has been read of it so
far, in reverse. -/
inductive Goal where
  /-- Declarations up to the end. -/
  | program (read : List Stmt)
  /-- Declarations up to a closing brace or the end. -/
  | block (read : List Stmt)
  /-- One declaration, or nothing if it was abandoned. -/
  | declaration
  | statement
  | expression
  /-- Operations of a level and the tighter ones. -/
  | operation (level : Level)
  /-- What follows the left operand of a level. -/
  | operatorTail (level : Level) (left : Expr)
  | unary
  /-- The argument lists after a callee. -/
  | calls (callee : Expr)
  /-- The arguments after the first ones. -/
  | arguments (read : List Expr)
  | parameters (read : List Token)

/-- What comes of it. -/
@[reducible] def Goal.Result : Goal → Type
  | .program _ => List Stmt
  | .block _ => List Stmt
  | .declaration => Option Stmt
  | .statement => Stmt
  | .expression => Expr
  | .operation _ => Expr
  | .operatorTail _ _ => Expr
  | .unary => Expr
  | .calls _ => Expr
  | .arguments _ => List Expr
  | .parameters _ => List Token

/-- A part of the parser. -/
abbrev Parse : Type → Type :=
  Routine Goal.Result Abandoned State

namespace Parse

/-- The next token. -/
def peek : Parse Token :=
  Routine.step fun s => (.ok s.peek, s)

/-- The kind of the next token. -/
def peekKind : Parse Kind :=
  Routine.step fun s => (.ok s.peek.kind, s)

/-- Take the next token. -/
def advance : Parse Unit :=
  Routine.modify State.advance

/-- How many tokens have been taken. -/
def index : Parse Nat :=
  Routine.step fun s => (.ok s.index, s)

/-- Take the next token if it is of one of some kinds. -/
def accept? (kinds : List Kind) : Parse (Option Token) :=
  Routine.step fun s =>
    match s.rest with
    | t :: _ => if t.kind ∈ kinds then (.ok (some t), s.advance) else (.ok none, s)
    | [] => (.ok none, s)

/-- Note a complaint about a token, and go on. -/
def report (t : Token) (complaint : Complaint) : Parse Unit :=
  Routine.modify fun s => s.report t complaint

/-- Note a complaint about the next token, which begins an entry of a list, if the list has no room
for one more after the entries before it. -/
def reportBeyond (before : Nat) (complaint : Complaint) : Parse Unit :=
  Routine.modify fun s => if maxArguments ≤ before then s.report s.peek complaint else s

/-- Note a complaint about a token, unless the present place is in a function body. -/
def reportOutside (t : Token) (complaint : Complaint) : Parse Unit :=
  Routine.modify fun s => if s.depth ≠ 0 then s else s.report t complaint

/-- Complain about a token and give up. -/
def refuse {α : Type} (t : Token) (complaint : Complaint) : Parse α :=
  Routine.step fun s => (.error ⟨⟩, s.report t complaint)

/-- Take a token of the given kind, or complain about the next one and give up. -/
def expect (kind : Kind) (what : Expected) : Parse Token :=
  Routine.step fun s =>
    match s.rest with
    | t :: _ =>
      if t.kind = kind then (.ok t, s.advance) else (.error ⟨⟩, s.report t (.expected what))
    | [] => (.error ⟨⟩, s.report s.finish (.expected what))

/-- Perform `x` inside one more function body, which is left whether or not `x` is abandoned. -/
def inFunction {α : Type} (x : Parse α) : Parse α := fun s =>
  (x.ensuring fun s => { s with depth := s.depth - 1 }) { s with depth := s.depth + 1 }

/-- Read by recursion, reading inside a function body is reading one body deeper; afterwards the depth is
counted down again, also if the body was given up. -/
@[simp] theorem denote_inFunction {α : Type} (routines : (g : Goal) → Parse g.Result) (n : Nat)
    (x : Parse α) (s : State) :
    Routine.denote routines n (inFunction x) s =
      (Routine.denote routines n x { s with depth := s.depth + 1 }).map fun out =>
        (out.1, { out.2 with depth := out.2.depth - 1 }) :=
  Routine.denote_ensuring routines n x (fun t => { t with depth := t.depth - 1 })
    { s with depth := s.depth + 1 }

end Parse

end Treewalk.Grammar
