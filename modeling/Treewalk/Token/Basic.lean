import Treewalk.Position

/-!
# Tokens

A token has a kind, the text it was read from (its *lexeme*), for strings and numbers the value that
the text denotes, and the positions where it begins and ends.
-/

namespace Treewalk

/-- What a token is, as far as the grammar can tell. -/
inductive Kind where
  | leftParen | rightParen | leftBrace | rightBrace
  | comma | dot | minus | plus | semicolon | slash | star
  | not | notEqual | assign | equal | greater | greaterEqual | less | lessEqual
  | identifier | string | number
  | kwAnd | kwClass | kwElse | kwFalse | kwFor | kwFun | kwIf | kwNil | kwOr
  | kwPrint | kwReturn | kwSuper | kwThis | kwTrue | kwVar | kwWhile
  | eof
  deriving DecidableEq

namespace Kind

/-- The words that are no names. -/
def keywords : List (String × Kind) :=
  [("and", kwAnd), ("class", kwClass), ("else", kwElse), ("false", kwFalse), ("for", kwFor),
   ("fun", kwFun), ("if", kwIf), ("nil", kwNil), ("or", kwOr), ("print", kwPrint),
   ("return", kwReturn), ("super", kwSuper), ("this", kwThis), ("true", kwTrue), ("var", kwVar),
   ("while", kwWhile)]

/-- The kind of a word: that of a keyword if it is one, a name otherwise. -/
def ofWord (word : String) : Kind :=
  (keywords.lookup word).getD identifier

/-- The characters that are a token whatever follows them. -/
def ofSingle? : Char → Option Kind
  | '(' => some leftParen
  | ')' => some rightParen
  | '\x7b' => some leftBrace
  | '\x7d' => some rightBrace
  | ',' => some comma
  | '.' => some dot
  | '-' => some minus
  | '+' => some plus
  | ';' => some semicolon
  | '*' => some star
  | _ => none

/-- The characters that are one token alone and another with `=` after them. -/
def ofPair? : Char → Option (Kind × Kind)
  | '=' => some (assign, equal)
  | '!' => some (not, notEqual)
  | '>' => some (greater, greaterEqual)
  | '<' => some (less, lessEqual)
  | _ => none

end Kind

/-- The value of a string or number token. -/
inductive Literal where
  | number (value : Float)
  | string (value : String)
  deriving BEq

/-- A token of a program. -/
structure Token where
  kind : Kind
  lexeme : String
  literal : Option Literal
  start : Position
  stop : Position
  deriving BEq

namespace Token

/-- The line on which a token begins. -/
def line (t : Token) : Int :=
  t.start.line

/-- A token that no text was read for: it has no value and no width, at the head of a line. -/
def synthetic (kind : Kind) (lexeme : String) (line : Int) : Token :=
  ⟨kind, lexeme, none, ⟨line, 1⟩, ⟨line, 1⟩⟩

end Token

end Treewalk
