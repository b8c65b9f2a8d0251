/-!
# Positions in a text

Lines and columns are counted from one, and columns count characters. They are integers, because a
token that was not read from a text can be given any line.

A counter of 32 bits has room for the lines and columns of a text with fewer than `2 ^ 31 - 1` characters,
where it is the integer that stands here. Where lines and columns themselves are stated, this is asked of the
texts (`Position.Counts`).
-/

namespace Treewalk

/-- A place between two characters of a text. -/
structure Position where
  line : Int
  column : Int
  deriving DecidableEq

namespace Position

/-- Before the first character. -/
def start : Position := ⟨1, 1⟩

/-- The position after a character that stands at `p`. -/
def advance (p : Position) (c : Char) : Position :=
  if c = '\n' then ⟨p.line + 1, 1⟩ else ⟨p.line, p.column + 1⟩

end Position

end Treewalk
