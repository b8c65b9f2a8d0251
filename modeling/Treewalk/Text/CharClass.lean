/-!
# Classes of characters

The language is written in ASCII: letters, digits and blanks outside ASCII belong to no class, and
can stand in strings and comments only.
-/

namespace Treewalk.CharClass

/-- A letter or the underscore: what a name can start with. -/
def isNameStart (c : Char) : Bool :=
  c.isAlpha || c == '_'

/-- What a name can go on with. -/
def isNamePart (c : Char) : Bool :=
  isNameStart c || c.isDigit

/-- Space, tab, carriage return and line feed separate tokens and mean nothing else. -/
def isBlank (c : Char) : Bool :=
  c == ' ' || c == '\t' || c == '\r' || c == '\n'

end Treewalk.CharClass
