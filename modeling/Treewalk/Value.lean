import Treewalk.Number.Style
import Treewalk.Tree.Basic

/-!
# Values

What expressions evaluate to. A function value is a declaration together with the frame it was
declared in; it also has an identity, given out once each time a declaration is executed, and two
function values are equal only if they have the same identity.
-/

namespace Treewalk

/-- A frame of variables is known by its number in the store. -/
abbrev FrameId := Nat

/-- A function together with the frame it was declared in. -/
structure Closure where
  /-- Tells this function from all others. -/
  identity : Nat
  declaration : Function
  /-- Where the free variables of the body are looked up. -/
  frame : FrameId

namespace Closure

/-- The name in the declaration. -/
def name (f : Closure) : String :=
  f.declaration.name.lexeme

/-- How many arguments the function takes. -/
def arity (f : Closure) : Nat :=
  f.declaration.arity

end Closure

/-- A value of the language. -/
inductive Value where
  | nil
  | boolean (value : Bool)
  | number (value : Float)
  | string (value : String)
  | function (value : Closure)

namespace Value

/-- The value of a literal. -/
def ofConstant : Constant → Value
  | .nil => nil
  | .boolean b => boolean b
  | .number x => number x
  | .string s => string s

/-- Only `nil` and `false` count as false. -/
def isTruthy : Value → Bool
  | nil => false
  | boolean b => b
  | _ => true

/-- Values of different types are never equal, numbers are compared as numbers, and functions by
their identity. -/
def equals : Value → Value → Bool
  | nil, nil => true
  | boolean a, boolean b => a == b
  | number a, number b => a == b
  | string a, string b => a == b
  | function f, function g => f.identity == g.identity
  | _, _ => false

/-- A value as it is printed. -/
def text : Value → String
  | nil => "nil"
  | boolean true => "true"
  | boolean false => "false"
  | number x => Number.valueStyle.text x
  | string s => s
  | function f => "<fn " ++ f.name ++ ">"

/-- A value as it is printed, but a string between quotes. -/
def quotedText : Value → String
  | string s => "\"" ++ s ++ "\""
  | v => v.text

end Value

end Treewalk
