import Treewalk.Fault
import Treewalk.Value

/-!
# Frames of variables

The variables of a running program live in frames. A frame has bindings of its own and, unless it is
a root, an enclosing frame in which names that it does not bind are looked up. Frames are created one
after the other and are never removed, so an enclosing frame has a smaller number than the frames
inside it, and a walk outwards comes to an end.

`definer?` finds the nearest frame that binds a name; reading and assigning are both defined by it.
-/

namespace Treewalk

/-- One scope: names with their values in the order of their definition, and the enclosing scope. -/
structure Frame where
  bindings : List (String × Value)
  parent : Option FrameId

namespace Frame

/-- The value of a name in this frame alone. -/
def find? (frame : Frame) (name : String) : Option Value :=
  frame.bindings.lookup name

/-- Whether this frame itself binds a name. -/
def binds (frame : Frame) (name : String) : Bool :=
  (frame.find? name).isSome

/-- Bind a name in a list of bindings, in place of its binding there if it has one. -/
def bind (name : String) (value : Value) : List (String × Value) → List (String × Value)
  | [] => [(name, value)]
  | (other, old) :: rest =>
    if other = name then (name, value) :: rest else (other, old) :: bind name value rest

/-- Bind a name in a frame, in place of its binding there if it has one. -/
def set (frame : Frame) (name : String) (value : Value) : Frame :=
  { frame with bindings := bind name value frame.bindings }

end Frame

/-- All frames there are, and how many identities have been given to functions. -/
structure Store where
  frames : Array Frame
  identities : Nat

namespace Store

/-- One root frame without bindings. -/
def initial : Store :=
  ⟨#[⟨[], none⟩], 0⟩

/-- Create a frame without bindings. -/
def newFrame (store : Store) (parent : Option FrameId) : FrameId × Store :=
  (store.frames.size, { store with frames := store.frames.push ⟨[], parent⟩ })

/-- The enclosing frame of a frame. -/
def parent? (store : Store) (frame : FrameId) : Option FrameId :=
  store.frames[frame]?.bind Frame.parent

/-- Whether a frame itself binds a name. -/
def binds (store : Store) (frame : FrameId) (name : String) : Bool :=
  match store.frames[frame]? with
  | some f => f.binds name
  | none => false

/-- Bind a name in a frame. -/
def define (store : Store) (frame : FrameId) (name : String) (value : Value) : Store :=
  { store with frames := store.frames.modify frame (·.set name value) }

/-- The nearest frame, from `frame` outwards, that binds a name. -/
def definer? (store : Store) (frame : FrameId) (name : String) : Option FrameId :=
  match store.frames[frame]? with
  | none => none
  | some f =>
    if f.binds name then some frame
    else
      match f.parent with
      | none => none
      | some outer => if outer < frame then store.definer? outer name else none
termination_by frame

/-- The value of a name as seen from a frame. -/
def lookup (store : Store) (frame : FrameId) (name : String) : Option Value := do
  let definer ← store.definer? frame name
  let f ← store.frames[definer]?
  f.find? name

/-- The value of the variable that a token names, as seen from a frame. -/
def get (store : Store) (frame : FrameId) (name : Token) : Except Fault Value :=
  match store.lookup frame name.lexeme with
  | some value => .ok value
  | none => .error (.undefinedVariable name)

/-- Give the variable that a token names, as seen from a frame, a new value. This never creates a
variable; if there is none, the store stays as it is. -/
def assign (store : Store) (frame : FrameId) (name : Token) (value : Value) :
    Except Fault Unit × Store :=
  match store.definer? frame name.lexeme with
  | some definer => (.ok (), store.define definer name.lexeme value)
  | none => (.error (.undefinedVariable name), store)

/-- Make a function value of a declaration, unlike every value made before. -/
def newClosure (store : Store) (declaration : Function) (frame : FrameId) : Closure × Store :=
  (⟨store.identities, declaration, frame⟩, { store with identities := store.identities + 1 })

end Store

end Treewalk
