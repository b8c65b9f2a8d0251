import Treewalk.Plan.Routine
import Treewalk.Sink
import Treewalk.Store

/-!
# What a running program works on

The frames of variables, the frame in which names are looked up at present, how deeply calls are
nested, and the place for output. The frame with number `0` holds the global variables.
-/

namespace Treewalk.Evaluation

/-- The state of an interpreter. -/
structure State where
  store : Store
  /-- The frame in which names are looked up. -/
  current : FrameId
  /-- How many calls are under way. -/
  depth : Nat
  sink : Sink

/-- The frame of the global variables. -/
def globals : FrameId := 0

/-- The most calls that can be under way at once. -/
def maxCallDepth : Nat := 4096

namespace State

/-- An interpreter that has run nothing yet. -/
def initial (sink : Sink) : State :=
  ⟨Store.initial, globals, 0, sink⟩

/-- What has been printed, and the interpreter with an empty place for output that has the same
room left. -/
def takeOutput (s : State) : ByteArray × State :=
  (s.sink.written, { s with sink := Sink.empty s.sink.room })

end State

/-- How a statement ended, if it did not fail. -/
inductive Flow where
  /-- Go on with the next statement. -/
  | normal
  /-- Leave the function with a value. -/
  | returned (value : Value)

/-- What the evaluator may have to do on the way. -/
inductive Goal where
  | eval (e : Expr)
  | exec (s : Stmt)

/-- What comes of it. -/
@[reducible] def Goal.Result : Goal → Type
  | .eval _ => Value
  | .exec _ => Flow

/-- A part of the evaluator. -/
abbrev Eval : Type → Type :=
  Routine Goal.Result Fault State

namespace Eval

/-- Evaluate an expression. -/
def expr (e : Expr) : Eval Value :=
  Routine.call (Goal.eval e)

/-- Execute a statement. -/
def stmt (s : Stmt) : Eval Flow :=
  Routine.call (Goal.exec s)

/-- Fail with a fault, or go on with a value. -/
def ofExcept {α : Type} (x : Except Fault α) : Eval α :=
  Routine.step fun s => (x, s)

/-- Perform `x` with names looked up in `frame`, and come back to the present frame whether or not
`x` fails. -/
def inFrame {α : Type} (frame : FrameId) (x : Eval α) : Eval α := fun s =>
  let previous := s.current
  (x.ensuring fun s => { s with current := previous }) { s with current := frame }

/-- Perform `x` as part of one more call, which is over afterwards whether or not `x` fails. -/
def inCall {α : Type} (x : Eval α) : Eval α := fun s =>
  (x.ensuring fun s => { s with depth := s.depth - 1 }) { s with depth := s.depth + 1 }

/-- The present frame. -/
def current : Eval FrameId :=
  Routine.step fun s => (.ok s.current, s)

/-- How many calls are under way. -/
def depth : Eval Nat :=
  Routine.step fun s => (.ok s.depth, s)

/-- Create a frame. -/
def newFrame (parent : FrameId) : Eval FrameId :=
  Routine.step fun s =>
    let (frame, store) := s.store.newFrame (some parent)
    (.ok frame, { s with store })

/-- Bind a name in the present frame. -/
def define (name : String) (value : Value) : Eval Unit :=
  Routine.modify fun s => { s with store := s.store.define s.current name value }

/-- The value of a variable. -/
def get (name : Token) : Eval Value :=
  Routine.step fun s => (s.store.get s.current name, s)

/-- Give a variable a new value. -/
def assign (name : Token) (value : Value) : Eval Unit :=
  Routine.step fun s =>
    let (result, store) := s.store.assign s.current name value
    (result, { s with store })

/-- Print a value and end the line. -/
def print (keyword : Token) (value : Value) : Eval Unit :=
  Routine.step fun s =>
    let (result, sink) := s.sink.write (value.text ++ "\n").toUTF8
    (result.mapError fun _ => .output keyword, { s with sink })

/-! ## Opening the two brackets -/

variable {α : Type} (routines : (g : Goal) → Eval g.Result)

/-- Read by recursion, work in another frame is that work with this frame as the present one; afterwards
the present frame is the one from before, also after a failure. -/
@[simp] theorem denote_inFrame (n : Nat) (frame : FrameId) (x : Eval α) (s : State) :
    Routine.denote routines n (inFrame frame x) s =
      (Routine.denote routines n x { s with current := frame }).map fun out =>
        (out.1, { out.2 with current := s.current }) :=
  Routine.denote_ensuring routines n x (fun t => { t with current := s.current })
    { s with current := frame }

/-- Read by recursion, work inside a call is that work one level deeper; afterwards the level is counted
down again, also after a failure. -/
@[simp] theorem denote_inCall (n : Nat) (x : Eval α) (s : State) :
    Routine.denote routines n (inCall x) s =
      (Routine.denote routines n x { s with depth := s.depth + 1 }).map fun out =>
        (out.1, { out.2 with depth := out.2.depth - 1 }) :=
  Routine.denote_ensuring routines n x (fun t => { t with depth := t.depth - 1 })
    { s with depth := s.depth + 1 }

end Eval

end Treewalk.Evaluation
