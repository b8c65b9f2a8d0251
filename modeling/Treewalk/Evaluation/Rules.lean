import Treewalk.Evaluation.Operator
import Treewalk.Evaluation.State

/-!
# Evaluating expressions and executing statements

One routine for each form of expression and statement. Arguments are evaluated from left to right
after the callee has turned out to be a function, and counted before the depth of calls is checked.
A block and a call each have a frame of their own; a call's frame is enclosed by the frame of the
function's declaration.
-/

namespace Treewalk.Evaluation

open Routine (become fail modify)

/-- Evaluate expressions from left to right, adding to the values so far, which are in reverse. -/
def evalAll : List Expr → List Value → Eval (List Value)
  | [], values => pure values.reverse
  | e :: es, values => do
    let value ← Eval.expr e
    evalAll es (value :: values)

/-- Execute statements in order until one leaves the function. -/
def execAll : List Stmt → Eval Flow
  | [] => pure .normal
  | s :: ss => do
    match ← Eval.stmt s with
    | .normal => execAll ss
    | .returned value => pure (.returned value)

/-- Bind parameters to arguments, as long as there are both. -/
def defineAll (store : Store) (frame : FrameId) : List (Token × Value) → Store
  | [] => store
  | (param, value) :: rest => defineAll (store.define frame param.lexeme value) frame rest

/-- Execute the body of a function in a new frame that holds its arguments. The number of arguments
is not checked here: what is left over is dropped, and a parameter without an argument is not
bound. -/
def apply (f : Closure) (args : List Value) : Eval Value := do
  let frame ← Eval.newFrame f.frame
  modify fun s =>
    { s with store := defineAll s.store frame (f.declaration.params.zip args) }
  match ← Eval.inFrame frame (execAll f.declaration.body) with
  | .normal => pure .nil
  | .returned value => pure value

/-- Evaluate an expression. -/
def eval : Expr → Eval Value
  | .literal value => pure (Value.ofConstant value)
  | .grouping inner => become (Goal.eval inner)
  | .unary operator right => do
    let value ← Eval.expr right
    Eval.ofExcept (unary operator value)
  | .binary left operator right => do
    let x ← Eval.expr left
    let y ← Eval.expr right
    Eval.ofExcept (binary operator x y)
  | .logical left operator right => do
    let value ← Eval.expr left
    if decides operator value then pure value else become (Goal.eval right)
  | .variable name => Eval.get name
  | .assign name value => do
    let value ← Eval.expr value
    Eval.assign name value
    pure value
  | .call callee paren args => do
    match ← Eval.expr callee with
    | .function f =>
      let values ← evalAll args []
      if values.length ≠ f.arity then
        fail (.arityMismatch paren f.arity values.length)
      else if maxCallDepth ≤ (← Eval.depth) then
        fail (.stackOverflow paren)
      else
        Eval.inCall (apply f values)
    | _ => fail (.notCallable paren)

/-- Execute a statement. -/
def exec : Stmt → Eval Flow
  | .expression e => do
    let _ ← Eval.expr e
    pure .normal
  | .print keyword e => do
    let value ← Eval.expr e
    Eval.print keyword value
    pure .normal
  | .var name init => do
    let value ←
      match init with
      | some e => Eval.expr e
      | none => pure .nil
    Eval.define name.lexeme value
    pure .normal
  | .block body => do
    let frame ← Eval.newFrame (← Eval.current)
    Eval.inFrame frame (execAll body)
  | .ifThen condition consequent => do
    if (← Eval.expr condition).isTruthy then become (Goal.exec consequent) else pure .normal
  | .ifElse condition consequent alternative => do
    if (← Eval.expr condition).isTruthy then become (Goal.exec consequent)
    else become (Goal.exec alternative)
  | .while condition body => do
    if (← Eval.expr condition).isTruthy then
      match ← Eval.stmt body with
      | .normal => become (Goal.exec (.while condition body))
      | .returned value => pure (.returned value)
    else pure .normal
  | .function name params body => do
    modify fun s =>
      let (f, store) := s.store.newClosure ⟨name, params, body⟩ s.current
      { s with store := store.define s.current name.lexeme (.function f) }
    pure .normal
  | .return _ value => do
    let value ←
      match value with
      | some e => Eval.expr e
      | none => pure .nil
    pure (.returned value)

/-- The evaluator. -/
def rules : (g : Goal) → Eval g.Result
  | .eval e => eval e
  | .exec s => exec s

/-! ## Running programs -/

/-- Execute the statements of a program, at most `steps` steps of it. A `return` outside every
function ends the program. -/
def interpret (steps : Nat) (program : List Stmt) (s : State) : Option (Except Fault Unit × State) :=
  (Routine.run rules steps (execAll program) s).map fun (result, s) =>
    (result.map fun _ => (), s)

/-- Evaluate one expression in the present frame. -/
def evaluate (steps : Nat) (e : Expr) (s : State) : Option (Except Fault Value × State) :=
  Routine.run rules steps (eval e) s

/-- Call a function from outside: neither the number of arguments nor the depth is checked, and the
call does not count for the depth. -/
def callFunction (steps : Nat) (f : Closure) (args : List Value) (s : State) :
    Option (Except Fault Value × State) :=
  Routine.run rules steps (apply f args) s

end Treewalk.Evaluation
