import Treewalk.Evaluation.Rules
import Treewalk.Proofs.Plan.Contract

/-!
# The present frame and the depth of calls are restored

A block and a call change the frame in which names are looked up, and a call counts for the depth.
Both changes are undone on every way out: at the end, by a `return`, and by a fault that is raised
anywhere inside. `Eval.Steady` says this of one routine and is closed under all ways in which
routines are put together; a case for each form of expression and statement then makes it a contract
that the evaluator keeps (`control_keeps`). The depth is bounded from both sides at the same time:
the contract also says in which states goals may be called.

## Main statement

`control_restored`: it holds of statements, expressions, blocks and whole programs, and hence of a
session of programs on one interpreter.
-/

namespace Treewalk.Evaluation

open Routine (call become fail modify)

/-- The same frame is the present one, and as many calls are under way. -/
def State.SameControl (s t : State) : Prop :=
  t.current = s.current ∧ t.depth = s.depth

/-- What is restored twice is restored. -/
theorem State.SameControl.trans {s t u : State} (h : s.SameControl t) (h' : t.SameControl u) :
    s.SameControl u :=
  ⟨h'.1.trans h.1, h'.2.trans h.2⟩

/-- Goals are called at depths from `d` to the greatest one, and leave frame and depth as they
were. -/
def control (d : Nat) : Routine.Contract Goal.Result Fault State where
  pre q := d ≤ q.2.depth ∧ q.2.depth ≤ maxCallDepth
  post q out := q.2.SameControl out.2

namespace Eval

variable {α β : Type} {d : Nat}

/-- A routine keeps frame and depth from every state whose depth is in range. -/
def Steady (d : Nat) (x : Eval α) : Prop :=
  ∀ s, d ≤ s.depth → s.depth ≤ maxCallDepth →
    x.Meets (control d) s fun out => s.SameControl out.2

/-! ## Putting steady routines together -/

/-- What is pure changes no state. -/
theorem steady_pure (a : α) : Steady d (pure a) :=
  fun _ _ _ => ⟨rfl, rfl⟩

/-- A failure changes no state. -/
theorem steady_fail (e : Fault) : Steady d (fail e : Eval α) :=
  fun _ _ _ => ⟨rfl, rfl⟩

/-- A goal that is called restores frame and depth, as the contract says. -/
theorem steady_call (g : Goal) : Steady d (call g) :=
  fun _ h₁ h₂ => ⟨⟨h₁, h₂⟩, fun _ h => h⟩

/-- So does a goal that is become. -/
theorem steady_become (g : Goal) : Steady d (become g) :=
  fun _ h₁ h₂ => ⟨⟨h₁, h₂⟩, fun _ h => h⟩

/-- A step is steady if it leaves frame and depth alone. -/
theorem steady_step {f : State → Except Fault α × State} (hf : ∀ s : State, s.SameControl (f s).2) :
    Steady d (Routine.step f) :=
  fun s _ _ => hf s

/-- A change of the state is steady if it leaves frame and depth alone. -/
theorem steady_modify {f : State → State} (hf : ∀ s : State, s.SameControl (f s)) :
    Steady d (modify f) :=
  fun s _ _ => hf s

/-- Steady routines one after the other are steady, also if the first fails. -/
theorem steady_bind {x : Eval α} {f : α → Eval β} (hx : Steady d x) (hf : ∀ a, Steady d (f a)) :
    Steady d (x >>= f) := by
  intro s h₁ h₂
  rw [Routine.meets_bind]
  refine (hx s h₁ h₂).mono ?_
  rintro ⟨e | a, t⟩ hs
  · exact hs
  · -- the rest starts where `x` has ended, at the same depth
    have ht : t.depth = s.depth := hs.2
    exact (hf a t (ht ▸ h₁) (ht ▸ h₂)).mono fun _ h => hs.trans h

/-- A frame that is entered is left again. -/
theorem steady_inFrame (frame : FrameId) {x : Eval α} (hx : Steady d x) :
    Steady d (inFrame frame x) := by
  intro s h₁ h₂
  refine (Routine.meets_ensuring (control d) x (fun t => { t with current := s.current })
    { s with current := frame }).2 ?_
  refine (hx { s with current := frame } h₁ h₂).mono ?_
  intro out hout
  exact ⟨rfl, hout.2⟩

/-- A call that is not one too many counts while it lasts and no longer. -/
theorem meets_inCall {x : Eval α} (hx : Steady d x) (s : State) (h₁ : d ≤ s.depth)
    (h₂ : s.depth < maxCallDepth) :
    (inCall x).Meets (control d) s fun out => s.SameControl out.2 := by
  refine (Routine.meets_ensuring (control d) x (fun t => { t with depth := t.depth - 1 })
    { s with depth := s.depth + 1 }).2 ?_
  refine (hx { s with depth := s.depth + 1 } (Nat.le_succ_of_le h₁) h₂).mono ?_
  intro out hout
  refine ⟨hout.1, ?_⟩
  show out.2.depth - 1 = s.depth
  rw [hout.2]
  exact Nat.add_sub_cancel s.depth 1

/-! ## The steps that call no goal -/

/-- Evaluating an expression is calling its goal. -/
theorem steady_expr (e : Expr) : Steady d (expr e) :=
  steady_call _

/-- Executing a statement is calling its goal. -/
theorem steady_stmt (s : Stmt) : Steady d (stmt s) :=
  steady_call _

/-- A result that is a failure or not changes no state. -/
theorem steady_ofExcept (x : Except Fault α) : Steady d (ofExcept x) :=
  steady_step fun _ => ⟨rfl, rfl⟩

/-- Looking at the present frame leaves it alone. -/
theorem steady_current : Steady d current :=
  steady_step fun _ => ⟨rfl, rfl⟩

/-- Creating a frame does not enter it. -/
theorem steady_newFrame (parent : FrameId) : Steady d (newFrame parent) :=
  steady_step fun _ => ⟨rfl, rfl⟩

/-- A declaration changes the contents of the present frame, not which one it is. -/
theorem steady_define (name : String) (value : Value) : Steady d (define name value) :=
  steady_modify fun _ => ⟨rfl, rfl⟩

/-- Reading a variable changes nothing. -/
theorem steady_get (name : Token) : Steady d (get name) :=
  steady_step fun _ => ⟨rfl, rfl⟩

/-- An assignment changes the contents of some frame only. -/
theorem steady_assign (name : Token) (value : Value) : Steady d (assign name value) :=
  steady_step fun _ => ⟨rfl, rfl⟩

/-- A write that does not fit changes the place for output only. -/
theorem steady_print (keyword : Token) (value : Value) : Steady d (print keyword value) :=
  steady_step fun _ => ⟨rfl, rfl⟩

end Eval

/-! ## Every routine of the evaluator is steady -/

open Eval

variable {d : Nat}

/-- Arguments leave frame and depth as they were, each of them. -/
theorem steady_evalAll (es : List Expr) (values : List Value) : Steady d (evalAll es values) := by
  induction es generalizing values with
  | nil => exact steady_pure _
  | cons e es ih => exact steady_bind (steady_expr e) fun value => ih _

/-- So do statements, also where one of them returns. -/
theorem steady_execAll (body : List Stmt) : Steady d (execAll body) := by
  induction body with
  | nil => exact steady_pure _
  | cons s ss ih =>
    refine steady_bind (steady_stmt s) fun flow => ?_
    cases flow with
    | normal => exact ih
    | returned value => exact steady_pure _

/-- A function works in a frame of its own and comes back from it. -/
theorem steady_apply (f : Closure) (args : List Value) : Steady d (apply f args) := by
  refine steady_bind (steady_newFrame _) fun frame => ?_
  refine steady_bind (steady_modify fun _ => ⟨rfl, rfl⟩) fun _ => ?_
  refine steady_bind (steady_inFrame frame (steady_execAll _)) fun flow => ?_
  cases flow with
  | normal => exact steady_pure _
  | returned value => exact steady_pure _

/-- What is done with a function and its arguments: they are counted, then the depth is checked, and
only then is the call entered. -/
theorem steady_enter (f : Closure) (paren : Token) (values : List Value) :
    Steady d (do
      if values.length ≠ f.arity then
        fail (.arityMismatch paren f.arity values.length)
      else if maxCallDepth ≤ (← Eval.depth) then
        fail (.stackOverflow paren)
      else
        inCall (apply f values)) := by
  by_cases harity : values.length ≠ f.arity
  · simp only [if_pos harity]
    exact steady_fail _
  · simp only [if_neg harity]
    intro s h₁ h₂
    rw [Routine.meets_bind]
    show Routine.Meets (control d) (if maxCallDepth ≤ s.depth then _ else _) s _
    by_cases hdepth : maxCallDepth ≤ s.depth
    · rw [if_pos hdepth]
      exact steady_fail _ s h₁ h₂
    · rw [if_neg hdepth]
      exact meets_inCall (steady_apply f values) s h₁ (Nat.lt_of_not_le hdepth)

/-- Every form of expression is steady. Only calls count for the depth. -/
theorem steady_eval (e : Expr) : Steady d (eval e) := by
  cases e with
  | literal value => exact steady_pure _
  | grouping inner => exact steady_become _
  | unary operator right => exact steady_bind (steady_expr _) fun _ => steady_ofExcept _
  | binary left operator right =>
    exact steady_bind (steady_expr _) fun _ => steady_bind (steady_expr _) fun _ =>
      steady_ofExcept _
  | logical left operator right =>
    refine steady_bind (steady_expr _) fun value => ?_
    by_cases h : decides operator value
    · simp only [if_pos h]
      exact steady_pure _
    · simp only [if_neg h]
      exact steady_become _
  | «variable» name => exact steady_get _
  | assign name value =>
    exact steady_bind (steady_expr _) fun _ => steady_bind (steady_assign _ _) fun _ =>
      steady_pure _
  | call callee paren args =>
    refine steady_bind (steady_expr _) fun value => ?_
    cases value with
    | function f => exact steady_bind (steady_evalAll args []) fun values => steady_enter f paren values
    | _ => exact steady_fail _

/-- Every form of statement is steady. Only blocks enter another frame. -/
theorem steady_exec (st : Stmt) : Steady d (exec st) := by
  cases st with
  | expression e => exact steady_bind (steady_expr _) fun _ => steady_pure _
  | print keyword e =>
    exact steady_bind (steady_expr _) fun _ => steady_bind (steady_print _ _) fun _ =>
      steady_pure _
  | var name init =>
    cases init with
    | some e =>
      exact steady_bind (steady_expr e) fun _ => steady_bind (steady_define _ _) fun _ =>
        steady_pure _
    | none =>
      exact steady_bind (steady_pure _) fun _ => steady_bind (steady_define _ _) fun _ =>
        steady_pure _
  | block body =>
    exact steady_bind steady_current fun _ => steady_bind (steady_newFrame _) fun _ =>
      steady_inFrame _ (steady_execAll body)
  | ifThen condition consequent =>
    refine steady_bind (steady_expr _) fun value => ?_
    by_cases h : value.isTruthy
    · simp only [if_pos h]
      exact steady_become _
    · simp only [if_neg h]
      exact steady_pure _
  | ifElse condition consequent alternative =>
    refine steady_bind (steady_expr _) fun value => ?_
    by_cases h : value.isTruthy
    · simp only [if_pos h]
      exact steady_become _
    · simp only [if_neg h]
      exact steady_become _
  | «while» condition body =>
    refine steady_bind (steady_expr _) fun value => ?_
    by_cases h : value.isTruthy
    · simp only [if_pos h]
      refine steady_bind (steady_stmt body) fun flow => ?_
      cases flow with
      | normal => exact steady_become _
      | returned value => exact steady_pure _
    · simp only [if_neg h]
      exact steady_pure _
  | function name params body =>
    exact steady_bind (steady_modify fun _ => ⟨rfl, rfl⟩) fun _ => steady_pure _
  | «return» keyword value =>
    cases value with
    | some e => exact steady_bind (steady_expr e) fun _ => steady_pure _
    | none => exact steady_bind (steady_pure _) fun _ => steady_pure _

/-- The evaluator keeps the contract: goals are put at depths within the bounds, and restore frame and
depth. -/
theorem control_keeps (d : Nat) : Routine.Keeps rules (control d)
  | .eval e, s, h => steady_eval e s h.1 h.2
  | .exec st, s, h => steady_exec st s h.1 h.2

/-! ## What this means for runs -/

/-- However a run of a routine ends, frame and depth are as they were before it; and whatever
expression is evaluated or statement executed on the way, also in a run that does not end, is begun
at a depth between the one before the run and the greatest. -/
def Eval.Restores {α : Type} (x : Eval α) : Prop :=
  ∀ s : State, s.depth ≤ maxCallDepth →
    (∀ steps result t, Routine.run rules steps x s = some (result, t) → s.SameControl t) ∧
    ∀ g t, Plan.Puts (Routine.rulesOf rules) (x s) (g, t) →
      s.depth ≤ t.depth ∧ t.depth ≤ maxCallDepth

/-- A steady routine restores frame and depth in every run, and puts its goals at depths between that of
the start and the bound. -/
theorem restores_of_steady {α : Type} {x : Eval α} (hx : ∀ d, Steady d x) : x.Restores := by
  intro s hs
  have hmeets := hx s.depth s (Nat.le_refl _) hs
  constructor
  · intro steps result t h
    exact (control_keeps s.depth).post_of_value hmeets (Routine.value_of_run rules h)
  · intro g t h
    exact Plan.Contract.pre_of_puts (fun q => control_keeps s.depth q.1 q.2) hmeets h

/-- The states of an interpreter that has run some programs, each to its end or to a fault. -/
inductive Session (sink : Sink) : State → Prop where
  | start : Session sink (.initial sink)
  | run {s t : State} {steps : Nat} {program : List Stmt} {result : Except Fault Unit}
      (h : Session sink s) (hrun : interpret steps program s = some (result, t)) : Session sink t

/-- A program restores frame and depth, however it ends. -/
theorem sameControl_of_interpret {s t : State} (hs : s.depth ≤ maxCallDepth) {steps : Nat}
    {program : List Stmt} {result : Except Fault Unit}
    (h : interpret steps program s = some (result, t)) : s.SameControl t := by
  unfold interpret at h
  rw [Option.map_eq_some_iff] at h
  obtain ⟨⟨flow, u⟩, hrun, hout⟩ := h
  cases hout
  exact (restores_of_steady (fun _ => steady_execAll program) s hs).1 steps flow _ hrun

/-- Whatever programs an interpreter has run, it is in its outermost frame with no call under way. -/
theorem sameControl_of_session {sink : Sink} {s : State} (h : Session sink s) :
    (State.initial sink).SameControl s := by
  induction h with
  | start => exact ⟨rfl, rfl⟩
  | @run s t steps program result _ hrun ih =>
    have hdepth : s.depth ≤ maxCallDepth := by
      rw [ih.2]
      exact Nat.zero_le _
    exact ih.trans (sameControl_of_interpret hdepth hrun)

/-- **Control is restored on every outcome**: by every statement and every expression, in every
frame by every list of statements, and by every program; and after any number of programs, failed or
not, the global frame is the present one and no call is under way. -/
theorem control_restored :
    (∀ st : Stmt, (exec st).Restores) ∧
    (∀ e : Expr, (eval e).Restores) ∧
    (∀ (frame : FrameId) (body : List Stmt), (inFrame frame (execAll body)).Restores) ∧
    (∀ program : List Stmt, (execAll program).Restores) ∧
    (∀ (steps : Nat) (program : List Stmt) (s t : State) (result : Except Fault Unit),
      s.depth ≤ maxCallDepth → interpret steps program s = some (result, t) → s.SameControl t) ∧
    ∀ (sink : Sink) (s : State), Session sink s → s.current = globals ∧ s.depth = 0 := by
  refine ⟨fun st => restores_of_steady fun _ => steady_exec st,
    fun e => restores_of_steady fun _ => steady_eval e,
    fun frame body => restores_of_steady fun _ => steady_inFrame frame (steady_execAll body),
    fun program => restores_of_steady fun _ => steady_execAll program, ?_, ?_⟩
  · intro steps program s t result hs h
    exact sameControl_of_interpret hs h
  · intro sink s h
    exact sameControl_of_session h

end Treewalk.Evaluation
