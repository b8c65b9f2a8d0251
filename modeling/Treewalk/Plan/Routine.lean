import Treewalk.Plan.Stack

/-!
# Routines: plans over a state that may fail

A `Routine` works on a state `σ`, ends with a result or with an error `ε`, and may have goals
`g : G` attended to on the way, each with a result of its own type `R g`. The state survives an
error: what was done before the failure stays done. Given a routine for every goal, a routine can be
run step by step (`Routine.run`) or read as an ordinary recursive function of bounded depth
(`Routine.denote`).

## Main statements

`Routine.exists_run_iff` joins the two readings, and the `denote_` equations open the second one,
so that no proof about a set of routines has to mention plans or stacks.
-/

namespace Treewalk

/-- What comes back from a goal that was put in some state: how it ended, and the state then. -/
abbrev Reply {G : Type} (R : G → Type) (ε σ : Type) (q : G × σ) : Type :=
  Except ε (R q.1) × σ

/-- A stateful computation of an `α` that may fail with an `ε` and may call goals. -/
def Routine {G : Type} (R : G → Type) (ε σ α : Type) : Type :=
  σ → Plan (Reply R ε σ) (Except ε α × σ)

namespace Routine

variable {G : Type} {R : G → Type} {ε σ α β : Type}

/-- End with a result. -/
def ok (a : α) : Routine R ε σ α := fun s => .done (.ok a, s)

/-- End with an error. -/
def fail (e : ε) : Routine R ε σ α := fun s => .done (.error e, s)

/-- First `x`, then `f` on its result; an error of `x` ends both. -/
def bind (x : Routine R ε σ α) (f : α → Routine R ε σ β) : Routine R ε σ β := fun s =>
  (x s).bind fun
    | (.ok a, s') => f a s'
    | (.error e, s') => .done (.error e, s')

/-- Routines in sequence: the state of the first is handed to the second, unless the first fails. -/
instance : Monad (Routine R ε σ) where
  pure := ok
  bind := bind

/-- The current state. -/
def get : Routine R ε σ σ := fun s => .done (.ok s, s)

/-- Change the state. -/
def modify (f : σ → σ) : Routine R ε σ Unit := fun s => .done (.ok (), f s)

/-- A step that calls no goal. -/
def step (f : σ → Except ε α × σ) : Routine R ε σ α := fun s => .done (f s)

/-- Have a goal attended to and go on with its result. -/
def call (g : G) : Routine R ε σ (R g) := fun s => .ask (g, s) .done

/-- End as the goal `g` ends. Nothing of the present routine is kept waiting for it. -/
def become (g : G) : Routine R ε σ (R g) := fun s => .pass (g, s) rfl

/-- Perform `x`, then `restore` the state, whether or not `x` failed. -/
def ensuring (x : Routine R ε σ α) (restore : σ → σ) : Routine R ε σ α := fun s =>
  (x s).bind fun out => .done (out.1, restore out.2)

/-- Perform `x` and go on with how it ended; this never fails itself. -/
def attempt (x : Routine R ε σ α) : Routine R ε σ (Except ε α) := fun s =>
  (x s).bind fun out => .done (.ok out.1, out.2)

/-! ## The two readings -/

/-- A routine for every goal, as rules for the questions "this goal, in this state". -/
def rulesOf (routines : (g : G) → Routine R ε σ (R g)) (q : G × σ) :
    Plan (Reply R ε σ) (Reply R ε σ q) :=
  routines q.1 q.2

/-- Perform at most `steps` steps of a routine. -/
def run (routines : (g : G) → Routine R ε σ (R g)) (steps : Nat) (x : Routine R ε σ α) (s : σ) :
    Option (Except ε α × σ) :=
  Plan.run (rulesOf routines) steps (x s) .nil

/-- A routine as a recursive function, the goals it calls nested at most `depth` deep. -/
def denote (routines : (g : G) → Routine R ε σ (R g)) (depth : Nat) (x : Routine R ε σ α) (s : σ) :
    Option (Except ε α × σ) :=
  (x s).eval (Plan.answer (rulesOf routines) depth)

variable (routines : (g : G) → Routine R ε σ (R g))

/-- Steps and recursion agree on the outcome and on the state after it. -/
theorem exists_run_iff (x : Routine R ε σ α) (s : σ) (out : Except ε α × σ) :
    (∃ n, run routines n x s = some out) ↔ ∃ n, denote routines n x s = some out :=
  Plan.exists_run_iff (rulesOf routines) (x s) out

/-- More steps keep the outcome of a run. -/
theorem run_mono {n m : Nat} (hnm : n ≤ m) {x : Routine R ε σ α} {s : σ} {out : Except ε α × σ}
    (h : run routines n x s = some out) : run routines m x s = some out :=
  Plan.run_mono (rulesOf routines) hnm _ _ h

/-- More depth keeps the outcome of the recursive reading. -/
theorem denote_mono {n m : Nat} (hnm : n ≤ m) {x : Routine R ε σ α} {s : σ}
    {out : Except ε α × σ} (h : denote routines n x s = some out) :
    denote routines m x s = some out :=
  Plan.eval_mono (fun q _ hr => Plan.answer_mono (rulesOf routines) hnm q hr) _ h

/-! ## Opening `denote` -/

/-- Ending with a result leaves the state as it is. -/
@[simp] theorem denote_ok (n : Nat) (a : α) (s : σ) :
    denote routines n (ok a) s = some (.ok a, s) := rfl

/-- What is pure ends at once with a result, in the state it began in. -/
@[simp] theorem denote_pure (n : Nat) (a : α) (s : σ) :
    denote routines n (pure a) s = some (.ok a, s) := rfl

/-- A failure ends at once, in the state it began in. -/
@[simp] theorem denote_fail (n : Nat) (e : ε) (s : σ) :
    denote routines n (fail e : Routine R ε σ α) s = some (.error e, s) := rfl

/-- Looking at the state does not change it. -/
@[simp] theorem denote_get (n : Nat) (s : σ) :
    denote routines n get s = some (.ok s, s) := rfl

/-- A change of the state always succeeds. -/
@[simp] theorem denote_modify (n : Nat) (f : σ → σ) (s : σ) :
    denote routines n (modify f) s = some (.ok (), f s) := rfl

/-- A step that calls no goal has the outcome that it is given by. -/
@[simp] theorem denote_step (n : Nat) (f : σ → Except ε α × σ) (s : σ) :
    denote routines n (step f) s = some (f s) := rfl

/-- In a sequence the second part starts in the state that the first leaves, and only if that did not
fail. -/
@[simp] theorem denote_bind (n : Nat) (x : Routine R ε σ α) (f : α → Routine R ε σ β) (s : σ) :
    denote routines n (x >>= f) s =
      (denote routines n x s).bind fun
        | (.ok a, s') => denote routines n (f a) s'
        | (.error e, s') => some (.error e, s') := by
  show ((x s).bind _).eval _ = _
  rw [Plan.eval_bind]
  unfold denote
  congr 1
  funext ⟨r, s'⟩
  cases r <;> rfl

/-- The state is restored after a result and after an error alike. -/
@[simp] theorem denote_ensuring (n : Nat) (x : Routine R ε σ α) (restore : σ → σ) (s : σ) :
    denote routines n (x.ensuring restore) s =
      (denote routines n x s).map fun out => (out.1, restore out.2) := by
  show ((x s).bind _).eval _ = _
  rw [Plan.eval_bind]
  unfold denote
  cases (x s).eval _ <;> rfl

/-- How an attempt ended is its result, and the state is the one that the attempt has left. -/
@[simp] theorem denote_attempt (n : Nat) (x : Routine R ε σ α) (s : σ) :
    denote routines n x.attempt s =
      (denote routines n x s).map fun out => (.ok out.1, out.2) := by
  show ((x s).bind _).eval _ = _
  rw [Plan.eval_bind]
  unfold denote
  cases (x s).eval _ <;> rfl

/-- At depth zero no goal can be called. -/
@[simp] theorem denote_call_zero (g : G) (s : σ) :
    denote routines 0 (call g) s = none := rfl

/-- A goal that is called is performed by its routine, one level deeper. -/
@[simp] theorem denote_call_succ (n : Nat) (g : G) (s : σ) :
    denote routines (n + 1) (call g) s = denote routines n (routines g) s := by
  show (Plan.ask (g, s) _).eval _ = _
  rw [Plan.eval_ask, Plan.answer_succ]
  exact Option.bind_fun_some _

/-- Becoming a goal and calling it are read the same; they differ only in what the running stack keeps. -/
@[simp] theorem denote_become (n : Nat) (g : G) (s : σ) :
    denote routines n (become g) s = denote routines n (call g) s := by
  show (Plan.pass (g, s) rfl).eval _ = (Plan.ask (g, s) _).eval _
  rw [Plan.eval_pass, Plan.eval_ask]
  exact (Option.bind_fun_some _).symm

end Routine

end Treewalk
