import Treewalk.Plan.Basic

/-!
# Running plans with a stack of continuations

`Plan.run` answers the questions of a plan one step at a time and keeps what is still to be done on
a `Stack`. It calls itself only in tail position, so the depth of the recursion that the rules
describe never becomes depth of the machine stack.

## Main statements

* `Plan.run_mono`: more steps keep every result;
* `Plan.exists_run_iff`: a plan has a result in some number of steps exactly if it has that result
  when its questions are answered by recursion to some depth (`Plan.answer`).
-/

namespace Treewalk.Plan

variable {Q : Type} {A : Q → Type} {α β ω : Type}

/-- What waits for an `α` in order to produce an `ω`: a list of continuations, innermost first. -/
inductive Stack {Q : Type} (A : Q → Type) (ω : Type) : Type → Type 1 where
  /-- The value is the result. -/
  | nil : Stack A ω ω
  /-- The value goes to `k`, and the result of that to the rest. -/
  | push {α β : Type} (k : α → Plan A β) (rest : Stack A ω β) : Stack A ω α

/-- Perform at most `steps` steps of a plan whose result goes to a stack. -/
def run (rules : (q : Q) → Plan A (A q)) (steps : Nat) {α : Type} (p : Plan A α)
    (stack : Stack A ω α) : Option ω :=
  match steps, p, stack with
  | 0, _, _ => none
  | _ + 1, done a, .nil => some a
  | n + 1, done a, .push k rest => run rules n (k a) rest
  | n + 1, ask q k, stack => run rules n (rules q) (.push k stack)
  | n + 1, pass q h, stack => run rules n (cast (congrArg (Plan A) h) (rules q)) stack

/-! ## More steps -/

/-- One step more keeps a result, whatever waits on the stack. -/
theorem run_mono_succ (rules : (q : Q) → Plan A (A q)) (n : Nat) {α : Type} (p : Plan A α)
    (stack : Stack A ω α) {w : ω} (h : run rules n p stack = some w) :
    run rules (n + 1) p stack = some w := by
  induction n generalizing α with
  | zero => simp [run] at h
  | succ n ih =>
    cases p with
    | done a =>
      cases stack with
      | nil => simpa [run] using h
      | push k rest => rw [run] at h ⊢; exact ih _ _ h
    | ask q k => rw [run] at h ⊢; exact ih _ _ h
    | pass q e => rw [run] at h ⊢; exact ih _ _ h

/-- More steps keep every result. -/
theorem run_mono (rules : (q : Q) → Plan A (A q)) {n m : Nat} (hnm : n ≤ m) (p : Plan A α)
    (stack : Stack A ω α) {w : ω} (h : run rules n p stack = some w) :
    run rules m p stack = some w := by
  induction hnm with
  | refl => exact h
  | step _ ih => exact run_mono_succ rules _ p stack ih

/-! ## Steps and depth -/

/-- The result of a stack on a value, its questions answered to depth `n`. -/
def Stack.feed (reply : (q : Q) → Option (A q)) : {α : Type} → Stack A ω α → α → Option ω
  | _, .nil, a => some a
  | _, .push k rest, a => ((k a).eval reply).bind (rest.feed reply)

/-- More replies keep the result of a stack. -/
theorem Stack.feed_mono {reply reply' : (q : Q) → Option (A q)}
    (hle : ∀ q r, reply q = some r → reply' q = some r) {α : Type} (stack : Stack A ω α) {a : α}
    {w : ω} (h : stack.feed reply a = some w) : stack.feed reply' a = some w := by
  induction stack with
  | nil => exact h
  | push k rest ih =>
    rw [Stack.feed, Option.bind_eq_some_iff] at h
    obtain ⟨b, hb, h⟩ := h
    rw [Stack.feed, eval_mono hle _ hb]
    exact ih h

/-- A result reached by steps is reached by recursion. -/
theorem exists_answer_of_run (rules : (q : Q) → Plan A (A q)) (n : Nat) {α : Type} (p : Plan A α)
    (stack : Stack A ω α) {w : ω} (h : run rules n p stack = some w) :
    (p.eval (answer rules n)).bind (stack.feed (answer rules n)) = some w := by
  induction n generalizing α with
  | zero => simp [run] at h
  | succ n ih =>
    have up : ∀ q r, answer rules n q = some r → answer rules (n + 1) q = some r :=
      fun q r => answer_mono_succ rules n q
    cases p with
    | done a =>
      cases stack with
      | nil => simpa [run, Stack.feed] using h
      | push k rest =>
        rw [run] at h
        have h := ih _ _ h
        rw [Option.bind_eq_some_iff] at h
        obtain ⟨b, hb, h⟩ := h
        simp [Stack.feed, eval_mono up _ hb, Stack.feed_mono up _ h]
    | ask q k =>
      rw [run] at h
      have h := ih _ _ h
      rw [Option.bind_eq_some_iff] at h
      obtain ⟨r, hr, h⟩ := h
      rw [Stack.feed, Option.bind_eq_some_iff] at h
      obtain ⟨a, ha, h⟩ := h
      rw [eval_ask, answer_succ, hr]
      simp [eval_mono up _ ha, Stack.feed_mono up _ h]
    | pass q e =>
      cases e
      rw [run] at h
      have h := ih _ _ h
      rw [Option.bind_eq_some_iff] at h
      obtain ⟨r, hr, h⟩ := h
      rw [eval_pass, answer_succ]
      simp only [cast_eq] at hr
      rw [hr]
      exact Stack.feed_mono up _ h

/-- A result reached by recursion is handed to the stack after finitely many steps. -/
theorem exists_run_of_answer (rules : (q : Q) → Plan A (A q)) (n : Nat) {α : Type} (p : Plan A α)
    {a : α} (h : p.eval (answer rules n) = some a) :
    ∃ c, ∀ {ω : Type} (m : Nat) (stack : Stack A ω α),
      run rules (m + 1 + c) p stack = run rules (m + 1) (done a) stack := by
  induction n generalizing α with
  | zero =>
    cases p with
    | done b => cases h; exact ⟨0, fun _ _ => rfl⟩
    | ask q k => simp at h
    | pass q e => cases e; simp [eval_pass] at h
  | succ n ih =>
    induction p generalizing a with
    | done b => cases h; exact ⟨0, fun _ _ => rfl⟩
    | ask q k ihk =>
      rw [eval_ask, Option.bind_eq_some_iff] at h
      obtain ⟨r, hr, h⟩ := h
      obtain ⟨c₁, h₁⟩ := ih (rules q) hr
      obtain ⟨c₂, h₂⟩ := ihk r h
      refine ⟨c₂ + 1 + c₁ + 1, fun m stack => ?_⟩
      rw [show m + 1 + (c₂ + 1 + c₁ + 1) = (m + 1 + c₂ + 1 + c₁) + 1 by omega, run, h₁, run, h₂]
    | pass q e =>
      cases e
      rw [eval_pass] at h
      obtain ⟨c, hc⟩ := ih (rules q) h
      refine ⟨c + 1, fun m stack => ?_⟩
      rw [show m + 1 + (c + 1) = (m + 1 + c) + 1 by omega, run]
      exact hc m stack

/-- Steps and recursion agree: a plan reaches a result in some number of steps exactly if it
has that result when its questions are answered by recursion. -/
theorem exists_run_iff (rules : (q : Q) → Plan A (A q)) (p : Plan A α) (a : α) :
    (∃ n, run rules n p .nil = some a) ↔ ∃ n, p.eval (answer rules n) = some a := by
  constructor
  · rintro ⟨n, h⟩
    have h := exists_answer_of_run rules n p .nil h
    rw [Option.bind_eq_some_iff] at h
    obtain ⟨b, hb, h⟩ := h
    cases h
    exact ⟨n, hb⟩
  · rintro ⟨n, h⟩
    obtain ⟨c, hc⟩ := exists_run_of_answer rules n p h
    exact ⟨0 + 1 + c, by rw [hc]; rfl⟩

end Treewalk.Plan
