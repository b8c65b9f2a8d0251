/-!
# Plans: recursive calls as data

A recursive function that must not use the machine stack is written here as a set of *rules*: for
each question `q` a `Plan` that either is done, or asks another question and goes on with the
reply, or hands over to another question altogether. The same rules then have two readings, and
`Treewalk.Plan.Stack` proves that they agree:

* `Plan.answer` replies to each question by structural recursion on a bound for the depth of the
  questions; it is the reading to reason about;
* `Plan.run` keeps the pending continuations on a list of its own; it is the reading that runs,
  because twenty thousand nested questions only make that list longer.

## Main statements

`Plan.eval_bind` (the reading of a sequence is the sequence of the readings) and
`Plan.answer_mono` (a larger bound keeps every reply).
-/

namespace Treewalk

/-- A computation of an `α` that may put questions `q : Q`, whose replies have type `A q`. -/
inductive Plan {Q : Type} (A : Q → Type) (α : Type) : Type where
  /-- The result is known. -/
  | done (a : α)
  /-- Put a question and go on with its reply. -/
  | ask (q : Q) (k : A q → Plan A α)
  /-- The result is whatever `q` is answered. Nothing waits for it here, so a loop written with
  `pass` needs no more room after a thousand rounds than after one. -/
  | pass (q : Q) (h : A q = α)

namespace Plan

variable {Q : Type} {A : Q → Type} {α β γ : Type}

/-- First `p`, then `f` on its result. -/
def bind : Plan A α → (α → Plan A β) → Plan A β
  | done a, f => f a
  | ask q k, f => ask q fun r => (k r).bind f
  | pass q h, f => ask q fun r => f (cast h r)

/-- Plans in sequence: a result known beforehand asks nothing, and what comes second sees the result of
what comes first. -/
instance : Monad (Plan A) where
  pure := done
  bind := bind

/-- The result of `pure` is known. -/
@[simp] theorem pure_eq (a : α) : (pure a : Plan A α) = done a := rfl

/-- A sequence written with `do` is a `bind` of plans. -/
@[simp] theorem bind_eq (p : Plan A α) (f : α → Plan A β) : p >>= f = p.bind f := rfl

/-- After a known result, the second plan is all that is left. -/
@[simp] theorem done_bind (a : α) (f : α → Plan A β) : (done a : Plan A α).bind f = f a := rfl

/-- What comes after a plan that asks comes after its continuation. -/
@[simp] theorem ask_bind (q : Q) (k : A q → Plan A α) (f : α → Plan A β) :
    (ask q k).bind f = ask q fun r => (k r).bind f := rfl

/-- How sequences are bracketed makes no difference. -/
theorem bind_assoc (p : Plan A α) (f : α → Plan A β) (g : β → Plan A γ) :
    (p.bind f).bind g = p.bind fun a => (f a).bind g := by
  induction p with
  | done a => rfl
  | ask q k ih => simp [ih]
  | pass q h => rfl

/-! ## Reading a plan against given replies -/

/-- The result of a plan when `reply q` is the reply to each question `q`; no result if a question
that the plan puts has no reply. -/
def eval (reply : (q : Q) → Option (A q)) : Plan A α → Option α
  | done a => some a
  | ask q k => (reply q).bind fun r => (k r).eval reply
  | pass q h => (reply q).map (cast h)

/-- A known result does not depend on the replies. -/
@[simp] theorem eval_done (reply : (q : Q) → Option (A q)) (a : α) :
    (done a : Plan A α).eval reply = some a := rfl

/-- The result of a plan that asks is that of its continuation on the reply, if there is one. -/
@[simp] theorem eval_ask (reply : (q : Q) → Option (A q)) (q : Q) (k : A q → Plan A α) :
    (ask q k).eval reply = (reply q).bind fun r => (k r).eval reply := rfl

/-- A plan that hands over to a question has the reply to it as its result. -/
theorem eval_pass (reply : (q : Q) → Option (A q)) (q : Q) :
    (pass q rfl : Plan A (A q)).eval reply = reply q := by
  cases h : reply q <;> simp [eval, h]

/-- The reading of a sequence is the sequence of the readings, for the same replies. So a proof about a
sequence of plans can go part by part. -/
@[simp] theorem eval_bind (reply : (q : Q) → Option (A q)) (p : Plan A α) (f : α → Plan A β) :
    (p.bind f).eval reply = (p.eval reply).bind fun a => (f a).eval reply := by
  induction p with
  | done a => rfl
  | ask q k ih => cases h : reply q <;> simp [h, ih]
  | pass q e => cases e; cases h : reply q <;> simp [bind, eval, h]

/-- More replies never change a result. -/
theorem eval_mono {reply reply' : (q : Q) → Option (A q)}
    (hle : ∀ q r, reply q = some r → reply' q = some r) (p : Plan A α) {a : α}
    (h : p.eval reply = some a) : p.eval reply' = some a := by
  induction p generalizing a with
  | done b => exact h
  | ask q k ih =>
    rw [eval_ask, Option.bind_eq_some_iff] at h
    obtain ⟨r, hr, h⟩ := h
    rw [eval_ask, hle q r hr]
    exact ih r h
  | pass q e =>
    cases e
    rw [eval_pass] at h ⊢
    exact hle q a h

/-! ## The rules read as a recursive function -/

/-- The reply to `q` if no chain of questions from it is longer than the bound. -/
def answer (rules : (q : Q) → Plan A (A q)) : Nat → (q : Q) → Option (A q)
  | 0, _ => none
  | n + 1, q => (rules q).eval (answer rules n)

/-- With no depth to go to, no question has a reply. -/
@[simp] theorem answer_zero (rules : (q : Q) → Plan A (A q)) (q : Q) :
    answer rules 0 q = none := rfl

/-- With one level more, a question is answered by its plan, and those that the plan puts are answered
with one level less. -/
theorem answer_succ (rules : (q : Q) → Plan A (A q)) (n : Nat) (q : Q) :
    answer rules (n + 1) q = (rules q).eval (answer rules n) := rfl

/-- One level more keeps a reply. -/
theorem answer_mono_succ (rules : (q : Q) → Plan A (A q)) (n : Nat) (q : Q) {r : A q}
    (h : answer rules n q = some r) : answer rules (n + 1) q = some r := by
  induction n generalizing q with
  | zero => simp at h
  | succ n ih =>
    rw [answer_succ] at h ⊢
    exact eval_mono (fun q r hr => ih q hr) _ h

/-- More depth keeps every reply. -/
theorem answer_mono (rules : (q : Q) → Plan A (A q)) {n m : Nat} (hnm : n ≤ m) (q : Q) {r : A q}
    (h : answer rules n q = some r) : answer rules m q = some r := by
  induction hnm with
  | refl => exact h
  | step _ ih => exact answer_mono_succ rules _ q ih

end Plan

end Treewalk
