import Treewalk.Plan.Routine

/-!
# The value of a question

`Plan.answer` replies to a question if no chain of questions from it is longer than a given depth.
Here the depth is removed: `Plan.value` is the reply to whatever depth it takes, and there is none
only if no depth suffices. It is a fixed point of the rules (`value_eq`), so the equations of
`Routine.value` at the end of this file read a set of routines as ordinary recursive functions that
may fail to terminate, and two runs end alike exactly if their values are equal.
-/

namespace Treewalk

namespace Plan

variable {Q : Type} {A : Q → Type} {α : Type}

/-! ## Replies to any depth -/

open Classical in
/-- The reply to `q`, however deep the questions go that it leads to. -/
noncomputable def value (rules : (q : Q) → Plan A (A q)) (q : Q) : Option (A q) :=
  if h : ∃ r n, answer rules n q = some r then some h.choose else none

variable (rules : (q : Q) → Plan A (A q))

/-- Whatever the bound, a question has one reply at most. -/
theorem answer_unique {n m : Nat} {q : Q} {r r' : A q} (h : answer rules n q = some r)
    (h' : answer rules m q = some r') : r = r' := by
  have h₁ := answer_mono rules (Nat.le_max_left n m) q h
  have h₂ := answer_mono rules (Nat.le_max_right n m) q h'
  rw [h₁] at h₂
  exact Option.some.inj h₂

/-- A question has a reply if it has one with some bound. -/
theorem value_eq_some_iff {q : Q} {r : A q} :
    value rules q = some r ↔ ∃ n, answer rules n q = some r := by
  unfold value
  by_cases h : ∃ r n, answer rules n q = some r
  · rw [dif_pos h]
    obtain ⟨n, hn⟩ := h.choose_spec
    constructor
    · intro hr
      cases hr
      exact ⟨n, hn⟩
    · rintro ⟨m, hm⟩
      rw [answer_unique rules hn hm]
  · rw [dif_neg h]
    constructor
    · intro hr
      cases hr
    · intro hr
      exact absurd ⟨r, hr⟩ h

/-- A plan reads only finitely many replies, so some depth gives all of them. -/
theorem eval_value_eq_some_iff (p : Plan A α) {a : α} :
    p.eval (value rules) = some a ↔ ∃ n, p.eval (answer rules n) = some a := by
  constructor
  · intro h
    induction p with
    | done b => exact ⟨0, h⟩
    | ask q k ih =>
      rw [eval_ask, Option.bind_eq_some_iff] at h
      obtain ⟨r, hr, h⟩ := h
      obtain ⟨n, hn⟩ := (value_eq_some_iff rules).1 hr
      obtain ⟨m, hm⟩ := ih r h
      refine ⟨max n m, ?_⟩
      rw [eval_ask, answer_mono rules (Nat.le_max_left n m) q hn]
      exact eval_mono (fun q _ hr => answer_mono rules (Nat.le_max_right n m) q hr) _ hm
    | pass q e =>
      cases e
      rw [eval_pass] at h
      obtain ⟨n, hn⟩ := (value_eq_some_iff rules).1 h
      exact ⟨n, by rw [eval_pass, hn]⟩
  · rintro ⟨n, hn⟩
    exact eval_mono (fun q r hr => (value_eq_some_iff rules).2 ⟨n, hr⟩) _ hn

/-- **The rules hold of the values.** -/
theorem value_eq (q : Q) : value rules q = (rules q).eval (value rules) := by
  apply Option.ext
  intro r
  rw [value_eq_some_iff, eval_value_eq_some_iff]
  constructor
  · rintro ⟨n, hn⟩
    exact ⟨n, by rw [← answer_succ]; exact answer_mono_succ rules n q hn⟩
  · rintro ⟨n, hn⟩
    exact ⟨n + 1, by rw [answer_succ]; exact hn⟩

end Plan

namespace Routine

variable {G : Type} {R : G → Type} {ε σ α β : Type}

/-! ## First steps that call no goal -/

/-- A first part that needs no goal and succeeds leaves the second part to do. -/
theorem bind_apply_of_ok {x : Routine R ε σ α} {s s' : σ} {a : α} (h : x s = .done (.ok a, s'))
    (f : α → Routine R ε σ β) : (x >>= f) s = f a s' := by
  show (x s).bind _ = _
  rw [h]
  rfl

/-- A first part that needs no goal and fails is all there is of the sequence. -/
theorem bind_apply_of_error {x : Routine R ε σ α} {s s' : σ} {e : ε}
    (h : x s = .done (.error e, s')) (f : α → Routine R ε σ β) :
    (x >>= f) s = .done (.error e, s') := by
  show (x s).bind _ = _
  rw [h]
  rfl

/-! ## How a routine ends -/

/-- How a routine ends that starts in a state, and the state then; nothing if it never ends. -/
noncomputable def value (routines : (g : G) → Routine R ε σ (R g)) (x : Routine R ε σ α) (s : σ) :
    Option (Except ε α × σ) :=
  (x s).eval (Plan.value (rulesOf routines))

variable (routines : (g : G) → Routine R ε σ (R g))

/-- A routine ends in some way exactly if it is seen to by some number of steps. -/
theorem value_eq_some_iff {x : Routine R ε σ α} {s : σ} {out : Except ε α × σ} :
    value routines x s = some out ↔ ∃ n, run routines n x s = some out := by
  rw [exists_run_iff]
  exact Plan.eval_value_eq_some_iff (rulesOf routines) (x s)

/-- What a run comes to is the value of the routine. -/
theorem value_of_run {n : Nat} {x : Routine R ε σ α} {s : σ} {out : Except ε α × σ}
    (h : run routines n x s = some out) : value routines x s = some out :=
  (value_eq_some_iff routines).2 ⟨n, h⟩

/-- What ends in some way to a bounded depth ends so. -/
theorem value_of_denote {n : Nat} {x : Routine R ε σ α} {s : σ} {out : Except ε α × σ}
    (h : denote routines n x s = some out) : value routines x s = some out :=
  (Plan.eval_value_eq_some_iff (rulesOf routines) (x s)).2 ⟨n, h⟩

/-- A value is reached at some depth. -/
theorem exists_denote {x : Routine R ε σ α} {s : σ} {out : Except ε α × σ}
    (h : value routines x s = some out) : ∃ n, denote routines n x s = some out :=
  (Plan.eval_value_eq_some_iff (rulesOf routines) (x s)).1 h

/-- What calls no goal ends as it does at once. -/
theorem value_of_done {x : Routine R ε σ α} {s : σ} {out : Except ε α × σ} (h : x s = .done out) :
    value routines x s = some out := by
  unfold value
  rw [h]
  rfl

/-- Ending with a result leaves the state as it is. -/
@[simp] theorem value_ok (a : α) (s : σ) : value routines (ok a) s = some (.ok a, s) := rfl

/-- What is pure ends at once with a result, in the state it began in. -/
@[simp] theorem value_pure (a : α) (s : σ) : value routines (pure a) s = some (.ok a, s) := rfl

/-- A failure ends at once, in the state it began in. -/
@[simp] theorem value_fail (e : ε) (s : σ) :
    value routines (fail e : Routine R ε σ α) s = some (.error e, s) := rfl

/-- A change of the state always succeeds. -/
@[simp] theorem value_modify (f : σ → σ) (s : σ) :
    value routines (modify f) s = some (.ok (), f s) := rfl

/-- A step that calls no goal has the outcome that it is given by. -/
@[simp] theorem value_step (f : σ → Except ε α × σ) (s : σ) :
    value routines (step f) s = some (f s) := rfl

/-- In a sequence the second part starts in the state that the first leaves, and only if that did not
fail. -/
@[simp] theorem value_bind (x : Routine R ε σ α) (f : α → Routine R ε σ β) (s : σ) :
    value routines (x >>= f) s =
      (value routines x s).bind fun
        | (.ok a, s') => value routines (f a) s'
        | (.error e, s') => some (.error e, s') := by
  show ((x s).bind _).eval _ = _
  rw [Plan.eval_bind]
  unfold value
  congr 1
  funext ⟨r, s'⟩
  cases r <;> rfl

/-- The state is restored after a result and after an error alike. -/
@[simp] theorem value_ensuring (x : Routine R ε σ α) (restore : σ → σ) (s : σ) :
    value routines (x.ensuring restore) s =
      (value routines x s).map fun out => (out.1, restore out.2) := by
  show ((x s).bind _).eval _ = _
  rw [Plan.eval_bind]
  unfold value
  cases (x s).eval _ <;> rfl

/-- How an attempt ended is its result, and the state is the one that the attempt has left. -/
@[simp] theorem value_attempt (x : Routine R ε σ α) (s : σ) :
    value routines x.attempt s =
      (value routines x s).map fun out => (.ok out.1, out.2) := by
  show ((x s).bind _).eval _ = _
  rw [Plan.eval_bind]
  unfold value
  cases (x s).eval _ <;> rfl

/-- Calling a goal is performing its routine. Since no depth is counted here, the equation can be used
again and again. -/
@[simp] theorem value_call (g : G) (s : σ) :
    value routines (call g) s = value routines (routines g) s := by
  show (Plan.ask (g, s) Plan.done).eval _ = _
  rw [Plan.eval_ask, Plan.value_eq]
  exact Option.bind_fun_some _

/-- Becoming a goal is performing its routine, too. -/
@[simp] theorem value_become (g : G) (s : σ) :
    value routines (become g) s = value routines (routines g) s := by
  show (Plan.pass (g, s) rfl).eval _ = _
  rw [Plan.eval_pass, Plan.value_eq]
  rfl

/-- A routine that has ended with a result hands it on. -/
theorem value_bind_ok {x : Routine R ε σ α} {s s' : σ} {a : α} (f : α → Routine R ε σ β)
    (h : value routines x s = some (.ok a, s')) :
    value routines (x >>= f) s = value routines (f a) s' := by
  rw [value_bind, h]
  rfl

end Routine

end Treewalk
