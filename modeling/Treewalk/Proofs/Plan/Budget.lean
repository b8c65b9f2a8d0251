import Treewalk.Proofs.Plan.Contract

/-!
# Budgets for questions

`Plan.run` stops after a given number of steps, so a caller that fixes this number beforehand has to
know that it suffices. A `Budget` grants each question a number of steps, part of which a reply may
give back, as what is left of an input gives back the steps that it was granted for. If the plan for
each question can be paid for out of its grant, counting two steps more for every question that it
puts, then every question is answered within its grant (`Budget.settles`). The grant is also the
measure by which the recursion ends, so termination is part of the result.

A budget is a contract besides: a question may have a presupposition, and more may be guaranteed of
its reply than what it gives back.
-/

namespace Treewalk

namespace Plan

variable {Q : Type} {A : Q → Type} {α β : Type}

/-- A plan hands `a` to its stack after `c` steps, whatever the stack is. -/
def Ends (rules : (q : Q) → Plan A (A q)) (p : Plan A α) (a : α) (c : Nat) : Prop :=
  ∀ {ω : Type} (m : Nat) (stack : Stack A ω α),
    run rules (m + 1 + c) p stack = run rules (m + 1) (done a) stack

section Ends

variable {rules : (q : Q) → Plan A (A q)}

/-- A known result costs no step. -/
theorem ends_done (a : α) : Ends rules (done a) a 0 :=
  fun _ _ => rfl

/-- A question costs what its answer and what comes after the answer cost, and two steps more: one to put
it, and one to take the reply from the stack. -/
theorem Ends.ask {q : Q} {r : A q} {c : Nat} (h : Ends rules (rules q) r c)
    {k : A q → Plan A α} {a : α} {c' : Nat} (h' : Ends rules (k r) a c') :
    Ends rules (.ask q k) a (c + c' + 2) := by
  intro ω m stack
  rw [show m + 1 + (c + c' + 2) = (m + 1 + c' + 1 + c) + 1 by omega, run, h, run, h']

/-- Handing over to a question costs one step more than its answer. -/
theorem Ends.pass {q : Q} {r : A q} {c : Nat} (h : Ends rules (rules q) r c) :
    Ends rules (.pass q rfl) r (c + 1) := by
  intro ω m stack
  rw [show m + 1 + (c + 1) = (m + 1 + c) + 1 by omega, run]
  exact h m stack

end Ends

/-- A contract with the steps that are granted to a question, and those that its reply gives back. -/
structure Budget {Q : Type} (A : Q → Type) extends Contract A where
  grant : Q → Nat
  refund : (q : Q) → A q → Nat

/-- With `credit` steps, a plan can pay for the questions that it puts, and ends with a result and a
rest of the credit as `post` says. -/
def Affords (b : Budget A) : Plan A α → Nat → (α → Nat → Prop) → Prop
  | done a, credit, post => post a credit
  | ask q k, credit, post => b.pre q ∧ b.grant q + 2 ≤ credit ∧
      ∀ r, b.post q r → (k r).Affords b (credit - 2 - b.grant q + b.refund q r) post
  | pass q h, credit, post => b.pre q ∧ b.grant q + 2 ≤ credit ∧
      ∀ r, b.post q r → post (cast h r) (credit - 2 - b.grant q + b.refund q r)

/-- A sequence can be paid for if the first plan can, and the second out of what the first leaves. -/
theorem affords_bind (b : Budget A) (p : Plan A α) (f : α → Plan A β) (credit : Nat)
    (post : β → Nat → Prop) :
    (p.bind f).Affords b credit post ↔
      p.Affords b credit fun a rest => (f a).Affords b rest post := by
  induction p generalizing credit with
  | done a => exact Iff.rfl
  | ask q k ih =>
    rw [ask_bind]
    unfold Affords
    exact and_congr_right fun _ => and_congr_right fun _ => forall_congr' fun r =>
      imp_congr_right fun _ => ih r _
  | pass q h =>
    cases h
    exact Iff.rfl

/-- Less may be asked of what is left, and of the result. -/
theorem Affords.mono {b : Budget A} {p : Plan A α} {credit : Nat} {post post' : α → Nat → Prop}
    (h : p.Affords b credit post) (himp : ∀ a rest, post a rest → post' a rest) :
    p.Affords b credit post' := by
  induction p generalizing credit with
  | done a => exact himp a credit h
  | ask q k ih => exact ⟨h.1, h.2.1, fun r hr => ih r (h.2.2 r hr)⟩
  | pass q e => exact ⟨h.1, h.2.1, fun r hr => himp _ _ (h.2.2 r hr)⟩

/-- What a plan is given beyond its needs is left over. -/
theorem Affords.add {b : Budget A} {p : Plan A α} {credit : Nat} {post : α → Nat → Prop}
    (h : p.Affords b credit post) (more : Nat) :
    p.Affords b (credit + more) fun a rest => ∃ left, rest = left + more ∧ post a left := by
  induction p generalizing credit with
  | done a => exact ⟨credit, rfl, h⟩
  | ask q k ih =>
    obtain ⟨hpre, hpay, hk⟩ := h
    refine ⟨hpre, by omega, fun r hr => ?_⟩
    rw [show credit + more - 2 - b.grant q + b.refund q r
      = credit - 2 - b.grant q + b.refund q r + more by omega]
    exact ih r (hk r hr)
  | pass q e =>
    obtain ⟨hpre, hpay, hk⟩ := h
    exact ⟨hpre, by omega, fun r hr => ⟨_, by omega, hk r hr⟩⟩

namespace Budget

variable {rules : (q : Q) → Plan A (A q)} {b : Budget A}

/-- A question is answered within its grant, and the reply is as promised. -/
def Settles (rules : (q : Q) → Plan A (A q)) (b : Budget A) (q : Q) : Prop :=
  ∃ r c, Ends rules (rules q) r c ∧ c + b.refund q r ≤ b.grant q ∧ b.post q r

/-- A plan ends within its credit, if the questions that it can pay for are settled. -/
theorem exists_ends_of_affords {p : Plan A α} {credit : Nat} {post : α → Nat → Prop}
    (h : p.Affords b credit post) (hsettles : ∀ q, b.pre q → b.grant q < credit → b.Settles rules q) :
    ∃ a c rest, Ends rules p a c ∧ c + rest ≤ credit ∧ post a rest := by
  induction p generalizing credit with
  | done a => exact ⟨a, 0, credit, ends_done a, by omega, h⟩
  | ask q k ih =>
    obtain ⟨hpre, hpay, hk⟩ := h
    obtain ⟨r, c, hends, hc, hr⟩ := hsettles q hpre (by omega)
    obtain ⟨a, c', rest, hends', hc', hpost⟩ :=
      ih r (hk r hr) fun q' hpre' hq' => hsettles q' hpre' (by omega)
    exact ⟨a, _, rest, hends.ask hends', by omega, hpost⟩
  | pass q e =>
    cases e
    obtain ⟨hpre, hpay, hk⟩ := h
    obtain ⟨r, c, hends, hc, hr⟩ := hsettles q hpre (by omega)
    exact ⟨r, _, _, hends.pass, by omega, hk r hr⟩

/-- **Every question is answered within its grant.** -/
theorem settles
    (hrules : ∀ q, b.pre q →
      (rules q).Affords b (b.grant q) fun r rest => b.refund q r ≤ rest ∧ b.post q r)
    (q : Q) (hq : b.pre q) : b.Settles rules q := by
  induction hg : b.grant q using Nat.strongRecOn generalizing q with
  | _ g ih =>
    obtain ⟨r, c, rest, hends, hc, hrefund, hpost⟩ :=
      exists_ends_of_affords (hrules q hq) fun q' hpre' hq' => ih _ (hg ▸ hq') q' hpre' rfl
    exact ⟨r, c, hends, by omega, hpost⟩

/-- A plan that can be paid for has a result after as many steps as it is given credit, and one
more. -/
theorem exists_run
    (hrules : ∀ q, b.pre q →
      (rules q).Affords b (b.grant q) fun r rest => b.refund q r ≤ rest ∧ b.post q r)
    {p : Plan A α} {credit : Nat} {post : α → Nat → Prop} (h : p.Affords b credit post) :
    ∃ a rest, run rules (credit + 1) p .nil = some a ∧ post a rest := by
  obtain ⟨a, c, rest, hends, hc, hpost⟩ :=
    exists_ends_of_affords h fun q hq _ => settles hrules q hq
  refine ⟨a, rest, ?_, hpost⟩
  have hrun : run rules (0 + 1 + c) p .nil = some a := by rw [hends]; rfl
  exact run_mono rules (by omega) p .nil hrun

end Budget

end Plan

namespace Routine

variable {G : Type} {R : G → Type} {ε σ α β : Type}

/-- A budget for goals. -/
abbrev Budget {G : Type} (R : G → Type) (ε σ : Type) :=
  Plan.Budget (Reply R ε σ)

/-- With `credit` steps, a routine that starts in `s` can pay for the goals that it calls, and ends
with an outcome and a rest of the credit as `post` says. -/
def Affords (b : Budget R ε σ) (x : Routine R ε σ α) (s : σ) (credit : Nat)
    (post : Except ε α × σ → Nat → Prop) : Prop :=
  (x s).Affords b credit post

variable (b : Budget R ε σ) {credit : Nat} {post : Except ε α × σ → Nat → Prop}

/-- Less may be asked of what is left, and of the outcome. -/
theorem Affords.mono {b : Budget R ε σ} {x : Routine R ε σ α} {s : σ}
    {post post' : Except ε α × σ → Nat → Prop} (h : x.Affords b s credit post)
    (himp : ∀ out rest, post out rest → post' out rest) : x.Affords b s credit post' :=
  Plan.Affords.mono h himp

/-- Credit that is not needed is left over. -/
theorem Affords.add {b : Budget R ε σ} {x : Routine R ε σ α} {s : σ}
    {post : Except ε α × σ → Nat → Prop} (h : x.Affords b s credit post) (more : Nat) :
    x.Affords b s (credit + more) fun out rest => ∃ left, rest = left + more ∧ post out left :=
  Plan.Affords.add h more

/-- What is pure costs nothing. -/
@[simp] theorem affords_pure (a : α) (s : σ) :
    (pure a : Routine R ε σ α).Affords b s credit post ↔ post (.ok a, s) credit := Iff.rfl

/-- A change of the state costs nothing. -/
@[simp] theorem affords_modify (f : σ → σ) (s : σ) {post : Except ε Unit × σ → Nat → Prop} :
    (modify f : Routine R ε σ Unit).Affords b s credit post ↔ post (.ok (), f s) credit := Iff.rfl

/-- A step that calls no goal costs nothing. -/
@[simp] theorem affords_step (f : σ → Except ε α × σ) (s : σ) :
    (step f : Routine R ε σ α).Affords b s credit post ↔ post (f s) credit := Iff.rfl

/-- A call is paid for with its grant and two steps, and gives back the refund of its outcome. -/
@[simp] theorem affords_call (g : G) (s : σ) {post : Except ε (R g) × σ → Nat → Prop} :
    (call g : Routine R ε σ (R g)).Affords b s credit post ↔ b.pre (g, s) ∧ b.grant (g, s) + 2 ≤ credit ∧
      ∀ out, b.post (g, s) out →
        post out (credit - 2 - b.grant (g, s) + b.refund (g, s) out) := Iff.rfl

/-- Becoming a goal is paid for like calling it. -/
@[simp] theorem affords_become (g : G) (s : σ) {post : Except ε (R g) × σ → Nat → Prop} :
    (become g : Routine R ε σ (R g)).Affords b s credit post ↔ b.pre (g, s) ∧ b.grant (g, s) + 2 ≤ credit ∧
      ∀ out, b.post (g, s) out →
        post out (credit - 2 - b.grant (g, s) + b.refund (g, s) out) := Iff.rfl

/-- A sequence of routines is paid for part by part; after an error there is no second part to pay for. -/
@[simp] theorem affords_bind (x : Routine R ε σ α) (f : α → Routine R ε σ β) (s : σ)
    {post : Except ε β × σ → Nat → Prop} :
    (x >>= f).Affords b s credit post ↔ x.Affords b s credit fun out rest =>
      match out with
      | (.ok a, s') => (f a).Affords b s' rest post
      | (.error e, s') => post (.error e, s') rest := by
  show ((x s).bind _).Affords b credit post ↔ _
  rw [Plan.affords_bind]
  constructor
  · intro h
    refine Plan.Affords.mono h ?_
    rintro ⟨_ | _, s'⟩ rest h' <;> exact h'
  · intro h
    refine Plan.Affords.mono h ?_
    rintro ⟨_ | _, s'⟩ rest h' <;> exact h'

/-- Restoring the state costs nothing. -/
@[simp] theorem affords_ensuring (x : Routine R ε σ α) (restore : σ → σ) (s : σ) :
    (x.ensuring restore).Affords b s credit post ↔
      x.Affords b s credit fun out rest => post (out.1, restore out.2) rest := by
  show ((x s).bind _).Affords b credit post ↔ _
  rw [Plan.affords_bind]
  exact Iff.rfl

/-- An attempt costs what it attempts. -/
@[simp] theorem affords_attempt (x : Routine R ε σ α) (s : σ)
    {post : Except ε (Except ε α) × σ → Nat → Prop} :
    x.attempt.Affords b s credit post ↔
      x.Affords b s credit fun out rest => post (.ok out.1, out.2) rest := by
  show ((x s).bind _).Affords b credit post ↔ _
  rw [Plan.affords_bind]
  exact Iff.rfl

variable {b} {routines : (g : G) → Routine R ε σ (R g)}

/-- A set of routines stays within a budget: each can be paid for out of the grant of its goal. -/
def Within (routines : (g : G) → Routine R ε σ (R g)) (b : Budget R ε σ) : Prop :=
  ∀ g s, b.pre (g, s) → (routines g).Affords b s (b.grant (g, s)) fun out rest =>
    b.refund (g, s) out ≤ rest ∧ b.post (g, s) out

/-- A routine that can be paid for ends in as many steps as it is given credit, and one more. -/
theorem Within.exists_run (hwithin : Within routines b) {x : Routine R ε σ α} {s : σ}
    (h : x.Affords b s credit post) :
    ∃ out rest, run routines (credit + 1) x s = some out ∧ post out rest := by
  have hrules : ∀ q, b.pre q → (rulesOf routines q).Affords b (b.grant q) fun r rest =>
      b.refund q r ≤ rest ∧ b.post q r := fun q => hwithin q.1 q.2
  exact Plan.Budget.exists_run hrules h

end Routine

end Treewalk
