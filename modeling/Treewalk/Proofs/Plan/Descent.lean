import Treewalk.Proofs.Plan.Contract

/-!
# Questions that become smaller

The rule for recursion says what a reply guarantees, if there is a reply (`Contract.post_of_value`). There
is one if the questions become smaller: if the plan for each question meets the contract while it puts only
questions that are less in a well-founded order (`Contract.below`), then every question that may be put has a
reply (`Contract.exists_value`).

That questions become smaller can rest on what another contract guarantees of the replies before, so
contracts are put together here (`Meets.and`).
-/

namespace Treewalk.Plan

variable {Q : Type} {A : Q → Type} {α : Type} {rules : (q : Q) → Plan A (A q)} {c c' : Contract A}
  {p : Plan A α} {post post' : α → Prop}

/-! ## Two contracts -/

/-- What both contracts presuppose, and what both guarantee. -/
def Contract.and (c c' : Contract A) : Contract A where
  pre q := c.pre q ∧ c'.pre q
  post q r := c.post q r ∧ c'.post q r

/-- A plan that meets two contracts meets both at once, each with the help of the other. -/
theorem Meets.and (h : p.Meets c post) (h' : p.Meets c' post') :
    p.Meets (c.and c') fun a => post a ∧ post' a := by
  induction p with
  | done a => exact ⟨h, h'⟩
  | ask q k ih =>
    refine ⟨⟨h.1, h'.1⟩, ?_⟩
    intro r hr
    exact ih r (h.2 r hr.1) (h'.2 r hr.2)
  | pass q e =>
    refine ⟨⟨h.1, h'.1⟩, ?_⟩
    intro r hr
    exact ⟨h.2 r hr.1, h'.2 r hr.2⟩

/-- A contract that presupposes less and guarantees more is met as well. -/
theorem Meets.weaken (h : p.Meets c post) (hpre : ∀ q, c.pre q → c'.pre q)
    (hpost : ∀ q r, c'.post q r → c.post q r) : p.Meets c' post := by
  induction p with
  | done a => exact h
  | ask q k ih =>
    refine ⟨hpre q h.1, ?_⟩
    intro r hr
    exact ih r (h.2 r (hpost q r hr))
  | pass q e =>
    refine ⟨hpre q h.1, ?_⟩
    intro r hr
    exact h.2 r (hpost q r hr)

/-! ## Replies -/

/-- A plan that meets a contract has a result, if the questions that may be put have replies. -/
theorem Meets.exists_eval (h : p.Meets c post) {reply : (q : Q) → Option (A q)}
    (hreply : ∀ q, c.pre q → ∃ r, reply q = some r ∧ c.post q r) :
    ∃ a, p.eval reply = some a ∧ post a := by
  induction p with
  | done a => exact ⟨a, rfl, h⟩
  | ask q k ih =>
    obtain ⟨r, hr, hpost⟩ := hreply q h.1
    obtain ⟨a, ha, hgood⟩ := ih r (h.2 r hpost)
    exact ⟨a, by rw [eval_ask, hr]; exact ha, hgood⟩
  | pass q e =>
    cases e
    obtain ⟨r, hr, hpost⟩ := hreply q h.1
    exact ⟨r, by rw [eval_pass, hr], h.2 r hpost⟩

/-- The contract, but only questions that are less than `q` may be put. -/
def Contract.below (c : Contract A) (less : Q → Q → Prop) (q : Q) : Contract A where
  pre q' := c.pre q' ∧ less q' q
  post := c.post

/-- **The rule for recursion that ends.** If rules meet a contract and questions become smaller, then every
question that may be put has a reply as guaranteed. -/
theorem Contract.exists_value {less : Q → Q → Prop} (hless : WellFounded less)
    (hrules : ∀ q, c.pre q → (rules q).Meets (c.below less q) (c.post q)) (q : Q) (hq : c.pre q) :
    ∃ r, value rules q = some r ∧ c.post q r := by
  induction q using hless.induction with
  | _ q ih =>
    rw [value_eq]
    apply (hrules q hq).exists_eval
    rintro q' ⟨hpre, hlt⟩
    exact ih q' hlt hpre

end Treewalk.Plan
