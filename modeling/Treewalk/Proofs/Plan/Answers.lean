import Mathlib.Data.List.Forall2
import Treewalk.Proofs.Plan.Break
import Treewalk.Proofs.Plan.InStep

/-!
# The questions of a run, in the order in which they are answered

`Course` lists the questions of a run as they are put. What a question contributes when all that it
depends on is done comes in another order: a question after those that are put on the way to its answer
(`Answers`). Every run that ends has such a list (`exists_answers`) and only one (`Answers.unique`), and two
runs in step answer corresponding questions in the same order (`InStep.exists_answers`).
-/

namespace Treewalk.Plan

variable {Q : Type} {A : Q → Type} {α β : Type}

/-- Carried out to its end, a plan comes to a result, and these questions are answered on the way, by the
plan itself and by the plans that answer them, each after those that it leads to. -/
inductive Answers (rules : (q : Q) → Plan A (A q)) : {α : Type} → Plan A α → List Q → α → Prop where
  | done {α : Type} (a : α) : Answers rules (.done a) [] a
  | ask {α : Type} {q : Q} {k : A q → Plan A α} {r : A q} {qs qs' : List Q} {a : α}
      (hr : Answers rules (rules q) qs r) (h : Answers rules (k r) qs' a) :
      Answers rules (.ask q k) (qs ++ q :: qs') a
  | pass {α : Type} {q : Q} (e : A q = α) {r : A q} {qs : List Q}
      (hr : Answers rules (rules q) qs r) : Answers rules (.pass q e) (qs ++ [q]) (cast e r)

variable {rules : (q : Q) → Plan A (A q)} {p : Plan A α} {qs : List Q} {a : α}

/-- What a plan comes to when its questions are answered in order is its value. -/
theorem Answers.eval (h : Answers rules p qs a) : p.eval (value rules) = some a := by
  induction h with
  | done a => rfl
  | ask _ _ ihr ih => rw [eval_ask, value_eq, ihr, Option.bind_some, ih]
  | pass e _ ihr =>
    cases e
    rw [eval_pass, value_eq, ihr]
    rfl

/-- If the plan for a question comes to a reply, this is the reply to the question. -/
theorem Answers.value {q : Q} {r : A q} (h : Answers rules (rules q) qs r) :
    value rules q = some r := by
  rw [value_eq, h.eval]

/-- A course can be listed in the order of the answers instead. -/
theorem Course.exists_answers (h : Course rules p qs a) : ∃ qs', Answers rules p qs' a := by
  induction h with
  | done a => exact ⟨[], .done a⟩
  | ask _ _ ihr ih =>
    obtain ⟨qs₁, hr⟩ := ihr
    obtain ⟨qs₂, h⟩ := ih
    exact ⟨_, .ask hr h⟩
  | pass e _ ihr =>
    obtain ⟨qs₁, hr⟩ := ihr
    exact ⟨_, .pass e hr⟩

/-- A plan that has a value comes to it. -/
theorem exists_answers (h : p.eval (Plan.value rules) = some a) : ∃ qs, Answers rules p qs a :=
  let ⟨_, hcourse⟩ := exists_course h
  hcourse.exists_answers

/-- A run answers its questions in one order only. -/
theorem Answers.unique {qs' : List Q} {a' : α} (h : Answers rules p qs a)
    (h' : Answers rules p qs' a') : qs' = qs ∧ a' = a := by
  induction h generalizing qs' with
  | done a =>
    cases h'
    exact ⟨rfl, rfl⟩
  | ask _ _ ihr ih =>
    cases h' with
    | ask hr' h' =>
      obtain ⟨rfl, rfl⟩ := ihr hr'
      obtain ⟨rfl, rfl⟩ := ih h'
      exact ⟨rfl, rfl⟩
  | pass e _ ihr =>
    cases h' with
    | pass _ hr' =>
      obtain ⟨rfl, rfl⟩ := ihr hr'
      exact ⟨rfl, rfl⟩

/-- **Two runs in step answer corresponding questions in the same order.** -/
theorem InStep.exists_answers {m : Match A}
    (hrules : ∀ q q', m.asked q q' → InStep m (m.replied q q') (rules q) (rules q'))
    {post : α → β → Prop} {p' : Plan A β} (h : InStep m post p p') (ha : Answers rules p qs a) :
    ∃ qs' b, Answers rules p' qs' b ∧ List.Forall₂ m.asked qs qs' ∧ post a b := by
  induction ha generalizing β with
  | done a =>
    cases h with
    | done h => exact ⟨[], _, .done _, .nil, h⟩
  | ask _ _ ihr ih =>
    cases h with
    | ask hq h =>
      obtain ⟨qs₁, r', hr', hqs₁, hrel⟩ := ihr (hrules _ _ hq)
      obtain ⟨qs₂, b, hb, hqs₂, hpost⟩ := ih (h _ r' hrel)
      exact ⟨_, b, .ask hr' hb, List.rel_append hqs₁ (.cons hq hqs₂), hpost⟩
  | pass _ _ ihr =>
    cases h with
    | @pass _ _ _ e' hq h =>
      obtain ⟨qs₁, r', hr', hqs₁, hrel⟩ := ihr (hrules _ _ hq)
      exact ⟨_, _, .pass e' hr', List.rel_append hqs₁ (.cons hq .nil), h _ r' hrel⟩

end Treewalk.Plan
