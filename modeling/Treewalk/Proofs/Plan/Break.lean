import Mathlib.Data.List.Basic
import Treewalk.Proofs.Plan.Contract

/-!
# A run that breaks off

`Course` says how a plan is carried out to its end: with which result, and with which questions on the
way, in their order. There is a course exactly if there is a value (`exists_course`, `Course.eval`).

Two runs can do the same for a while, until the second breaks off and the first goes on alone. A `Break`
says which question of the second run stands for a question of the first, and how replies correspond as
long as there was no break (`replied`), and once there was one (`broken`). Two plans are the same *up to*
a break (`UpTo`) if they put corresponding questions, and if after a reply that is broken off the second
plan is at its end. If the rules are the same up to a break at the question itself, then the second run
comes to an end whenever the first does, and puts the same questions, or an initial part of them among
which is the question at which it broke off (`UpTo.exists_course`).
-/

namespace Treewalk

namespace Plan

variable {Q : Type} {A : Q → Type} {α β γ δ : Type}

/-! ## Courses -/

/-- Carried out to its end, a plan comes to a result, and these are the questions that are put on the way,
by the plan itself and by the plans that answer them. -/
inductive Course (rules : (q : Q) → Plan A (A q)) : {α : Type} → Plan A α → List Q → α → Prop where
  | done {α : Type} (a : α) : Course rules (.done a) [] a
  | ask {α : Type} {q : Q} {k : A q → Plan A α} {r : A q} {qs qs' : List Q} {a : α}
      (hr : Course rules (rules q) qs r) (h : Course rules (k r) qs' a) :
      Course rules (.ask q k) (q :: (qs ++ qs')) a
  | pass {α : Type} {q : Q} (e : A q = α) {r : A q} {qs : List Q}
      (hr : Course rules (rules q) qs r) : Course rules (.pass q e) (q :: qs) (cast e r)

section Course

variable {rules : (q : Q) → Plan A (A q)} {p : Plan A α} {qs : List Q} {a : α}

/-- What a plan comes to is its value. -/
theorem Course.eval (h : Course rules p qs a) : p.eval (value rules) = some a := by
  induction h with
  | done a => rfl
  | ask _ _ ihr ih => rw [eval_ask, value_eq, ihr, Option.bind_some, ih]
  | pass e _ ihr =>
    cases e
    rw [eval_pass, value_eq, ihr]
    rfl

/-- If the plan for a question comes to a reply, this is the reply to the question. -/
theorem Course.value {q : Q} {r : A q} (h : Course rules (rules q) qs r) :
    value rules q = some r := by
  rw [value_eq, h.eval]

/-- A plan has a course if whatever replies to its questions has one. In this form the fact can be used
at every depth of the recursion. -/
theorem exists_course_of_reply {reply : (q : Q) → Option (A q)}
    (hreply : ∀ q r, reply q = some r → ∃ qs, Course rules (rules q) qs r)
    (h : p.eval reply = some a) : ∃ qs, Course rules p qs a := by
  induction p with
  | done b =>
    cases h
    exact ⟨[], .done a⟩
  | ask q k ih =>
    rw [eval_ask, Option.bind_eq_some_iff] at h
    obtain ⟨r, hr, h⟩ := h
    obtain ⟨qs, hqs⟩ := hreply q r hr
    obtain ⟨qs', hqs'⟩ := ih r h
    exact ⟨_, .ask hqs hqs'⟩
  | pass q e =>
    cases e
    rw [eval_pass] at h
    obtain ⟨qs, hqs⟩ := hreply q a h
    exact ⟨_, .pass rfl hqs⟩

/-- A plan that has a value comes to it. -/
theorem exists_course (h : p.eval (Plan.value rules) = some a) : ∃ qs, Course rules p qs a := by
  have hanswer : ∀ n q r, answer rules n q = some r → ∃ qs, Course rules (rules q) qs r := by
    intro n
    induction n with
    | zero => exact fun q r h => by cases h
    | succ n ih => exact fun q r h => exists_course_of_reply ih h
  refine exists_course_of_reply (fun q r hr => ?_) h
  obtain ⟨n, hn⟩ := (value_eq_some_iff rules).1 hr
  exact hanswer n q r hn

/-- The course of a sequence is that of the first plan, and then that of the second. -/
theorem Course.of_bind {f : α → Plan A β} {b : β} (h : Course rules (p.bind f) qs b) :
    ∃ a qs₁ qs₂, qs = qs₁ ++ qs₂ ∧ Course rules p qs₁ a ∧ Course rules (f a) qs₂ b := by
  induction p generalizing qs with
  | done a => exact ⟨a, [], qs, rfl, .done a, h⟩
  | ask q k ih =>
    cases h with
    | ask hr h =>
      obtain ⟨a, qs₁, qs₂, rfl, h₁, h₂⟩ := ih _ h
      refine ⟨a, _, qs₂, ?_, .ask hr h₁, h₂⟩
      rw [List.cons_append, List.append_assoc]
  | pass q e =>
    cases h with
    | ask hr h => exact ⟨_, _, _, rfl, .pass e hr, h⟩

/-- All questions that are put belong to the course. -/
theorem Puts.mem_course {q : Q} (hq : Puts rules p q) (h : Course rules p qs a) : q ∈ qs := by
  induction hq generalizing qs with
  | ask q k =>
    cases h with
    | ask hr h => exact List.mem_cons_self
  | pass q e =>
    cases h with
    | pass e hr => exact List.mem_cons_self
  | insideAsk k hq ih =>
    cases h with
    | ask hr h => exact List.mem_cons_of_mem _ (List.mem_append_left _ (ih hr))
  | insidePass e hq ih =>
    cases h with
    | pass e hr => exact List.mem_cons_of_mem _ (ih hr)
  | later hvalue hq ih =>
    cases h with
    | ask hr h =>
      obtain rfl := Option.some.inj (hvalue.symm.trans hr.value)
      exact List.mem_cons_of_mem _ (List.mem_append_right _ (ih h))

/-- In its course, a plan that relies on a contract puts only questions that may be put. -/
theorem Meets.course {c : Contract A} {post : α → Prop} (hp : p.Meets c post)
    (hrules : ∀ q, c.pre q → (rules q).Meets c (c.post q)) (h : Course rules p qs a) :
    (∀ q ∈ qs, c.pre q) ∧ post a := by
  induction h with
  | done a => exact ⟨fun _ hq => (nomatch hq), hp⟩
  | ask hr h ihr ih =>
    obtain ⟨hqs, hpost⟩ := ihr (hrules _ hp.1)
    obtain ⟨hqs', hpost'⟩ := ih (hp.2 _ hpost)
    exact ⟨List.forall_mem_cons.2 ⟨hp.1, List.forall_mem_append.2 ⟨hqs, hqs'⟩⟩, hpost'⟩
  | pass e hr ihr =>
    obtain ⟨hqs, hpost⟩ := ihr (hrules _ hp.1)
    exact ⟨List.forall_mem_cons.2 ⟨hp.1, hqs⟩, hp.2 _ hpost⟩

end Course

/-! ## The same up to a break -/

/-- Which questions and replies of two runs correspond, until the second breaks off and after it. -/
structure Break {Q : Type} (A : Q → Type) where
  /-- The question of the second run that stands for a question of the first. -/
  image : Q → Q
  /-- The first run can put this question before the break. -/
  early : Q → Prop
  /-- The first run can put this question after the break. -/
  late : Q → Prop
  replied : (q : Q) → A q → A (image q) → Prop
  /-- While this question was answered, the second run broke off at the question that is given first. -/
  broken : Q → (q : Q) → A q → A (image q) → Prop

section Break

variable (rules : (q : Q) → Plan A (A q)) (m : Break A)

/-- The second run has broken off at `c`: its plan is at its end, and the first plan goes on alone. -/
def Trails (broken : Q → α → β → Prop) (c : Q) (p : Plan A α) (p' : Plan A β) : Prop :=
  ∀ qs a, Course rules p qs a → (∀ q ∈ qs, m.late q) ∧ ∃ b, p' = .done b ∧ broken c a b

/-- Two plans put corresponding questions, until the second breaks off: at one of its questions, or by
itself at a question that is its `own`. -/
inductive UpTo (own : Q → Prop) (same : α → β → Prop) (broken : Q → α → β → Prop) :
    Plan A α → Plan A β → Prop where
  | done {a : α} {b : β} (h : same a b) : UpTo own same broken (.done a) (.done b)
  | stop {c : Q} {p : Plan A α} {p' : Plan A β} (hc : own c) (h : Trails rules m broken c p p') :
      UpTo own same broken p p'
  | ask {q : Q} {k : A q → Plan A α} {k' : A (m.image q) → Plan A β} (hq : m.early q)
      (h : ∀ r r', value rules q = some r → m.replied q r r' → UpTo own same broken (k r) (k' r'))
      (hbroken : ∀ c r r', m.broken c q r r' → Trails rules m broken c (k r) (k' r')) :
      UpTo own same broken (.ask q k) (.ask (m.image q) k')
  | pass {q : Q} {e : A q = α} {e' : A (m.image q) = β} (hq : m.early q)
      (h : ∀ r r', m.replied q r r' → same (cast e r) (cast e' r'))
      (hbroken : ∀ c r r', m.broken c q r r' → broken c (cast e r) (cast e' r')) :
      UpTo own same broken (.pass q e) (.pass (m.image q) e')

/-- How two courses end that are the same up to a break: both at their end, or the second at a break. -/
inductive Ended (own : Q → Prop) (same : α → β → Prop) (broken : Q → α → β → Prop) (qs qs' : List Q)
    (a : α) (b : β) : Prop where
  | same (hqs : qs' = qs.map m.image) (hearly : ∀ q ∈ qs, m.early q) (h : same a b)
  | broken (c : Q) (before after : List Q) (hqs : qs = before ++ after)
      (hqs' : qs' = before.map m.image) (hearly : ∀ q ∈ before, m.early q)
      (hlate : ∀ q ∈ after, m.late q) (hc : own c ∨ c ∈ before) (h : broken c a b)

variable {rules m} {own : Q → Prop} {same : α → β → Prop} {broken : Q → α → β → Prop}
  {same' : γ → δ → Prop} {broken' : Q → γ → δ → Prop} {p : Plan A α} {p' : Plan A β} {c : Q}

/-- A plan that goes on alone after a break still does if more comes after it, provided that this does so
too. -/
theorem Trails.bind {f : α → Plan A γ} {f' : β → Plan A δ} (h : Trails rules m broken c p p')
    (hf : ∀ a b, broken c a b → Trails rules m broken' c (f a) (f' b)) :
    Trails rules m broken' c (p.bind f) (p'.bind f') := by
  intro qs z hcourse
  obtain ⟨a, qs₁, qs₂, rfl, h₁, h₂⟩ := hcourse.of_bind
  obtain ⟨hlate₁, b, rfl, hbroken⟩ := h qs₁ a h₁
  obtain ⟨hlate₂, hend⟩ := hf a b hbroken qs₂ z h₂
  exact ⟨List.forall_mem_append.2 ⟨hlate₁, hlate₂⟩, hend⟩

/-- Once the second run has broken off, it is at its end already, and the first run puts late questions
only. -/
theorem Trails.exists_course (hc : own c) (h : Trails rules m broken c p p') {qs : List Q} {a : α}
    (hcourse : Course rules p qs a) :
    ∃ b qs', Course rules p' qs' b ∧ Ended m own same broken qs qs' a b := by
  obtain ⟨hlate, b, rfl, hbroken⟩ := h qs a hcourse
  exact ⟨b, [], .done b, .broken c [] qs rfl rfl (fun _ hq => nomatch hq) hlate (.inl hc) hbroken⟩

namespace Ended

variable {q : Q} {qs qs' : List Q} {a : α} {b : β}

/-- Questions before, which both runs put, make no difference. -/
theorem prepend (h : Ended m own same broken qs qs' a b) {qs₁ : List Q}
    (hearly₁ : ∀ q ∈ qs₁, m.early q) :
    Ended m own same broken (qs₁ ++ qs) (qs₁.map m.image ++ qs') a b := by
  cases h with
  | same hqs hearly h =>
    refine .same ?_ (List.forall_mem_append.2 ⟨hearly₁, hearly⟩) h
    rw [hqs, List.map_append]
  | broken c before after hqs hqs' hearly hlate hc h =>
    refine .broken c (qs₁ ++ before) after ?_ ?_ (List.forall_mem_append.2 ⟨hearly₁, hearly⟩) hlate
      (hc.imp_right (List.mem_append_right qs₁)) h
    · rw [hqs, List.append_assoc]
    · rw [hqs', List.map_append]

/-- A question ends as the courses do in which it is answered. -/
theorem answered {r : A q} {r' : A (m.image q)} (hq : m.early q)
    (h : Ended m (· = q) (m.replied q) (m.broken · q) qs qs' r r') (hsame : m.replied q r r' → same a b)
    (hbroken : ∀ c, m.broken c q r r' → broken c a b) :
    Ended m own same broken (q :: qs) (m.image q :: qs') a b := by
  cases h with
  | same hqs hearly h =>
    refine .same ?_ (List.forall_mem_cons.2 ⟨hq, hearly⟩) (hsame h)
    rw [hqs, List.map_cons]
  | broken c before after hqs hqs' hearly hlate hc h =>
    refine .broken c (q :: before) after ?_ ?_ (List.forall_mem_cons.2 ⟨hq, hearly⟩) hlate
      (.inr (List.mem_cons.2 hc)) (hbroken c h)
    · rw [hqs, List.cons_append]
    · rw [hqs', List.map_cons]

end Ended

namespace UpTo

/-- Sequences are the same up to a break if their parts are, and if the second parts of the first run go
on alone once there was a break in the first part. -/
theorem bind {f : α → Plan A γ} {f' : β → Plan A δ} (h : UpTo rules m own same broken p p')
    (hf : ∀ a b, p.eval (value rules) = some a → same a b →
      UpTo rules m own same' broken' (f a) (f' b))
    (hbroken : ∀ c a b, broken c a b → Trails rules m broken' c (f a) (f' b)) :
    UpTo rules m own same' broken' (p.bind f) (p'.bind f') := by
  induction h with
  | done h => exact hf _ _ rfl h
  | stop hc h => exact .stop hc (h.bind (hbroken _))
  | ask hq _ hq' ih =>
    refine .ask hq (fun r r' hr hrel => ih r r' hr hrel fun a b ha => hf a b ?_)
      fun c r r' hrel => (hq' c r r' hrel).bind (hbroken c)
    rw [eval_ask, hr]
    exact ha
  | @pass q e e' hq h hq' =>
    cases e
    cases e'
    refine .ask hq (fun r r' hr hrel => hf r r' ?_ (h r r' hrel)) fun c r r' hrel =>
      hbroken c r r' (hq' c r r' hrel)
    rw [eval_pass, hr]

/-- **The second run comes to an end whenever the first does**, with the same questions or with an initial
part of them. -/
theorem exists_course
    (hrules : ∀ q, m.early q →
      UpTo rules m (· = q) (m.replied q) (m.broken · q) (rules q) (rules (m.image q)))
    (h : UpTo rules m own same broken p p') {qs : List Q} {a : α} (hcourse : Course rules p qs a) :
    ∃ b qs', Course rules p' qs' b ∧ Ended m own same broken qs qs' a b := by
  -- along the course of the first run; a question that it puts is answered in a course of its own
  induction hcourse generalizing β own with
  | done a =>
    cases h with
    | done h => exact ⟨_, [], .done _, .same rfl (fun _ hq => nomatch hq) h⟩
    | stop hc h => exact h.exists_course hc (.done a)
  | @ask _ q k r qs qs₂ a hr hcourse ihr ih =>
    cases h with
    | stop hc h => exact h.exists_course hc (.ask hr hcourse)
    | @ask _ _ k' hq h hbroken =>
      obtain ⟨r', qs', hr', hended⟩ := ihr (hrules q hq)
      cases hended with
      | same hqs hearly hrel =>
        subst hqs
        obtain ⟨b, qs₂', hcourse', hended⟩ := ih (h r r' hr.value hrel)
        exact ⟨b, _, .ask hr' hcourse', hended.prepend (List.forall_mem_cons.2 ⟨hq, hearly⟩)⟩
      | broken c before after hqs hqs' hearly hlate hc hrel =>
        -- the rest of the first run is trailing, and there is nothing left of the second
        obtain ⟨hlate₂, b, hdone, hrel₂⟩ := hbroken c r r' hrel qs₂ a hcourse
        have hend : Course rules (k' r') [] b := hdone ▸ .done b
        refine ⟨b, _, .ask hr' hend, .broken c (q :: before) (after ++ qs₂)
          ?_ ?_ (List.forall_mem_cons.2 ⟨hq, hearly⟩) (List.forall_mem_append.2 ⟨hlate, hlate₂⟩) ?_ hrel₂⟩
        · rw [hqs, List.cons_append, List.append_assoc]
        · rw [hqs', List.append_nil, List.map_cons]
        · exact .inr (List.mem_cons.2 hc)
  | @pass _ q e r qs hr ihr =>
    cases h with
    | stop hc h => exact h.exists_course hc (.pass e hr)
    | @pass _ _ e' hq h hbroken =>
      obtain ⟨r', qs', hr', hended⟩ := ihr (hrules q hq)
      exact ⟨_, _, .pass e' hr', hended.answered hq (h r r') fun c => hbroken c r r'⟩

end UpTo

end Break

end Plan

end Treewalk
