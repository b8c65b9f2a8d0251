import Treewalk.Proofs.Plan.Value

/-!
# Two plans in step

A `Match` says which questions of two runs correspond to each other, and when two replies to
corresponding questions do. Two plans are *in step* if they put corresponding questions one after
the other and, as long as the replies correspond, end with results that are related. If the rules
give plans in step for corresponding questions, then the values of corresponding questions
correspond: both runs end, with corresponding replies, or neither does (`Match.rel_value`).

The first run may also be slower: at some questions it only hands over to another question, while the
second run waits. So that it cannot do this for ever, a weight has to decrease.
-/

namespace Treewalk

namespace Plan

variable {Q : Type} {A : Q → Type} {α β γ δ : Type}

/-- Which questions correspond, and which replies to them. -/
structure Match {Q : Type} (A : Q → Type) where
  asked : Q → Q → Prop
  replied : (q q' : Q) → A q → A q' → Prop

/-- The same, seen from the second run. -/
def Match.flip (m : Match A) : Match A where
  asked q q' := m.asked q' q
  replied q q' r r' := m.replied q' q r' r

/-- Two plans put corresponding questions, and corresponding replies lead to related results. -/
inductive InStep (m : Match A) (post : α → β → Prop) : Plan A α → Plan A β → Prop where
  | done {a : α} {b : β} (h : post a b) : InStep m post (.done a) (.done b)
  | ask {q q' : Q} {k : A q → Plan A α} {k' : A q' → Plan A β} (hq : m.asked q q')
      (h : ∀ r r', m.replied q q' r r' → InStep m post (k r) (k' r')) :
      InStep m post (.ask q k) (.ask q' k')
  | pass {q q' : Q} {e : A q = α} {e' : A q' = β} (hq : m.asked q q')
      (h : ∀ r r', m.replied q q' r r' → post (cast e r) (cast e' r')) :
      InStep m post (.pass q e) (.pass q' e')

namespace InStep

variable {m : Match A} {post : α → β → Prop} {p : Plan A α} {p' : Plan A β}

/-- If the first plan is in step with the second, the second is so with the first. -/
theorem flip (h : InStep m post p p') : InStep m.flip (fun b a => post a b) p' p := by
  induction h with
  | done h => exact .done h
  | ask hq _ ih => exact .ask hq fun r r' hr => ih r' r hr
  | pass hq h => exact .pass hq fun r r' hr => h r' r hr

/-- Less may be asked of the results. -/
theorem mono {post' : α → β → Prop} (h : InStep m post p p')
    (himp : ∀ a b, post a b → post' a b) : InStep m post' p p' := by
  induction h with
  | done h => exact .done (himp _ _ h)
  | ask hq _ ih => exact .ask hq ih
  | pass hq h => exact .pass hq fun r r' hr => himp _ _ (h r r' hr)

/-- Sequences are in step if their first parts are, and their second parts for corresponding results. -/
theorem bind {post' : γ → δ → Prop} {f : α → Plan A γ} {f' : β → Plan A δ}
    (h : InStep m post p p') (hf : ∀ a b, post a b → InStep m post' (f a) (f' b)) :
    InStep m post' (p.bind f) (p'.bind f') := by
  induction h with
  | done h => exact hf _ _ h
  | ask hq _ ih => exact .ask hq ih
  | @pass q q' e e' hq h =>
    cases e
    cases e'
    exact .ask hq fun r r' hr => hf _ _ (h r r' hr)

/-- A result of the first plan has a counterpart, if the replies that it reads have. -/
theorem exists_eval {reply reply' : (q : Q) → Option (A q)} (h : InStep m post p p')
    (hreply : ∀ q q' r, m.asked q q' → reply q = some r →
      ∃ r', reply' q' = some r' ∧ m.replied q q' r r') {a : α} (ha : p.eval reply = some a) :
    ∃ b, p'.eval reply' = some b ∧ post a b := by
  induction h with
  | done h =>
    cases ha
    exact ⟨_, rfl, h⟩
  | @ask q q' k k' hq _ ih =>
    rw [eval_ask, Option.bind_eq_some_iff] at ha
    obtain ⟨r, hr, ha⟩ := ha
    obtain ⟨r', hr', hrel⟩ := hreply q q' r hq hr
    obtain ⟨b, hb, hpost⟩ := ih r r' hrel ha
    exact ⟨b, by rw [eval_ask, hr']; exact hb, hpost⟩
  | @pass q q' e e' hq h =>
    cases e
    cases e'
    rw [eval_pass] at ha
    obtain ⟨r', hr', hrel⟩ := hreply q q' a hq ha
    exact ⟨r', by rw [eval_pass, hr'], h a r' hrel⟩

end InStep

/-! ## Corresponding questions have corresponding values -/

/-- The first run only hands over at `q`, to a question that still corresponds to `q'`. -/
def Match.Waits (m : Match A) (rules : (q : Q) → Plan A (A q)) (weight : Q → Nat) (q q' : Q) :
    Prop :=
  ∃ (q₁ : Q) (e : A q₁ = A q), rules q = .pass q₁ e ∧ weight q₁ < weight q ∧ m.asked q₁ q' ∧
    ∀ r r', m.replied q₁ q' r r' → m.replied q q' (cast e r) r'

namespace Match

variable {m : Match A} {rules : (q : Q) → Plan A (A q)} {weight : Q → Nat}

/-- If the first run answers a question, the second answers the corresponding one correspondingly. The
induction is on the depth of the first run. -/
theorem exists_value_right
    (hrules : ∀ q q', m.asked q q' →
      InStep m (m.replied q q') (rules q) (rules q') ∨ m.Waits rules weight q q')
    (n : Nat) (q q' : Q) (hq : m.asked q q') {r : A q} (hr : answer rules n q = some r) :
    ∃ r', value rules q' = some r' ∧ m.replied q q' r r' := by
  induction n generalizing q q' with
  | zero => cases hr
  | succ n ih =>
    rw [answer_succ] at hr
    rcases hrules q q' hq with hstep | ⟨q₁, e, hpass, -, hasked, hreplied⟩
    · rw [value_eq]
      exact hstep.exists_eval (fun q q' r hq hr => ih q q' hq hr) hr
    · rw [hpass] at hr
      obtain ⟨r₁, hr₁, rfl⟩ := Option.map_eq_some_iff.1 hr
      obtain ⟨r', hr', hrel⟩ := ih q₁ q' hasked hr₁
      exact ⟨r', hr', hreplied r₁ r' hrel⟩

/-- If the second run answers a question, the first answers the corresponding one correspondingly. -/
theorem exists_value_left
    (hrules : ∀ q q', m.asked q q' →
      InStep m (m.replied q q') (rules q) (rules q') ∨ m.Waits rules weight q q')
    (n : Nat) (q q' : Q) (hq : m.asked q q') {r' : A q'} (hr' : answer rules n q' = some r') :
    ∃ r, value rules q = some r ∧ m.replied q q' r r' := by
  induction n generalizing q q' with
  | zero => cases hr'
  | succ n ih =>
    -- while the second run waits its bound stays the same, so this goes by the weight inside
    induction hw : weight q using Nat.strongRecOn generalizing q with
    | _ w ihw =>
      rcases hrules q q' hq with hstep | ⟨q₁, e, hpass, hlt, hasked, hreplied⟩
      · rw [answer_succ] at hr'
        rw [value_eq]
        exact hstep.flip.exists_eval (fun q' q r' hq hr' => ih q q' hq hr') hr'
      · obtain ⟨r₁, hr₁, hrel⟩ := ihw (weight q₁) (hw ▸ hlt) q₁ hasked rfl
        refine ⟨cast e r₁, ?_, hreplied r₁ r' hrel⟩
        rw [value_eq, hpass]
        exact Option.map_eq_some_iff.2 ⟨r₁, hr₁, rfl⟩

/-- **Two runs in step end alike**: both with corresponding replies, or neither. -/
theorem rel_value
    (hrules : ∀ q q', m.asked q q' →
      InStep m (m.replied q q') (rules q) (rules q') ∨ m.Waits rules weight q q')
    (q q' : Q) (hq : m.asked q q') :
    Option.Rel (m.replied q q') (value rules q) (value rules q') := by
  cases hr : value rules q with
  | some r =>
    obtain ⟨n, hn⟩ := (value_eq_some_iff rules).1 hr
    obtain ⟨r', hr', hrel⟩ := exists_value_right hrules n q q' hq hn
    rw [hr']
    exact .some hrel
  | none =>
    cases hr' : value rules q' with
    | none => exact .none
    | some r' =>
      obtain ⟨n, hn⟩ := (value_eq_some_iff rules).1 hr'
      obtain ⟨r, hrr, -⟩ := exists_value_left hrules n q q' hq hn
      rw [hr] at hrr
      cases hrr

/-- Plans in step have related results, if corresponding questions have corresponding values. -/
theorem rel_eval {reply : (q : Q) → Option (A q)}
    (hreply : ∀ q q', m.asked q q' → Option.Rel (m.replied q q') (reply q) (reply q'))
    {post : α → β → Prop} {p : Plan A α} {p' : Plan A β} (h : InStep m post p p') :
    Option.Rel post (p.eval reply) (p'.eval reply) := by
  have hright : ∀ q q' r, m.asked q q' → reply q = some r →
      ∃ r', reply q' = some r' ∧ m.replied q q' r r' := by
    intro q q' r hq hr
    have hrel := hreply q q' hq
    rw [hr] at hrel
    generalize reply q' = o at hrel ⊢
    cases hrel with
    | some hrel => exact ⟨_, rfl, hrel⟩
  have hleft : ∀ q' q r', m.asked q q' → reply q' = some r' →
      ∃ r, reply q = some r ∧ m.replied q q' r r' := by
    intro q' q r' hq hr'
    have hrel := hreply q q' hq
    rw [hr'] at hrel
    generalize reply q = o at hrel ⊢
    cases hrel with
    | some hrel => exact ⟨_, rfl, hrel⟩
  cases ha : p.eval reply with
  | some a =>
    obtain ⟨b, hb, hpost⟩ := h.exists_eval hright ha
    rw [hb]
    exact .some hpost
  | none =>
    cases hb : p'.eval reply with
    | none => exact .none
    | some b =>
      obtain ⟨a, haa, -⟩ := h.flip.exists_eval (fun q q' r hq hr => hleft q q' r hq hr) hb
      rw [ha] at haa
      cases haa

end Match

end Plan

end Treewalk
