import Treewalk.Proofs.Plan.Value

/-!
# Contracts for questions

A `Contract` says when a question may be put and what can be relied on in its reply. If the plan
that the rules give for each question, relying on the contract for every question that it puts
itself, meets the contract for its own question, then every reply does (`Contract.post_of_answer`),
and every question that is put on the way to it, however deep, may be put
(`Contract.pre_of_puts`). This is the rule for recursive procedures: nothing has to be said about
depth or termination.
-/

namespace Treewalk

namespace Plan

variable {Q : Type} {A : Q → Type} {α β : Type}

/-- What a question presupposes, and what its reply guarantees. -/
structure Contract {Q : Type} (A : Q → Type) where
  pre : Q → Prop
  post : (q : Q) → A q → Prop

/-- A plan puts only questions that may be put, and if their replies are as guaranteed, its result
satisfies `post`. -/
def Meets (c : Contract A) : Plan A α → (α → Prop) → Prop
  | done a, post => post a
  | ask q k, post => c.pre q ∧ ∀ r, c.post q r → (k r).Meets c post
  | pass q h, post => c.pre q ∧ ∀ r, c.post q r → post (cast h r)

/-- A sequence meets a contract if the first plan does, and the second for whatever the first results in. -/
theorem meets_bind (c : Contract A) (p : Plan A α) (f : α → Plan A β) (post : β → Prop) :
    (p.bind f).Meets c post ↔ p.Meets c fun a => (f a).Meets c post := by
  induction p with
  | done a => exact Iff.rfl
  | ask q k ih =>
    rw [ask_bind]
    unfold Meets
    exact and_congr_right fun _ => forall_congr' fun r => imp_congr_right fun _ => ih r
  | pass q h =>
    cases h
    exact Iff.rfl

/-- Less may be asked of the result. -/
theorem Meets.mono {c : Contract A} {p : Plan A α} {post post' : α → Prop}
    (h : p.Meets c post) (himp : ∀ a, post a → post' a) : p.Meets c post' := by
  induction p with
  | done a => exact himp a h
  | ask q k ih => exact ⟨h.1, fun r hr => ih r (h.2 r hr)⟩
  | pass q e => exact ⟨h.1, fun r hr => himp _ (h.2 r hr)⟩

/-- A plan that meets a contract has a result as guaranteed, if the replies it reads are. -/
theorem Meets.post_of_eval {c : Contract A} {p : Plan A α} {post : α → Prop}
    (h : p.Meets c post) {reply : (q : Q) → Option (A q)}
    (hreply : ∀ q r, c.pre q → reply q = some r → c.post q r) {a : α}
    (ha : p.eval reply = some a) : post a := by
  induction p with
  | done b =>
    cases ha
    exact h
  | ask q k ih =>
    rw [eval_ask, Option.bind_eq_some_iff] at ha
    obtain ⟨r, hr, ha⟩ := ha
    exact ih r (h.2 r (hreply q r h.1 hr)) ha
  | pass q e =>
    cases e
    rw [eval_pass] at ha
    exact h.2 a (hreply q a h.1 ha)

/-! ## The questions put on the way -/

/-- A question that is put while a plan is carried out: by the plan itself, or while one of its own
questions is answered. -/
inductive Puts (rules : (q : Q) → Plan A (A q)) : {α : Type} → Plan A α → Q → Prop where
  | ask {α : Type} (q : Q) (k : A q → Plan A α) : Puts rules (.ask q k) q
  | pass {α : Type} (q : Q) (h : A q = α) : Puts rules (.pass q h) q
  | insideAsk {α : Type} {q q' : Q} (k : A q → Plan A α) (h : Puts rules (rules q) q') :
      Puts rules (.ask q k) q'
  | insidePass {α : Type} {q q' : Q} (e : A q = α) (h : Puts rules (rules q) q') :
      Puts rules (.pass q e) q'
  | later {α : Type} {q q' : Q} {k : A q → Plan A α} {r : A q} (hr : value rules q = some r)
      (h : Puts rules (k r) q') : Puts rules (.ask q k) q'

section Puts

variable {rules : (q : Q) → Plan A (A q)} {p : Plan A α} {q : Q}

/-- What a plan puts, it puts when another one follows. -/
theorem Puts.bind (h : Puts rules p q) (f : α → Plan A β) : Puts rules (p.bind f) q := by
  induction h with
  | ask q k => exact .ask q _
  | pass q e =>
    cases e
    exact .ask q _
  | insideAsk k h => exact .insideAsk _ h
  | insidePass e h =>
    cases e
    exact .insideAsk _ h
  | later hr h ih => exact .later hr (ih f)

/-- What follows a plan is put once the plan has its result. -/
theorem Puts.bind_later {f : α → Plan A β} {a : α} (ha : p.eval (value rules) = some a)
    (h : Puts rules (f a) q) : Puts rules (p.bind f) q := by
  induction p with
  | done b =>
    cases ha
    exact h
  | ask q' k ih =>
    rw [eval_ask, Option.bind_eq_some_iff] at ha
    obtain ⟨r, hr, ha⟩ := ha
    exact .later hr (ih r ha)
  | pass q' e =>
    cases e
    rw [eval_pass] at ha
    exact .later ha h

end Puts

namespace Contract

variable {rules : (q : Q) → Plan A (A q)} {c : Contract A}

/-- **The rule for recursion.** Rules that meet a contract, if all questions do, meet it. -/
theorem post_of_answer (hrules : ∀ q, c.pre q → (rules q).Meets c (c.post q)) (n : Nat) (q : Q)
    (hq : c.pre q) {r : A q} (h : answer rules n q = some r) : c.post q r := by
  induction n generalizing q with
  | zero => cases h
  | succ n ih =>
    rw [answer_succ] at h
    exact (hrules q hq).post_of_eval (fun q' _ hq' hr => ih q' hq' hr) h

/-- So every reply that there is at all is as guaranteed, whatever depth it takes. -/
theorem post_of_value (hrules : ∀ q, c.pre q → (rules q).Meets c (c.post q)) (q : Q)
    (hq : c.pre q) {r : A q} (h : value rules q = some r) : c.post q r := by
  obtain ⟨n, hn⟩ := (value_eq_some_iff rules).1 h
  exact post_of_answer hrules n q hq hn

/-- No question is put that may not be put. -/
theorem pre_of_puts (hrules : ∀ q, c.pre q → (rules q).Meets c (c.post q)) {p : Plan A α}
    {post : α → Prop} (hp : p.Meets c post) {q : Q} (h : Puts rules p q) : c.pre q := by
  induction h with
  | ask q k => exact hp.1
  | pass q h => exact hp.1
  | insideAsk k h ih => exact ih (hrules _ hp.1)
  | insidePass e h ih => exact ih (hrules _ hp.1)
  | later hr h ih => exact ih (hp.2 _ (post_of_value hrules _ hp.1 hr))

end Contract

end Plan

namespace Routine

variable {G : Type} {R : G → Type} {ε σ α β : Type}

/-- A contract for goals: what is presupposed when a goal is put in a state, and what is then
guaranteed of how it ends and of the state afterwards. -/
abbrev Contract {G : Type} (R : G → Type) (ε σ : Type) :=
  Plan.Contract (Reply R ε σ)

/-- A routine that starts in `s` calls only goals that may be called, and ends as `post` says if
they end as guaranteed. -/
def Meets (c : Contract R ε σ) (x : Routine R ε σ α) (s : σ) (post : Except ε α × σ → Prop) :
    Prop :=
  (x s).Meets c post

variable (c : Contract R ε σ) {post : Except ε α × σ → Prop}

/-- Less may be asked of the outcome. -/
theorem Meets.mono {c : Contract R ε σ} {x : Routine R ε σ α} {s : σ}
    {post post' : Except ε α × σ → Prop} (h : x.Meets c s post)
    (himp : ∀ out, post out → post' out) : x.Meets c s post' :=
  Plan.Meets.mono h himp

/-- What is pure need only be as asked in the present state. -/
@[simp] theorem meets_pure (a : α) (s : σ) :
    (pure a : Routine R ε σ α).Meets c s post ↔ post (.ok a, s) := Iff.rfl

/-- A failure need only be as asked in the present state. -/
@[simp] theorem meets_fail (e : ε) (s : σ) :
    (fail e : Routine R ε σ α).Meets c s post ↔ post (.error e, s) := Iff.rfl

/-- After a change, the state need only be as asked. -/
@[simp] theorem meets_modify (f : σ → σ) (s : σ) {post : Except ε Unit × σ → Prop} :
    (modify f : Routine R ε σ Unit).Meets c s post ↔ post (.ok (), f s) := Iff.rfl

/-- A step that calls no goal need only have an outcome as asked. -/
@[simp] theorem meets_step (f : σ → Except ε α × σ) (s : σ) :
    (step f : Routine R ε σ α).Meets c s post ↔ post (f s) := Iff.rfl

/-- A goal may be called where its presupposition holds, and then its guarantee can be relied on. -/
@[simp] theorem meets_call (g : G) (s : σ) {post : Except ε (R g) × σ → Prop} :
    (call g : Routine R ε σ (R g)).Meets c s post ↔
      c.pre (g, s) ∧ ∀ out, c.post (g, s) out → post out := Iff.rfl

/-- A routine may become a goal where its presupposition holds, and then its guarantee can be relied on. -/
@[simp] theorem meets_become (g : G) (s : σ) {post : Except ε (R g) × σ → Prop} :
    (become g : Routine R ε σ (R g)).Meets c s post ↔
      c.pre (g, s) ∧ ∀ out, c.post (g, s) out → post out := Iff.rfl

/-- A sequence of routines meets a contract part by part; after an error there is no second part. -/
@[simp] theorem meets_bind (x : Routine R ε σ α) (f : α → Routine R ε σ β) (s : σ)
    {post : Except ε β × σ → Prop} :
    (x >>= f).Meets c s post ↔ x.Meets c s fun
      | (.ok a, s') => (f a).Meets c s' post
      | (.error e, s') => post (.error e, s') := by
  show ((x s).bind _).Meets c post ↔ _
  rw [Plan.meets_bind]
  constructor
  · intro h
    refine Plan.Meets.mono h ?_
    rintro ⟨_ | _, s'⟩ h' <;> exact h'
  · intro h
    refine Plan.Meets.mono h ?_
    rintro ⟨_ | _, s'⟩ h' <;> exact h'

/-- What is asked is asked of the restored state. -/
@[simp] theorem meets_ensuring (x : Routine R ε σ α) (restore : σ → σ) (s : σ) :
    (x.ensuring restore).Meets c s post ↔ x.Meets c s fun out => post (out.1, restore out.2) := by
  show ((x s).bind _).Meets c post ↔ _
  rw [Plan.meets_bind]
  exact Iff.rfl

/-- What is asked is asked of how the attempt ended. -/
@[simp] theorem meets_attempt (x : Routine R ε σ α) (s : σ)
    {post : Except ε (Except ε α) × σ → Prop} :
    x.attempt.Meets c s post ↔ x.Meets c s fun out => post (.ok out.1, out.2) := by
  show ((x s).bind _).Meets c post ↔ _
  rw [Plan.meets_bind]
  exact Iff.rfl

variable {c} {routines : (g : G) → Routine R ε σ (R g)}

/-- A set of routines keeps a contract: each meets it, if all goals that it calls do. -/
def Keeps (routines : (g : G) → Routine R ε σ (R g)) (c : Contract R ε σ) : Prop :=
  ∀ g s, c.pre (g, s) → (routines g).Meets c s (c.post (g, s))

/-- A routine that relies on a contract which is kept ends as it should, if it ends. -/
theorem Keeps.post_of_value (hkeeps : Keeps routines c) {x : Routine R ε σ α} {s : σ}
    (hx : x.Meets c s post) {out : Except ε α × σ} (h : value routines x s = some out) :
    post out :=
  hx.post_of_eval (fun q _ hq hr => Plan.Contract.post_of_value (fun q => hkeeps q.1 q.2) q hq hr) h

end Routine

end Treewalk
