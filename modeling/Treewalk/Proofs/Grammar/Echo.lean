import Treewalk.Proofs.Grammar.Recovery

/-!
# Two runs of the same part

A part of the parser is carried out from two states that have something to do with each other, such as the
same tokens before them. `Follows c A P E x` says that then the second run does the same: from states that
are related by `A` it comes to the same result as the first, in states that are related by `P`, or by `E` if
the part is abandoned. The contract `c` says what is known of the goals.

What a relation has to keep so that all parts that go by the next token follow, is `Alongside`
(`Plain.follows`).
-/

namespace Treewalk.Grammar

open Routine (call become value)

variable {α β : Type} {s s' t : State}

/-! ## The judgement -/

section Judgement

variable {c : Routine.Contract Goal.Result Abandoned State} {A B P E : State → State → Prop}

/-- From every state that `s` is related to, `x` ends as it does from `s`, in related states. -/
def Echoes (A P E : State → State → Prop) (x : Parse α) (s : State) (out : Except Abandoned α × State) :
    Prop :=
  ∀ t, A s t → ∃ t', value rules x t = some (out.1, t') ∧
    match out.1 with
    | .ok _ => P out.2 t'
    | .error _ => E out.2 t'

/-- The judgement that is explained at the head of this file. -/
def Follows (c : Routine.Contract Goal.Result Abandoned State) (A P E : State → State → Prop)
    (x : Parse α) : Prop :=
  ∀ s, (∃ t, A s t) → x.Meets c s (Echoes A P E x s)

/-- A run is still echoed if more is asked of the second state at the start and less at the end. -/
theorem Echoes.mono {A' P' E' : State → State → Prop} {x : Parse α} {out : Except Abandoned α × State}
    (h : Echoes A P E x s out) (hA : ∀ t, A' s t → A s t) (hP : ∀ t, P out.2 t → P' out.2 t)
    (hE : ∀ t, E out.2 t → E' out.2 t) : Echoes A' P' E' x s out := by
  obtain ⟨r, s'⟩ := out
  intro t ht
  obtain ⟨t', hvalue, hrel⟩ := h t (hA t ht)
  refine ⟨t', hvalue, ?_⟩
  cases r with
  | ok a => exact hP t' hrel
  | error e => exact hE t' hrel

/-- What is pure is followed in whatever relation the states have. -/
theorem follows_pure (a : α) : Follows c P P E (pure a) :=
  fun _ _ t ht => ⟨t, rfl, ht⟩

/-- A sequence is followed if its parts are. Where the first part is abandoned, so it is in the second
run. -/
theorem Follows.bind {x : Parse α} {f : α → Parse β} (hx : Follows c A B E x)
    (hf : ∀ a, Follows c B P E (f a)) : Follows c A P E (x >>= f) := by
  intro s hs
  rw [Routine.meets_bind]
  refine (hx s hs).mono ?_
  rintro ⟨e | a, s'⟩ hecho
  · intro t ht
    obtain ⟨t', hvalue, hrel⟩ := hecho t ht
    exact ⟨t', by rw [Routine.value_bind, hvalue]; rfl, hrel⟩
  · obtain ⟨t, ht⟩ := hs
    obtain ⟨t', -, hrel⟩ := hecho t ht
    refine (hf a s' ⟨t', hrel⟩).mono fun out hout t ht => ?_
    obtain ⟨t', hvalue, hrel⟩ := hecho t ht
    obtain ⟨t'', hvalue', hrel'⟩ := hout t' hrel
    exact ⟨t'', by rw [Routine.value_bind_ok rules f hvalue, hvalue'], hrel'⟩

/-- A single step that is the same from related states. -/
theorem follows_step {f : State → Except Abandoned α × State}
    (h : ∀ s t, A s t → (f t).1 = (f s).1 ∧
      match (f s).1 with
      | .ok _ => P (f s).2 (f t).2
      | .error _ => E (f s).2 (f t).2) : Follows c A P E (Routine.step f) := by
  intro s _ t ht
  obtain ⟨hresult, hrel⟩ := h s t ht
  refine ⟨(f t).2, ?_, hrel⟩
  rw [Routine.value_step, ← hresult]

/-- A change of the state is followed if it leads from related states to related ones. -/
theorem follows_modify {f : State → State} (h : ∀ s t, A s t → P (f s) (f t)) :
    Follows c A P E (Routine.modify f) :=
  fun _ _ t ht => ⟨f t, rfl, h _ t ht⟩

/-- What is known of a goal, where it may be put. -/
theorem follows_call {g : Goal}
    (hg : ∀ s, (∃ t, A s t) → c.pre (g, s) ∧ ∀ out, c.post (g, s) out → Echoes A P E (rules g) s out) :
    Follows c A P E (call g) := by
  refine fun s hs => ⟨(hg s hs).1, fun out hout t ht => ?_⟩
  rw [Routine.value_call]
  exact (hg s hs).2 out hout t ht

/-- A goal is followed if its production is, and the contract is what says so. -/
theorem follows_become {g : Goal}
    (hg : ∀ s, (∃ t, A s t) → c.pre (g, s) ∧ ∀ out, c.post (g, s) out → Echoes A P E (rules g) s out) :
    Follows c A P E (become g) := by
  refine fun s hs => ⟨(hg s hs).1, fun out hout t ht => ?_⟩
  rw [Routine.value_become]
  exact (hg s hs).2 out hout t ht

end Judgement

/-! ## Relations that are kept -/

/-- Related states have the same token next and are in as many function bodies, and they stay related while
tokens of some kinds are taken and complaints are noted. -/
structure Alongside (kinds : Kind → Prop) (like : State → State → Prop) : Prop where
  head : ∀ {s t}, like s t → t.rest.head? = s.rest.head?
  peek : ∀ {s t}, like s t → t.peek = s.peek
  depth : ∀ {s t}, like s t → t.depth = s.depth
  advance : ∀ {s t}, like s t → kinds s.peek.kind → like s.advance t.advance
  report : ∀ {s t}, like s t → ∀ u complaint, like (s.report u complaint) (t.report u complaint)
  withDepth : ∀ {s t}, like s t → ∀ depth, like { s with depth } { t with depth }

namespace Alongside

variable {kinds : Kind → Prop} {like : State → State → Prop} (h : Alongside kinds like)
  {c : Routine.Contract Goal.Result Abandoned State}

include h

/-- If the first run has tokens left, so has the second. -/
theorem exists_rest (hst : like s t) {u : Token} {us : List Token} (hs : s.rest = u :: us) :
    ∃ vs, t.rest = u :: vs := by
  have hhead := h.head hst
  rw [hs] at hhead
  cases ht : t.rest with
  | nil => simp [ht] at hhead
  | cons v vs =>
    obtain rfl : v = u := by simpa [ht] using hhead
    exact ⟨vs, rfl⟩

/-- If no token of some kinds is next in the first run, none is in the second. -/
theorem clear (hst : like s t) {ks : List Kind} (hs : Clear ks s.rest) : Clear ks t.rest := by
  unfold Clear
  rwa [h.head hst]

/-- Accepting tokens is followed: both runs see the same next token. -/
theorem accept {accepted : List Kind} (haccepted : ∀ kind ∈ accepted, kinds kind) :
    Follows c like like like (Parse.accept? accepted) := by
  intro s _
  show (Parse.accept? accepted s).Meets c _
  rcases exists_or_clear accepted s.rest with ⟨u, us, hs, hu⟩ | hclear
  · rw [Parse.accept_taken hs hu]
    intro t ht
    obtain ⟨vs, hvs⟩ := h.exists_rest ht hs
    have hpeek : s.peek = u := by simp [State.peek, hs]
    exact ⟨t.advance, Routine.value_of_done rules (Parse.accept_taken hvs hu),
      h.advance ht (by rw [hpeek]; exact haccepted _ hu)⟩
  · rw [Parse.accept_none hclear]
    intro t ht
    exact ⟨t, Routine.value_of_done rules (Parse.accept_none (h.clear ht hclear)), ht⟩

/-- A token that is missing is missing in both runs. -/
theorem refused {kind : Kind} (hclear : Clear [kind] s.rest) (what : Expected)
    (P : State → State → Prop) :
    (Parse.expect kind what).Meets c s (Echoes like P like (Parse.expect kind what) s) := by
  show (Parse.expect kind what s).Meets c _
  rw [Parse.expect_refused hclear]
  intro t ht
  have hrefused : Parse.expect kind what t = .done (.error ⟨⟩, t.report s.peek (.expected what)) := by
    rw [← h.peek ht]
    exact Parse.expect_refused (h.clear ht hclear)
  exact ⟨_, Routine.value_of_done rules hrefused, h.report ht _ _⟩

/-- Expecting a token is followed, with the same complaint where it is missing. -/
theorem expect {kind : Kind} (hkind : kinds kind) (what : Expected) :
    Follows c like like like (Parse.expect kind what) := by
  intro s _
  rcases exists_or_clear [kind] s.rest with ⟨u, us, hs, hu⟩ | hclear
  · rw [List.mem_singleton] at hu
    show (Parse.expect kind what s).Meets c _
    rw [Parse.expect_taken hs hu]
    intro t ht
    obtain ⟨vs, hvs⟩ := h.exists_rest ht hs
    have hpeek : s.peek = u := by simp [State.peek, hs]
    exact ⟨t.advance, Routine.value_of_done rules (Parse.expect_taken hvs hu),
      h.advance ht (by rwa [hpeek, hu])⟩
  · exact h.refused hclear what like

/-- Reading inside a function body is followed if the reading is. -/
theorem inFunction {x : Parse α} (hx : Follows c like like like x) :
    Follows c like like like (Parse.inFunction x) := by
  intro s hs
  obtain ⟨t₀, ht₀⟩ := hs
  show (x.ensuring _).Meets c { s with depth := s.depth + 1 } _
  rw [Routine.meets_ensuring]
  refine (hx _ ⟨_, h.withDepth ht₀ (s.depth + 1)⟩).mono ?_
  rintro ⟨r, s'⟩ hecho t ht
  obtain ⟨t', hvalue, hrel⟩ := hecho _ (h.withDepth ht (s.depth + 1))
  refine ⟨{ t' with depth := t'.depth - 1 }, ?_, ?_⟩
  · rw [value_inFunction, h.depth ht, hvalue]
    rfl
  · cases r with
    | ok a =>
      show like { s' with depth := s'.depth - 1 } { t' with depth := t'.depth - 1 }
      rw [h.depth hrel]
      exact h.withDepth hrel _
    | error e =>
      show like { s' with depth := s'.depth - 1 } { t' with depth := t'.depth - 1 }
      rw [h.depth hrel]
      exact h.withDepth hrel _

end Alongside

/-- The states are related, and if a token is given, it is the next one. -/
def Facing (like : State → State → Prop) (next : Option Token) (s t : State) : Prop :=
  like s t ∧ ∀ u, next = some u → s.peek = u

section Facing

variable {like P E : State → State → Prop} {c : Routine.Contract Goal.Result Abandoned State}
  {x : Parse α}

/-- What is followed from states that are related is so if besides the next token is known. -/
theorem Follows.facing (hx : Follows c like P E x) (next : Option Token) :
    Follows c (Facing like next) P E x := by
  intro s hs
  obtain ⟨t, ht, -⟩ := hs
  exact (hx s ⟨t, ht⟩).mono fun out hout => hout.mono (fun _ ht => ht.1) (fun _ ht => ht) fun _ ht => ht

/-- Where no next token is known, nothing more is asked than a relation. -/
theorem Follows.of_facing (hx : Follows c (Facing like none) P E x) : Follows c like P E x := by
  have hfacing : ∀ {s t}, like s t → Facing like none s t :=
    fun ht => ⟨ht, fun u hu => by cases hu⟩
  intro s hs
  obtain ⟨t, ht⟩ := hs
  exact (hx s ⟨t, hfacing ht⟩).mono fun out hout =>
    hout.mono (fun _ ht => hfacing ht) (fun _ ht => ht) fun _ ht => ht

variable {kinds : Kind → Prop}

/-- A part that looks at the next token is followed if it is so for every token it may see. -/
theorem Alongside.look (h : Alongside kinds like) {next : Option Token} {f : Token → Parse α}
    (hf : ∀ u, Follows c (Facing like (some u)) P E (f u)) :
    Follows c (Facing like next) P E (Parse.peek >>= f) := by
  intro s hs
  obtain ⟨t, ht, -⟩ := hs
  rw [Routine.meets_bind]
  refine (hf s.peek s ⟨t, ht, fun u hu => Option.some.inj hu⟩).mono fun out hout t ht => ?_
  obtain ⟨t', hvalue, hrel⟩ := hout t ⟨ht.1, fun u hu => Option.some.inj hu⟩
  refine ⟨t', ?_, hrel⟩
  rw [← hvalue, ← h.peek ht.1]
  rfl

/-- Behind a known token that is taken, nothing is known of the next one. -/
theorem Alongside.advancing (h : Alongside kinds like) {u : Token} (hu : kinds u.kind)
    (hx : Follows c like P E x) :
    Follows c (Facing like (some u)) P E (do Parse.advance; x) := by
  intro s hs
  obtain ⟨t, ht, hnext⟩ := hs
  have hkind : kinds s.peek.kind := by rwa [hnext u rfl]
  rw [Routine.meets_bind]
  refine (hx s.advance ⟨_, h.advance ht hkind⟩).mono fun out hout t ht => ?_
  exact hout t.advance (h.advance ht.1 hkind)

/-- **What goes by the next token does the same from related states**, if the goals do that it puts. -/
theorem Plain.follows {goals : Goal → Prop} (h : Alongside kinds like)
    (hgoals : ∀ g s, goals g → (∃ t, like s t) → c.pre (g, s) ∧
      ∀ out, c.post (g, s) out → Echoes like like like (rules g) s out)
    {next : Option Token} (hx : Plain kinds goals next x) :
    Follows c (Facing like next) like like x := by
  induction hx with
  | pure a => exact (follows_pure a).facing _
  | look _ ih => exact h.look ih
  | advance hu _ ih => exact h.advancing hu ih.of_facing
  | peekKind =>
    refine .facing ?_ _
    refine follows_step fun s t hst => ⟨?_, hst⟩
    simp only [h.peek hst]
  | accept accepted haccepted => exact (h.accept haccepted).facing _
  | expect kind what hkind => exact (h.expect hkind what).facing _
  | report u complaint =>
    refine .facing ?_ _
    exact follows_modify fun s t hst => h.report hst u complaint
  | reportBeyond before complaint =>
    refine .facing ?_ _
    refine follows_modify fun s t hst => ?_
    rw [h.peek hst]
    split
    · exact h.report hst _ _
    · exact hst
  | reportOutside u complaint =>
    refine .facing ?_ _
    refine follows_modify fun s t hst => ?_
    rw [h.depth hst]
    split
    · exact hst
    · exact h.report hst _ _
  | refuse u complaint =>
    refine .facing ?_ _
    exact follows_step fun s t hst => ⟨rfl, h.report hst u complaint⟩
  | call g hg => exact (follows_call (hgoals g · hg)).facing _
  | become g hg => exact (follows_become (hgoals g · hg)).facing _
  | bind _ _ ihx ihf => exact ihx.bind fun a => (ihf a).of_facing
  | inFunction _ ih => exact (h.inFunction ih.of_facing).facing _

end Facing

end Treewalk.Grammar
