import Treewalk.Proofs.Grammar.Complaints
import Treewalk.Proofs.Plan.Break

/-!
# A part of the parser sees one token ahead

A part of the parser looks at the tokens that it takes and at the next one. If it ends before a token, then
it ends in the same way, whatever follows this token: `Blind` says so of one part, and it holds of all
(`Assembled.blind`). What is begun on the way to such a place is begun there whatever follows
(`Enters.blind`).

What has been noted stays noted, so that the complaints about a part are among those about all that it is
begun for (`Enters.notes`). Which goals are put in the course of a part says the course itself, and each of
them is begun (`Assembled.enters_of_puts`).
-/

namespace Treewalk.Grammar

open Routine (call become attempt value rulesOf)

/-- The same state, but other tokens are left. -/
def State.withRest (s : State) (rest : List Token) : State :=
  { s with rest }

/-- If `t` and `tail` are left when the part ends, then `ws` might as well follow `t`. -/
def Blind {α : Type} (t : Token) (tail ws : List Token) (x : Parse α) (s : State)
    (out : Except Abandoned α × State) : Prop :=
  ∀ vs, out.2.rest = vs ++ t :: tail → ∃ us, s.rest = us ++ t :: tail ∧
    value rules x (s.withRest (us ++ t :: ws)) = some (out.1, out.2.withRest (vs ++ t :: ws))

/-- What follows a token that is left makes no difference to any goal. -/
def blinded (t : Token) (tail ws : List Token) : Routine.Contract Goal.Result Abandoned State where
  pre _ := True
  post q out := Blind t tail ws (rules q.1) q.2 out

variable {α β : Type} {x : Parse α} {y : Parse β} {s s' u : State} {t : Token}
  {us vs tail ws : List Token}

/-! ## Single steps -/

/-- What follows does not matter to the count of tokens taken. -/
@[simp] theorem State.index_withRest (s : State) (rest : List Token) :
    (s.withRest rest).index = s.index := rfl

/-- The next token is the same if only what follows a token ahead is changed. -/
theorem State.peek_withRest (h : s.rest = us ++ t :: tail) :
    (s.withRest (us ++ t :: ws)).peek = s.peek := by
  unfold State.peek State.withRest
  rw [h]
  cases us <;> rfl

/-- Taking a token before a given one is the same, whatever follows that. -/
theorem State.advance_withRest (h : s.advance.rest = vs ++ t :: tail) (ws : List Token) :
    ∃ us, s.rest = us ++ t :: tail ∧ (s.withRest (us ++ t :: ws)).advance = s.advance.withRest (vs ++ t :: ws) := by
  rcases hrest : s.rest with _ | ⟨u, rest⟩
  · simp [State.advance, hrest] at h
  · have hvs : rest = vs ++ t :: tail := by simpa [State.advance, hrest] using h
    exact ⟨u :: vs, by rw [hvs]; rfl, by simp [State.advance, State.withRest, hrest]⟩

/-- So is taking any number of tokens before it. -/
theorem State.iterate_advance_withRest {n : Nat} (h : (State.advance^[n] s).rest = vs ++ t :: tail)
    (ws : List Token) :
    ∃ us, s.rest = us ++ t :: tail ∧
      State.advance^[n] (s.withRest (us ++ t :: ws)) = (State.advance^[n] s).withRest (vs ++ t :: ws) := by
  induction n generalizing s with
  | zero => exact ⟨vs, h, rfl⟩
  | succ n ih =>
    obtain ⟨us, hus, hiterate⟩ := ih h
    obtain ⟨us', hus', hadvance⟩ := State.advance_withRest hus ws
    refine ⟨us', hus', ?_⟩
    rw [Function.iterate_succ_apply, hadvance, hiterate]
    rfl

/-- Skipping looks at the tokens it skips and at the one it stops before, and at no other. The induction
is on the tokens left. -/
theorem State.skip_go_withRest {rest : List Token} {last : Option Token} {index : Nat}
    (h : (State.skip.go s last index rest).rest = vs ++ t :: tail) (ws : List Token) :
    ∃ us, rest = us ++ t :: tail ∧ ∀ rest', State.skip.go (s.withRest rest') last index (us ++ t :: ws) =
      (State.skip.go s last index rest).withRest (vs ++ t :: ws) := by
  induction rest generalizing last index with
  | nil => simp [State.skip.go] at h
  | cons u rest ih =>
    unfold State.skip.go at h ⊢
    split at h
    next hstop =>
      -- the walk stops at `u`, so that all tokens from here on are left
      refine ⟨vs, h, fun rest' => ?_⟩
      cases vs with
      | nil =>
        obtain rfl : u = t := (List.cons.inj h).1
        simp [State.withRest, hstop]
      | cons v vs =>
        obtain rfl : u = v := (List.cons.inj h).1
        simp [State.withRest, hstop]
    next hstop =>
      obtain ⟨us, hus, hgo⟩ := ih h
      refine ⟨u :: us, by rw [hus]; rfl, fun rest' => ?_⟩
      rw [if_neg hstop, ← hgo rest']
      exact if_neg hstop

/-- So skipping that stops before a token is the same, whatever follows the token. -/
theorem State.skip_withRest (h : s.skip.rest = vs ++ t :: tail) (ws : List Token) :
    ∃ us, s.rest = us ++ t :: tail ∧ (s.withRest (us ++ t :: ws)).skip = s.skip.withRest (vs ++ t :: ws) :=
  let ⟨us, hus, hskip⟩ := State.skip_go_withRest h ws
  ⟨us, hus, hskip _⟩

/-- So is finding a place to go on. -/
theorem State.synchronize_withRest {start : Nat} (h : (s.synchronize start).rest = vs ++ t :: tail)
    (ws : List Token) :
    ∃ us, s.rest = us ++ t :: tail ∧
      (s.withRest (us ++ t :: ws)).synchronize start = (s.synchronize start).withRest (vs ++ t :: ws) := by
  unfold State.synchronize at h ⊢
  split at h
  next hindex =>
    obtain ⟨us, hus, hskip⟩ := State.skip_withRest h ws
    obtain ⟨us', hus', hadvance⟩ := State.advance_withRest hus ws
    refine ⟨us', hus', ?_⟩
    simp [hindex, hadvance, hskip]
  next hindex =>
    obtain ⟨us, hus, hskip⟩ := State.skip_withRest h ws
    refine ⟨us, hus, ?_⟩
    simp [hindex, hskip]

/-- Whether one of some tokens is next is the same, whatever follows a token ahead. -/
theorem Clear.withRest {kinds : List Kind} (h : Clear kinds s.rest) (hrest : s.rest = us ++ t :: tail) :
    Clear kinds (s.withRest (us ++ t :: ws)).rest := by
  rw [hrest] at h
  cases us <;> simpa [State.withRest] using h

/-! ## All parts -/

/-- A step that leaves the tokens as they are. -/
theorem Blind.of_rest {r : Except Abandoned α} (hrest : s'.rest = s.rest)
    (h : ∀ us, s.rest = us ++ t :: tail →
      value rules x (s.withRest (us ++ t :: ws)) = some (r, s'.withRest (us ++ t :: ws))) :
    Blind t tail ws x s (r, s') :=
  fun vs hvs => ⟨vs, hrest.symm.trans hvs, h vs (hrest.symm.trans hvs)⟩

/-- A step that takes the next token, whatever follows this. -/
theorem Blind.of_taken {a : α} {u : Token} {rest : List Token} (hrest : s.rest = u :: rest)
    (h : ∀ rest', value rules x (s.withRest (u :: rest')) =
      some (.ok a, (s.withRest (u :: rest')).advance)) : Blind t tail ws x s (.ok a, s.advance) := by
  intro vs hvs
  have hsplit : rest = vs ++ t :: tail := by simpa [State.advance, hrest] using hvs
  refine ⟨u :: vs, by rw [hrest, hsplit]; rfl, ?_⟩
  rw [List.cons_append, h]
  simp [State.advance, State.withRest, hrest]

/-- A sequence sees one token ahead if its parts do. -/
theorem Blind.bind {f : α → Parse β} {a : α} {out : Except Abandoned β × State}
    (hx : Blind t tail ws x s (.ok a, s')) (hf : Blind t tail ws (f a) s' out) :
    Blind t tail ws (x >>= f) s out := by
  intro vs hvs
  obtain ⟨us, hus, hf⟩ := hf vs hvs
  obtain ⟨us', hus', hx⟩ := hx us hus
  exact ⟨us', hus', by rw [Routine.value_bind_ok rules f hx, hf]⟩

/-- A sequence whose first part is given up has seen what that part has seen. -/
theorem Blind.bind_error {f : α → Parse β} {e : Abandoned} (hx : Blind t tail ws x s (.error e, s')) :
    Blind t tail ws (x >>= f) s (.error e, s') := by
  intro vs hvs
  obtain ⟨us, hus, hx⟩ := hx vs hvs
  exact ⟨us, hus, by rw [Routine.value_bind, hx]; rfl⟩

/-- A part that does what another one does, but for what it makes of the outcome. -/
theorem Blind.map {out : Except Abandoned α × State} {out' : Except Abandoned β × State}
    (h : Blind t tail ws x s out) (hstart : s'.rest = s.rest) (hrest : out'.2.rest = out.2.rest)
    (hvalue : ∀ us vs, value rules x (s.withRest us) = some (out.1, out.2.withRest vs) →
      value rules y (s'.withRest us) = some (out'.1, out'.2.withRest vs)) :
    Blind t tail ws y s' out' := by
  intro vs hvs
  obtain ⟨us, hus, hx⟩ := h vs (hrest.symm.trans hvs)
  exact ⟨us, hstart.trans hus, hvalue _ _ hx⟩

/-- Accepting a token looks at the next one only. -/
theorem meets_blind_accept (kinds : List Kind) (s : State) :
    (Parse.accept? kinds).Meets (blinded t tail ws) s (Blind t tail ws (Parse.accept? kinds) s) := by
  show (Parse.accept? kinds s).Meets _ _
  rcases exists_or_clear kinds s.rest with ⟨u, rest, hrest, hkind⟩ | hclear
  · rw [Parse.accept_taken hrest hkind]
    exact .of_taken hrest fun rest' => Routine.value_of_done rules (Parse.accept_taken rfl hkind)
  · rw [Parse.accept_none hclear]
    exact .of_rest rfl fun us hus => Routine.value_of_done rules (Parse.accept_none (hclear.withRest hus))

/-- So does expecting one. -/
theorem meets_blind_expect (kind : Kind) (what : Expected) (s : State) :
    (Parse.expect kind what).Meets (blinded t tail ws) s (Blind t tail ws (Parse.expect kind what) s) := by
  show (Parse.expect kind what s).Meets _ _
  rcases exists_or_clear [kind] s.rest with ⟨u, rest, hrest, hkind⟩ | hclear
  · rw [List.mem_singleton] at hkind
    rw [Parse.expect_taken hrest hkind]
    exact .of_taken hrest fun rest' => Routine.value_of_done rules (Parse.expect_taken rfl hkind)
  · rw [Parse.expect_refused hclear]
    refine .of_rest rfl fun us hus => ?_
    have hrefused : Parse.expect kind what (s.withRest (us ++ t :: ws)) = _ :=
      Parse.expect_refused (hclear.withRest hus)
    rw [State.peek_withRest hus] at hrefused
    exact Routine.value_of_done rules hrefused

/-- **No part looks beyond the next token.** -/
theorem Assembled.meets_blind (hx : Assembled x) (s : State) :
    x.Meets (blinded t tail ws) s (Blind t tail ws x s) := by
  induction hx generalizing s with
  | pure | index | report | refuse => exact .of_rest rfl fun _ _ => rfl
  | peek | peekKind =>
    refine .of_rest rfl fun us hus => ?_
    simp only [Parse.peek, Parse.peekKind, Routine.value_step, State.peek_withRest hus]
  | advance =>
    intro vs hvs
    obtain ⟨us, hus, hadvance⟩ := State.advance_withRest hvs ws
    exact ⟨us, hus, by rw [Parse.advance, Routine.value_modify, hadvance]⟩
  | accept kinds => exact meets_blind_accept kinds s
  | expect kind what => exact meets_blind_expect kind what s
  | reportBeyond before complaint =>
    rw [Parse.reportBeyond, Routine.meets_modify]
    split
    · refine .of_rest rfl fun us hus => ?_
      rw [Routine.value_modify, State.peek_withRest hus]
      rfl
    · exact .of_rest rfl fun _ _ => rfl
  | reportOutside t complaint =>
    rw [Parse.reportOutside, Routine.meets_modify]
    split
    next hdepth => exact .of_rest rfl fun us hus => by simp [State.withRest, hdepth]
    next hdepth => exact .of_rest rfl fun us hus => by simp [State.withRest, hdepth, State.report]
  | synchronize start =>
    intro vs hvs
    obtain ⟨us, hus, hsynchronize⟩ := State.synchronize_withRest hvs ws
    exact ⟨us, hus, by rw [Routine.value_modify, hsynchronize]⟩
  | call g =>
    refine ⟨trivial, fun out hout => hout.map rfl rfl fun us vs hvalue => ?_⟩
    rwa [Routine.value_call]
  | become g =>
    refine ⟨trivial, fun out hout => hout.map rfl rfl fun us vs hvalue => ?_⟩
    rwa [Routine.value_become]
  | bind hx hf ihx ihf =>
    rw [Routine.meets_bind]
    refine (ihx s).mono ?_
    rintro ⟨e | a, s'⟩ hx
    · exact hx.bind_error
    · exact (ihf a s').mono fun out hf => hx.bind hf
  | attempt hx ih =>
    rw [Routine.meets_attempt]
    refine (ih s).mono fun out hout => hout.map rfl rfl fun us vs hvalue => ?_
    rw [Routine.value_attempt, hvalue]
    rfl
  | @inFunction α x hx ih =>
    show (x.ensuring _).Meets (blinded t tail ws) { s with depth := s.depth + 1 } _
    rw [Routine.meets_ensuring]
    refine (ih _).mono fun out hout => hout.map rfl rfl fun us vs hvalue => ?_
    rw [value_inFunction]
    exact congrArg (Option.map _) hvalue

/-- All productions see one token ahead. -/
theorem rules_keep_blinded : Routine.Keeps rules (blinded t tail ws) :=
  fun g s _ => (Assembled.goal g).meets_blind s

/-- **Whatever is put together from the steps of the parser sees one token ahead.** -/
theorem Assembled.blind (hx : Assembled x) {out : Except Abandoned α × State}
    (h : value rules x s = some out) (t : Token) (tail ws : List Token) : Blind t tail ws x s out :=
  rules_keep_blinded.post_of_value (hx.meets_blind s) h

/-! ## What is begun on the way -/

/-- **What is begun before a token is begun there whatever follows this token.** -/
theorem Enters.blind (h : Enters x s y u) (hu : u.rest = vs ++ t :: tail) (ws : List Token) :
    ∃ us, s.rest = us ++ t :: tail ∧
      Enters x (s.withRest (us ++ t :: ws)) y (u.withRest (vs ++ t :: ws)) := by
  induction h with
  | here hx => exact ⟨vs, hu, .here hx⟩
  | first hx hf h ih =>
    obtain ⟨us, hus, h⟩ := ih hu
    exact ⟨us, hus, .first hx hf h⟩
  | later hx hf hvalue h ih =>
    obtain ⟨us, hus, h⟩ := ih hu
    obtain ⟨us', hus', hvalue⟩ := hx.blind hvalue t tail ws us hus
    exact ⟨us', hus', .later hx hf hvalue h⟩
  | call h ih =>
    obtain ⟨us, hus, h⟩ := ih hu
    exact ⟨us, hus, .call h⟩
  | become h ih =>
    obtain ⟨us, hus, h⟩ := ih hu
    exact ⟨us, hus, .become h⟩
  | attempt h ih =>
    obtain ⟨us, hus, h⟩ := ih hu
    exact ⟨us, hus, .attempt h⟩
  | inFunction h ih =>
    obtain ⟨us, hus, h⟩ := ih hu
    exact ⟨us, hus, .inFunction h⟩
  | synchronize start n s =>
    obtain ⟨us, hus, hiterate⟩ := State.iterate_advance_withRest hu ws
    exact ⟨us, hus, hiterate ▸ .synchronize start n _⟩

/-- What such a part adds to the diagnostics is a list of complaints at the end. -/
theorem Assembled.exists_notes (hx : Assembled x) {out : Except Abandoned α × State}
    (h : value rules x s = some out) : ∃ ds, Notes s ds out.2 :=
  let ⟨ds, hds, _⟩ := hx.noting h
  ⟨ds, hds⟩

/-- What was noted between two states of which the later has noted nothing new is nothing. -/
theorem Notes.unchanged (h : Notes s [] s') (h' : Notes s [] u) : Notes s' [] u :=
  ⟨by rw [h'.diagnostics, h.diagnostics]; simp, by rw [h'.hadError, h.hadError]; simp⟩

/-- **What is noted about a part stays noted.** -/
theorem Enters.notes (h : Enters x s y u) {out : Except Abandoned β × State}
    {out' : Except Abandoned α × State} (hy : value rules y u = some out)
    (hx : value rules x s = some out') : ∃ ds, Notes out.2 ds out'.2 := by
  induction h with
  | here _ =>
    obtain rfl := Option.some.inj (hy.symm.trans hx)
    exact ⟨[], .refl _⟩
  | first hx' hf h ih =>
    rw [Routine.value_bind, Option.bind_eq_some_iff] at hx
    obtain ⟨⟨e | a, s'⟩, hfirst, hrest⟩ := hx
    · cases hrest
      exact ih hy hfirst
    · obtain ⟨ds, hds⟩ := ih hy hfirst
      obtain ⟨es, hes⟩ := (hf a).exists_notes hrest
      exact ⟨ds ++ es, hds.trans hes⟩
  | later hx' hf hvalue h ih =>
    rw [Routine.value_bind_ok rules _ hvalue] at hx
    exact ih hy hx
  | call h ih => exact ih hy (by rwa [Routine.value_call] at hx)
  | become h ih => exact ih hy (by rwa [Routine.value_become] at hx)
  | attempt h ih =>
    rw [Routine.value_attempt, Option.map_eq_some_iff] at hx
    obtain ⟨out', hout', rfl⟩ := hx
    exact ih hy hout'
  | inFunction h ih =>
    rw [value_inFunction, Option.map_eq_some_iff] at hx
    obtain ⟨out', hout', rfl⟩ := hx
    obtain ⟨ds, hds⟩ := ih hy hout'
    exact ⟨ds, hds.diagnostics, hds.hadError⟩
  | synchronize start n s =>
    cases hy
    cases hx
    obtain ⟨m, hm⟩ := synchronize_eq_iterate start s
    have hsynchronized := Notes.iterate m s
    rw [← hm] at hsynchronized
    exact ⟨[], ((Notes.iterate n s).trans (Notes.advance _)).unchanged hsynchronized⟩

/-! ## What the course of a part begins -/

/-- All goals that are put in the course of a part are begun. -/
theorem Assembled.enters_of_course (hx : Assembled x) {qs : List (Goal × State)}
    {out : Except Abandoned α × State} (h : Plan.Course (rulesOf rules) (x s) qs out) {g : Goal}
    (hg : (g, u) ∈ qs) : Enters x s (rules g) u := by
  -- on the length of the course, since the course of a goal is shorter than one in which it is put
  induction hlength : qs.length using Nat.strong_induction_on generalizing α x s qs out with
  | _ n ih =>
    subst hlength
    induction hx generalizing s qs with
    | call g' =>
      cases h with
      | ask hr h =>
        cases h
        rw [List.append_nil] at ih hg
        rcases List.mem_cons.1 hg with hg | hg
        · cases hg
          exact .call (.here (.goal _))
        · exact .call (ih _ (Nat.lt_succ_self _) (.goal g') hr hg rfl)
    | become g' =>
      cases h with
      | pass _ hr =>
        rcases List.mem_cons.1 hg with hg | hg
        · cases hg
          exact .become (.here (.goal _))
        · exact .become (ih _ (Nat.lt_succ_self _) (.goal g') hr hg rfl)
    | bind hx hf ihx ihf =>
      obtain ⟨⟨r, s'⟩, qs₁, qs₂, rfl, h₁, h₂⟩ := h.of_bind
      have hvalue := h₁.eval
      rcases List.mem_append.1 hg with hg | hg
      · exact .first hx hf (ihx h₁ hg fun m hm => ih m (by simp; omega))
      · cases r with
        | error e =>
          cases h₂
          cases hg
        | ok a => exact .later hx hf hvalue (ihf a h₂ hg fun m hm => ih m (by simp; omega))
    | attempt hx ihx =>
      obtain ⟨out, qs₁, qs₂, rfl, h₁, h₂⟩ := h.of_bind
      cases h₂
      rw [List.append_nil] at ih hg
      exact .attempt (ihx h₁ hg ih)
    | inFunction hx ihx =>
      obtain ⟨out, qs₁, qs₂, rfl, h₁, h₂⟩ := h.of_bind
      cases h₂
      rw [List.append_nil] at ih hg
      exact .inFunction (ihx h₁ hg ih)
    | _ =>
      cases h
      cases hg

/-- Every goal that a part puts on its way is begun by it. -/
theorem Assembled.enters_of_puts (hx : Assembled x) {out : Except Abandoned α × State}
    (hvalue : value rules x s = some out) {g : Goal} (h : Plan.Puts (rulesOf rules) (x s) (g, u)) :
    Enters x s (rules g) u :=
  let ⟨_, hcourse⟩ := Plan.exists_course hvalue
  hx.enters_of_course hcourse (h.mem_course hcourse)

end Treewalk.Grammar
