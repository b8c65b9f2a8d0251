import Treewalk.Proofs.Grammar.Echo

/-!
# What was read before does not matter

The parser keeps what it has taken and noted so far, but nothing it does depends on that: put before the same
tokens after something else (`State.after`), it reads the same, with the same complaints
(`value_program_after`). All parts that go by the next token follow at once. A declaration compares two
counts of tokens and looks at the token taken last; the counts differ by the same number, and where the last
token counts it has been taken by the declaration itself.
-/

namespace Treewalk.Grammar

open Routine (value)

variable {s₀ s s' t : State} {i : Nat}

/-! ## States after other states -/

/-- What is left in `s` is read after everything that `s₀` has taken and noted. -/
def State.after (s₀ s : State) : State :=
  { s with
    index := s₀.index + s.index
    last := s.last.or s₀.last
    diagnostics := s₀.diagnostics ++ s.diagnostics
    hadError := s₀.hadError || s.hadError }

/-- Taking a token is the same after anything else. -/
theorem State.advance_after (s₀ s : State) : (s₀.after s).advance = s₀.after s.advance := by
  obtain ⟨rest, finish, index, last, depth, diagnostics, hadError⟩ := s
  cases rest with
  | nil => rfl
  | cons u us => simp [State.advance, State.after, Nat.add_assoc]

/-- So is noting a complaint. -/
theorem State.report_after (s₀ s : State) (u : Token) (complaint : Complaint) :
    (s₀.after s).report u complaint = s₀.after (s.report u complaint) := by
  simp [State.report, State.after]

/-- The same walk over the same tokens, if the first run knows the token taken last. -/
theorem State.skip_go_after (s₀ s : State) {last : Option Token} {us : List Token}
    (h : us = [] ∨ last ≠ none) (index : Nat) :
    State.skip.go (s₀.after s) (last.or s₀.last) (s₀.index + index) us =
      s₀.after (State.skip.go s last index us) := by
  induction us generalizing last index with
  | nil => rfl
  | cons u us ih =>
    obtain ⟨v, rfl⟩ : ∃ v, last = some v := Option.ne_none_iff_exists'.1 (h.resolve_left (by simp))
    rw [show (some v).or s₀.last = some v from rfl]
    unfold State.skip.go
    by_cases hstop : ((some v).any (·.kind = .semicolon) || State.beginsStatement u.kind) = true
    · rw [if_pos hstop, if_pos hstop]
      rfl
    · rw [if_neg hstop, if_neg hstop]
      exact ih (.inr (Option.some_ne_none u)) (index + 1)

/-- `t` is `s` after `s₀`, at least `i` tokens have been taken in `s`, and if one has been taken it is known
which was the last. -/
structure Behind (s₀ : State) (i : Nat) (s t : State) : Prop where
  eq : t = s₀.after s
  le : i ≤ s.index
  start : s.last = none → s.index = 0

namespace Behind

/-- Two runs that read the same tokens still do after each has taken one. -/
theorem advance (h : Behind s₀ i s t) : Behind s₀ i s.advance t.advance := by
  refine ⟨by rw [h.eq, State.advance_after], ?_, ?_⟩
  · refine Nat.le_trans h.le ?_
    unfold State.advance
    split
    · exact Nat.le_refl _
    · exact Nat.le_succ _
  · unfold State.advance
    split
    · exact h.start
    · exact nofun

/-- So after each has taken any number. -/
theorem iterate (h : Behind s₀ i s t) (n : Nat) :
    Behind s₀ i (State.advance^[n] s) (State.advance^[n] t) := by
  induction n generalizing s t with
  | zero => exact h
  | succ n ih => exact ih h.advance

/-- So after each has skipped to the next statement. This goes by the token taken last, which must be one
of the same run, unless nothing is left. -/
theorem skip (h : Behind s₀ i s t) (hlast : s.rest = [] ∨ s.last ≠ none) :
    Behind s₀ i s.skip t.skip := by
  obtain ⟨n, hn⟩ := skip_eq_iterate s
  have hiterate := h.iterate n
  refine ⟨?_, hn ▸ hiterate.le, hn ▸ hiterate.start⟩
  rw [h.eq]
  exact State.skip_go_after s₀ s hlast s.index

/-- A declaration that began `i` tokens after the beginning. -/
theorem synchronize (h : Behind s₀ i s t) :
    Behind s₀ i (s.synchronize i) (t.synchronize (s₀.index + i)) := by
  have hindex : t.index = s₀.index + s.index := by
    rw [h.eq]
    rfl
  unfold State.synchronize
  by_cases hi : s.index = i
  · rw [if_pos hi, if_pos (by rw [hindex, hi])]
    refine h.advance.skip ?_
    unfold State.advance
    split
    next hrest => exact .inl hrest
    next => exact .inr nofun
  · rw [if_neg hi, if_neg (by rw [hindex]; omega)]
    have hle := h.le
    exact h.skip (.inr fun hnone => by have := h.start hnone; omega)

end Behind

/-- Reading after something else keeps what parts that go by the next token look at. -/
theorem alongside_behind (s₀ : State) (i : Nat) : Alongside (fun _ => True) (Behind s₀ i) where
  head h := by rw [h.eq]; rfl
  peek h := by rw [h.eq]; rfl
  depth h := by rw [h.eq]; rfl
  advance h _ := h.advance
  report h u complaint := ⟨by rw [h.eq, State.report_after], h.le, h.start⟩
  withDepth h depth := ⟨by rw [h.eq]; rfl, h.le, h.start⟩

/-! ## The contract -/

/-- A goal that is put after `s₀` ends as it would have ended without `s₀`. -/
def displacing (s₀ : State) : Routine.Contract Goal.Result Abandoned State where
  pre q := q.2.last = none → q.2.index = 0
  post q out := Echoes (Behind s₀ q.2.index) (Behind s₀ q.2.index) (Behind s₀ q.2.index) (rules q.1) q.2 out

/-- So all parts between declarations do the same after something else. -/
theorem Outer.follows {α : Type} {x : Parse α} (hx : Outer none x) (s₀ : State) (i : Nat) :
    Follows (displacing s₀) (Behind s₀ i) (Behind s₀ i) (Behind s₀ i) x := by
  refine (Plain.follows (alongside_behind s₀ i) ?_ hx).of_facing
  rintro g s - ⟨t, ht⟩
  refine ⟨ht.start, fun out hout => hout.mono (fun t ht => ⟨ht.eq, Nat.le_refl _, ht.start⟩) ?_ ?_⟩
  · exact fun u hu => ⟨hu.eq, Nat.le_trans ht.le hu.le, hu.start⟩
  · exact fun u hu => ⟨hu.eq, Nat.le_trans ht.le hu.le, hu.start⟩

/-- So does a declaration: it compares counts of tokens, which differ by the same number. -/
theorem declaration_follows (s₀ s : State) (h : s.last = none → s.index = 0) :
    declaration.Meets (displacing s₀) s ((displacing s₀).post (.declaration, s)) := by
  have hbehind : Behind s₀ s.index s (s₀.after s) := ⟨rfl, Nat.le_refl _, h⟩
  have hbody := (@Outer.declarationBody none).follows s₀ s.index s ⟨_, hbehind⟩
  unfold declaration
  rw [Routine.meets_bind]
  show (Routine.attempt declarationBody >>= _).Meets _ _ _
  rw [Routine.meets_bind, Routine.meets_attempt]
  refine hbody.mono ?_
  rintro ⟨e | d, s'⟩ hecho
  · intro t ht
    obtain ⟨t', hvalue, hrel⟩ := hecho t ht
    refine ⟨_, value_declaration_of_error hvalue, ?_⟩
    rw [show t.index = s₀.index + s.index by rw [ht.eq]; rfl]
    exact hrel.synchronize
  · intro t ht
    obtain ⟨t', hvalue, hrel⟩ := hecho t ht
    exact ⟨t', value_declaration_of_ok hvalue, hrel⟩

/-- All productions do the same after something else. -/
theorem rules_keep_displacing (s₀ : State) : Routine.Keeps rules (displacing s₀) := by
  intro g s h
  by_cases hg : g = .declaration
  · subst hg
    exact declaration_follows s₀ s h
  · exact (Outer.goal hg).follows s₀ s.index s ⟨s₀.after s, rfl, Nat.le_refl _, h⟩

/-- **What was read before does not matter.** -/
theorem value_program_after {read program : List Stmt} (hs : s.last = none → s.index = 0)
    (h : value rules (Grammar.program read) s = some (.ok program, s')) (s₀ : State) :
    value rules (Grammar.program read) (s₀.after s) = some (.ok program, s₀.after s') := by
  have hbehind : Behind s₀ s.index s (s₀.after s) := ⟨rfl, Nat.le_refl _, hs⟩
  have hmeets := (@Outer.program none read).follows s₀ s.index s ⟨_, hbehind⟩
  obtain ⟨t', hvalue, hrel⟩ := (rules_keep_displacing s₀).post_of_value hmeets h _ hbehind
  rw [hvalue, ← (show Behind s₀ s.index s' t' from hrel).eq]

/-- Statements that were read before are put before those that are read. -/
theorem value_program_append {program : List Stmt} (hs : s.Sealed) {read : List Stmt}
    (h : value rules (Grammar.program read) s = some (.ok program, s')) (before : List Stmt) :
    value rules (Grammar.program (read ++ before)) s = some (.ok (before.reverse ++ program), s') := by
  -- on the tokens that are left, of which each round takes some
  induction hlength : s.rest.length using Nat.strong_induction_on generalizing s read with
  | _ n ih =>
    by_cases hend : s.peek.kind = .eof
    · rw [value_program_of_end hend] at h ⊢
      cases h
      rw [List.reverse_append]
    · obtain ⟨d, u, hvalue, -, hu, hshorter⟩ := declaration_moves hs hend
      rw [value_program_of_declaration hend hvalue] at h ⊢
      rw [← List.append_assoc]
      exact ih _ (hlength ▸ hshorter) hu h rfl

end Treewalk.Grammar
