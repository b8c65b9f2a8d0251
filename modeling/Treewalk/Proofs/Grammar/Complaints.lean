import Treewalk.Proofs.Grammar.Progress

/-!
# The parser never drops a declaration in silence

The parser keeps a list of its complaints and, apart from the list, a flag that there was one; and it has
two ways to go on after a complaint, for it can read on or give the declaration up. `Notes s ds s'` says
that from `s` to `s'` the complaints `ds` were added at the end of the list, and that the flag was set if
there were any. Every part of the parser only adds complaints in this way, and a part that is given up has
added one (`Assembled.meets_noting`).

So the flag says no more and no less than the list (`hadError_parse`), and a declaration that is dropped has
left a complaint behind (`notes_of_dropped`).
-/

namespace Treewalk.Grammar

open Routine (call become attempt value)

/-- From `s` to `s'`, the complaints `ds` were noted. -/
structure Notes (s : State) (ds : List Diagnostic) (s' : State) : Prop where
  diagnostics : s'.diagnostics = s.diagnostics ++ ds
  hadError : s'.hadError = (s.hadError || !ds.isEmpty)

/-- What comes of a part of the parser that begins in `s`: some complaints are noted, and at least one if
it is given up. -/
def Noting {α : Type} (s : State) (out : Except Abandoned α × State) : Prop :=
  ∃ ds, Notes s ds out.2 ∧ (∀ e, out.1 = .error e → ds ≠ [])

/-- Goals only add complaints, and have added one if they are given up. -/
def noting : Routine.Contract Goal.Result Abandoned State where
  pre _ := True
  post q out := Noting q.2 out

variable {α : Type} {x : Parse α} {s s' s'' : State} {ds es : List Diagnostic}

namespace Notes

/-- Where nothing happens, nothing is noted. -/
theorem refl (s : State) : Notes s [] s :=
  ⟨by simp, by simp⟩

/-- What is noted first stands first, and the flag stays set. -/
theorem trans (h : Notes s ds s') (h' : Notes s' es s'') : Notes s (ds ++ es) s'' where
  diagnostics := by
    rw [h'.diagnostics, h.diagnostics]
    exact Array.ext' (by simp)
  hadError := by
    rw [h'.hadError, h.hadError]
    cases ds <;> simp

/-- A report notes one complaint. -/
theorem report (s : State) (t : Token) (complaint : Complaint) :
    Notes s [.atToken t complaint] (s.report t complaint) :=
  ⟨by simp [State.report], by simp [State.report]⟩

/-- Taking a token notes nothing. -/
theorem advance (s : State) : Notes s [] s.advance := by
  unfold State.advance
  split
  · exact refl s
  · exact ⟨by simp, by simp⟩

/-- Nor does taking any number of tokens. -/
theorem iterate (n : Nat) (s : State) : Notes s [] (State.advance^[n] s) := by
  induction n with
  | zero => exact refl s
  | succ n ih =>
    rw [Function.iterate_succ_apply']
    exact ih.trans (advance _)

/-- A part that comes to a result may have noted anything. -/
theorem noting_ok (h : Notes s ds s') (a : α) : Noting s (.ok a, s') :=
  ⟨ds, h, fun _ he => nomatch he⟩

/-- A part that is given up has to have noted something, and one complaint will do. -/
theorem noting_error {d : Diagnostic} (h : Notes s [d] s') (e : Abandoned) :
    Noting s ((.error e, s') : Except Abandoned α × State) :=
  ⟨[d], h, fun _ _ => List.cons_ne_nil d []⟩

end Notes

/-- **Single steps only add complaints, and so does what is put together from them**; what is given up has
added one. -/
theorem Assembled.meets_noting (hx : Assembled x) (s : State) : x.Meets noting s (Noting s) := by
  induction hx generalizing s with
  | pure | peek | peekKind | index => exact (Notes.refl s).noting_ok _
  | advance => exact (Notes.advance s).noting_ok _
  | accept kinds =>
    rw [Parse.accept?, Routine.meets_step]
    split
    · split
      · exact (Notes.advance s).noting_ok _
      · exact (Notes.refl s).noting_ok _
    · exact (Notes.refl s).noting_ok _
  | expect kind what =>
    rw [Parse.expect, Routine.meets_step]
    split
    · split
      · exact (Notes.advance s).noting_ok _
      · exact (Notes.report s _ _).noting_error _
    · exact (Notes.report s _ _).noting_error _
  | report t complaint => exact (Notes.report s t complaint).noting_ok _
  | refuse t complaint => exact (Notes.report s t complaint).noting_error _
  | reportBeyond before complaint =>
    rw [Parse.reportBeyond, Routine.meets_modify]
    split
    · exact (Notes.report s _ _).noting_ok _
    · exact (Notes.refl s).noting_ok _
  | reportOutside t complaint =>
    rw [Parse.reportOutside, Routine.meets_modify]
    split
    · exact (Notes.refl s).noting_ok _
    · exact (Notes.report s _ _).noting_ok _
  | synchronize start =>
    rw [Routine.meets_modify]
    obtain ⟨n, hn⟩ := synchronize_eq_iterate start s
    rw [hn]
    exact (Notes.iterate n s).noting_ok _
  | call g | become g => exact ⟨trivial, fun out hout => hout⟩
  | bind hx hf ihx ihf =>
    rw [Routine.meets_bind]
    refine (ihx s).mono ?_
    rintro ⟨e | a, s'⟩ ⟨ds, hds, hgiven⟩
    · exact ⟨ds, hds, fun _ _ => hgiven e rfl⟩
    · refine (ihf a s').mono ?_
      rintro out ⟨es, hes, hgiven'⟩
      refine ⟨ds ++ es, hds.trans hes, fun e he => ?_⟩
      exact List.append_ne_nil_of_right_ne_nil ds (hgiven' e he)
  | attempt hx ih =>
    rw [Routine.meets_attempt]
    refine (ih s).mono ?_
    rintro out ⟨ds, hds, -⟩
    exact hds.noting_ok _
  | @inFunction α x hx ih =>
    show (x.ensuring _).Meets noting { s with depth := s.depth + 1 } _
    rw [Routine.meets_ensuring]
    refine (ih _).mono ?_
    rintro out ⟨ds, hds, hgiven⟩
    exact ⟨ds, ⟨hds.diagnostics, hds.hadError⟩, hgiven⟩

/-- All productions only add complaints, and add one if they are given up. -/
theorem rules_keep_noting : Routine.Keeps rules noting :=
  fun g s _ => (Assembled.goal g).meets_noting s

/-- So does, in every run, whatever is put together from the steps of the parser. -/
theorem Assembled.noting (hx : Assembled x) {out : Except Abandoned α × State}
    (h : value rules x s = some out) : Noting s out :=
  rules_keep_noting.post_of_value (hx.meets_noting s) h

/-- **A declaration is dropped only after a complaint about it.** -/
theorem notes_of_dropped (h : value rules declaration s = some (.ok none, s')) :
    ∃ ds, Notes s ds s' ∧ ds ≠ [] := by
  have hindex : value rules Parse.index s = some (.ok s.index, s) := rfl
  rw [declaration, Routine.value_bind_ok rules _ hindex, Routine.value_bind, Routine.value_attempt] at h
  rcases hbody : value rules declarationBody s with _ | ⟨e | d, s₁⟩
  · simp [hbody] at h
  · -- the body was given up, and what is skipped afterwards is no complaint
    obtain ⟨ds, hds, hgiven⟩ := Assembled.declarationBody.noting hbody
    simp only [hbody, Option.map_some, Option.bind_some, Routine.value_bind, Routine.value_modify,
      Routine.value_pure, Option.some.injEq, Prod.mk.injEq, true_and] at h
    obtain ⟨n, hn⟩ := synchronize_eq_iterate s.index s₁
    have hskipped := hds.trans (Notes.iterate n s₁)
    rw [← hn, h, List.append_nil] at hskipped
    exact ⟨ds, hskipped, hgiven e rfl⟩
  · simp [hbody] at h

/-- **The flag says no more and no less than the list.** -/
theorem hadError_parse (tokens : List Token) :
    (parse tokens).hadError = !(parse tokens).diagnostics.isEmpty := by
  obtain ⟨program, s', hvalue, -⟩ := program_reaches_end [] (sealed_ofTokens tokens)
  obtain ⟨ds, hds, -⟩ := (Assembled.program []).noting hvalue
  have hdiagnostics : s'.diagnostics = ds.toArray := by
    rw [hds.diagnostics]
    exact Array.ext' (by simp [State.ofTokens])
  have hhadError : s'.hadError = !ds.isEmpty := by
    rw [hds.hadError]
    simp [State.ofTokens]
  simp [parse, outcome_eq_value, hvalue, hdiagnostics, hhadError]

end Treewalk.Grammar
