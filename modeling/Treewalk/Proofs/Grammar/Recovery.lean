import Treewalk.Proofs.Grammar.FirstFailure

/-!
# Going on after a declaration that was abandoned

Where the parser goes on is found without regard to why the declaration was abandoned. It goes on where it is
if the next token is taken for the beginning of a statement, or if it is at the end
(`State.synchronize_of_restarts`).
-/

namespace Treewalk.Grammar

open Routine (value)

variable {s s' : State} {us rest : List Token}

/-- The tokens end here, or the next one is taken for the beginning of a statement after an error. -/
def Restarts (us : List Token) : Prop :=
  ∀ t ∈ us.head?, State.beginsStatement t.kind = true

/-- Where a statement seems to begin, nothing is skipped. -/
theorem State.skip_of_restarts (h : Restarts s.rest) : s.skip = s := by
  unfold State.skip
  cases hrest : s.rest with
  | nil =>
    rw [State.skip.go, ← hrest]
  | cons t rest =>
    have ht : beginsStatement t.kind = true := h t (by simp [hrest])
    rw [State.skip.go, ht, Bool.or_true, if_pos rfl, ← hrest]

/-- A declaration that took a token leaves the parser where it was abandoned, if a statement can begin
there. -/
theorem State.synchronize_of_restarts {start : Nat} (hindex : s.index ≠ start) (h : Restarts s.rest) :
    s.synchronize start = s := by
  unfold State.synchronize
  rw [if_neg hindex]
  exact State.skip_of_restarts h

/-- A declaration that is read is one that is not dropped. -/
theorem value_declaration_of_ok {d : Stmt} (h : value rules declarationBody s = some (.ok d, s')) :
    value rules declaration s = some (.ok (some d), s') := by
  have hindex : value rules Parse.index s = some (.ok s.index, s) := rfl
  rw [declaration, Routine.value_bind_ok rules _ hindex, Routine.value_bind, Routine.value_attempt, h]
  rfl

/-- Beyond some tokens the end is still marked. -/
theorem State.Sealed.beyond (hs : s.Sealed) {ds : List Diagnostic} : (s.beyond us ds).Sealed :=
  ⟨hs.1, fun t ht => hs.2 t (List.mem_of_mem_drop ht)⟩

/-- Before a phrase that begins with some token the parser is not at the end. -/
theorem State.peek_kind_ne_eof {kinds : List Kind} (hs : s.rest = us ++ rest) (hus : Begins kinds us)
    (heof : .eof ∉ kinds) : s.peek.kind ≠ .eof := by
  obtain ⟨t, us, rfl, ht⟩ := hus
  intro hend
  have hpeek : s.peek = t := by simp [State.peek, hs]
  exact heof (by rwa [← hend, hpeek])

/-- A declaration that is read is one round, whatever was read before it. -/
theorem takes_round {b : Bool} {ds : List Diagnostic} {d : Stmt}
    (h : Takes b rest us ds declarationBody (pure d)) (hbegins : Begins declarationKinds us)
    (read : List Stmt) : Takes b rest us ds (program read) (program (d :: read)) := by
  intro s hs hb
  exact value_program_of_declaration (State.peek_kind_ne_eof hs hbegins (by decide))
    (value_declaration_of_ok (h s hs hb)) read

/-- Declarations that are read are rounds, whatever was read before them. -/
theorem Derives.takes_program {b : Bool} {us : List Token} {ss : List Stmt} {ds : List Diagnostic}
    (h : Derives (.declarations b) us ss ds) {rest : List Token} (hclear : Clear [.kwElse] rest)
    (read : List Stmt) : Takes b rest us ds (program read) (program (ss.reverse ++ read)) := by
  match h with
  | .noDeclarations => exact Takes.refl _
  | @Derives.moreDeclarations _ _ vs _ _ _ _ hss hs =>
    have hbegins : Begins declarationKinds vs := hs.begins_of_not_nullable rfl
    have hfirst := hss.takes_program (hbegins.clear (by decide) rest) read
    have hlast := takes_round (hs.understood rest hclear) hbegins
    rw [List.reverse_append]
    exact hfirst.trans (hlast _)
termination_by ss.length
decreasing_by simp

/-- A token is missing after the tokens of a declaration that has nothing else wrong with it, and a statement
can begin there. Then the next token is complained about, and the parser goes on with it. -/
theorem value_declaration_of_missing {b : Bool} {kind : Kind} {what : Expected}
    {f : Token → Parse Stmt} (htakes : Takes b rest us [] declarationBody (Parse.expect kind what >>= f))
    (hs : s.rest = us ++ rest) (hb : s.inBody = b) (hus : us ≠ []) (hclear : Clear [kind] rest)
    (hrestarts : Restarts rest) :
    value rules declaration s =
      some (.ok none, s.beyond us [.atToken (rest.headD s.finish) (.expected what)]) := by
  have hrest : ∀ ds, (s.beyond us ds).rest = rest := State.rest_beyond hs
  have hpeek : (s.beyond us []).peek = rest.headD s.finish := by
    rw [State.peek, hrest]
    rfl
  have hrefused : value rules declarationBody s =
      some (.error ⟨⟩, s.beyond us [.atToken (rest.headD s.finish) (.expected what)]) := by
    have hexpect : Parse.expect kind what (s.beyond us []) =
        .done (.error ⟨⟩, (s.beyond us []).report (s.beyond us []).peek (.expected what)) :=
      Parse.expect_refused (by rwa [hrest])
    rw [htakes s hs hb, Routine.value_of_done rules (Routine.bind_apply_of_error hexpect f), hpeek,
      State.report_eq_beyond, State.beyond_beyond, List.append_nil]
    rfl
  have hmoved : s.index + us.length ≠ s.index := by
    have hpos := List.length_pos_of_ne_nil hus
    omega
  rw [value_declaration_of_error hrefused, State.synchronize_of_restarts hmoved (by rwa [hrest])]

end Treewalk.Grammar
