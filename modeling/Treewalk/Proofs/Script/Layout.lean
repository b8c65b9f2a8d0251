import Treewalk.Proofs.Evaluation.Relabelled
import Treewalk.Proofs.Grammar.TwoReadings
import Treewalk.Proofs.Script.Run
import Treewalk.Proofs.Script.Sequence
import Treewalk.Proofs.Tree.Erase

/-!
# Layout does not matter

Blanks, line breaks and comments decide where the tokens of a text stand, and nothing else depends on
that. The parser does the same for tokens without places (`Grammar.parse_erase`), and so does the evaluator
(`Evaluation.value_relabelAll`). Hence two texts with the same tokens, but for their places, are read with
the same complaints at the same tokens, as the same programs, and run with the same output and the same
result, wherever a fault is then said to be (`layout_irrelevant`).
-/

namespace Treewalk

/-- Forgetting places leaves kinds, lexemes and literals alone. -/
theorem Token.moves_erase : Token.Moves Token.erase :=
  ⟨fun _ => rfl, fun _ => rfl, fun _ => rfl⟩

/-- A diagnostic without its line: what it points to and what it says. -/
def Diagnostic.erase (d : Diagnostic) : Location × Complaint :=
  (d.location, d.complaint)

/-- The same failure, at another token. -/
def Failure.relabel (φ : Token → Token) : Failure → Failure
  | .badProgram => .badProgram
  | .fault f => .fault (f.relabel φ)

/-! ## Reading -/

namespace Grammar

/-- The second reading is that of the tokens without places. -/
def placeless : Reading where
  toLikeness := Evaluation.relabelling Token.moves_erase
  exact := id
  literal_eq := by
    rintro t t' rfl
    rfl
  noted d d' := d.erase = d'.erase
  noted_atToken := by
    rintro t t' c rfl -
    rfl

/-- The end that is supplied for tokens without places is the supplied end without its place. -/
theorem suppliedEnd_erase (tokens : List Token) :
    State.suppliedEnd (tokens.map Token.erase) = (State.suppliedEnd tokens).erase := by
  have hline : ((tokens.map Token.erase).getLast?.map (·.stop.line)).getD 1 = 1 := by
    rw [List.getLast?_map]
    cases tokens.getLast? <;> rfl
  unfold State.suppliedEnd
  rw [hline]
  rfl

/-- **Without their places, tokens are read as the same program, with the same complaints.** -/
theorem parse_erase (tokens : List Token) :
    (parse (tokens.map Token.erase)).program =
        Stmt.relabelAll Token.erase (parse tokens).program ∧
      (parse (tokens.map Token.erase)).diagnostics.map Diagnostic.erase =
        (parse tokens).diagnostics.map Diagnostic.erase := by
  have htokens : List.Forall₂ placeless.token tokens (tokens.map Token.erase) :=
    Evaluation.relabelling.tokensLike_relabel Token.moves_erase tokens
  obtain ⟨hprogram, hdiagnostics⟩ :
      (Evaluation.relabelling Token.moves_erase).StmtsLike _ _ ∧ _ :=
    placeless.parse_like htokens (suppliedEnd_erase tokens)
  have hmap : List.Forall₂ Eq ((parse tokens).diagnostics.toList.map Diagnostic.erase)
      ((parse (tokens.map Token.erase)).diagnostics.toList.map Diagnostic.erase) :=
    List.forall₂_map_left_iff.2 (List.forall₂_map_right_iff.2 hdiagnostics)
  rw [List.forall₂_eq_eq_eq, ← Array.toList_map, ← Array.toList_map] at hmap
  exact ⟨Evaluation.relabelling.eq_of_stmtsLike hprogram, Array.toList_inj.1 hmap.symm⟩

end Grammar

namespace Script

open Token
open Evaluation (State)

variable {source source' : String} {log log' : Log}

/-- If its tokens are all right, only the grammar of a text can be complained about. -/
theorem parse_of_tokens (h : (tokenize source).diagnostics = #[]) :
    parse source = Grammar.parse (tokenize source).tokens.toList := by
  unfold parse
  simp only [h, Array.empty_append]

/-- Two texts with the same tokens but for places, both scanned without complaint, give the same program
and the same complaints but for places. -/
theorem parse_alike
    (htokens : (tokenize source').tokens.map Token.erase = (tokenize source).tokens.map Token.erase)
    (h : (tokenize source).diagnostics = #[]) (h' : (tokenize source').diagnostics = #[]) :
    Stmt.relabelAll Token.erase (parse source').program =
        Stmt.relabelAll Token.erase (parse source).program ∧
      (parse source').diagnostics.map Diagnostic.erase =
        (parse source).diagnostics.map Diagnostic.erase := by
  have hlist : (tokenize source').tokens.toList.map Token.erase =
      (tokenize source).tokens.toList.map Token.erase := by
    rw [← Array.toList_map, ← Array.toList_map, htokens]
  obtain ⟨hprogram, hdiagnostics⟩ := Grammar.parse_erase (tokenize source).tokens.toList
  obtain ⟨hprogram', hdiagnostics'⟩ := Grammar.parse_erase (tokenize source').tokens.toList
  rw [parse_of_tokens h, parse_of_tokens h']
  rw [hlist] at hprogram' hdiagnostics'
  exact ⟨hprogram'.symm.trans hprogram, hdiagnostics'.symm.trans hdiagnostics⟩

/-! ## Running -/

/-- If the first run comes to an end, so does the second: with the same output, with the same frames but
for the places of tokens in functions, and with the same result but for the place of a fault. -/
def EndsLike (source : String) (s : State) (log : Log) (source' : String) (s' : State) (log' : Log) :
    Prop :=
  ∀ steps result t after, run steps source s log = some (result, t, after) →
    ∃ steps' result' t' after', run steps' source' s' log' = some (result', t', after') ∧
      t'.sink = t.sink ∧ t'.relabel Token.erase = t.relabel Token.erase ∧
      result'.mapError (Failure.relabel Token.erase) = result.mapError (Failure.relabel Token.erase)

/-- If two programs and two states are the same but for places, then whatever one run comes to, the other
comes to as well, but for places. -/
theorem exists_value_of_relabelAll {program program' : List Stmt} {s s' : State}
    (hprogram : Stmt.relabelAll Token.erase program' = Stmt.relabelAll Token.erase program)
    (hs : s'.relabel Token.erase = s.relabel Token.erase)
    {out : Except Fault Evaluation.Flow × State}
    (h : Routine.value Evaluation.rules (Evaluation.execAll program) s = some out) :
    ∃ out', Routine.value Evaluation.rules (Evaluation.execAll program') s' = some out' ∧
      Evaluation.relabelOutcome Token.erase out' = Evaluation.relabelOutcome Token.erase out := by
  have hvalue := Evaluation.value_relabelAll Token.moves_erase program s
  have hvalue' := Evaluation.value_relabelAll Token.moves_erase program' s'
  rw [hprogram, hs, hvalue, h, Option.map_some] at hvalue'
  exact Option.map_eq_some_iff.1 hvalue'.symm

/-- States that agree but for places have the same sink, and so the same output. -/
theorem sink_of_relabel {φ : Token → Token} {t t' : State} (h : t'.relabel φ = t.relabel φ) :
    t'.sink = t.sink :=
  have hsink : (t'.relabel φ).sink = (t.relabel φ).sink := congrArg State.sink h
  hsink

/-- What a run ends with, but for places, is what the outcome without places ends with. -/
theorem mapError_resultOf (φ : Token → Token) (out : Except Fault Evaluation.Flow × State) :
    (resultOf out.1).mapError (Failure.relabel φ) =
      resultOf (Evaluation.relabelOutcome φ out).1 := by
  obtain ⟨flow | f, s⟩ := out <;> rfl

/-- If two texts read alike and are run in states that are alike, the runs end alike. -/
theorem endsLike_of_read {s s' : State}
    (hread : (read source' log').1.map (Stmt.relabelAll Token.erase) =
      (read source log).1.map (Stmt.relabelAll Token.erase))
    (hs : s'.relabel Token.erase = s.relabel Token.erase) :
    EndsLike source s log source' s' log' := by
  intro steps result t after h
  cases hread' : read source' log' with
  | mk r' after' =>
    rw [hread'] at hread
    rcases run_cases h with ⟨hrefused, rfl, rfl⟩ | ⟨program, flow, haccepted, hvalue, rfl⟩
    · rw [hrefused] at hread
      cases r' with
      | ok program' => cases hread
      | error failure =>
        cases failure_of_read hread'
        exact ⟨0, _, s', after', run_of_error hread' s' 0, sink_of_relabel hs, hs, rfl⟩
    · rw [haccepted] at hread
      cases r' with
      | error failure => cases hread
      | ok program' =>
        obtain ⟨⟨flow', t'⟩, hvalue', hout⟩ :=
          exists_value_of_relabelAll (Except.ok.inj hread) hs hvalue
        obtain ⟨steps', hrun⟩ := exists_run_of_value hread' hvalue'
        have ht : t'.relabel Token.erase = t.relabel Token.erase := congrArg Prod.snd hout
        refine ⟨steps', _, t', after', hrun, sink_of_relabel ht, ht, ?_⟩
        rw [mapError_resultOf _ (flow', t'), mapError_resultOf _ (flow, t), hout]

/-- **Layout does not matter.** Let two texts have the same tokens, one by one, but for their places, and
let all of them be tokens. Then as much is complained about in both, each time at the same token and for
the same reason; both are refused, or the programs are the same but for the places of tokens; and both runs
end, or neither does, and they end alike. -/
theorem layout_irrelevant
    (htokens : (tokenize source').tokens.map Token.erase = (tokenize source).tokens.map Token.erase)
    (h : (tokenize source).diagnostics = #[]) (h' : (tokenize source').diagnostics = #[])
    (hlog : log' = #[] ↔ log = #[]) :
    (∃ ds ds', (read source log).2 = log ++ ds ∧ (read source' log').2 = log' ++ ds' ∧
      ds'.map Diagnostic.erase = ds.map Diagnostic.erase) ∧
    (read source' log').1.map (Stmt.relabelAll Token.erase) =
      (read source log).1.map (Stmt.relabelAll Token.erase) ∧
    ∀ {s s' : State}, s'.relabel Token.erase = s.relabel Token.erase →
      EndsLike source s log source' s' log' ∧ EndsLike source' s' log' source s log := by
  obtain ⟨hprogram, hdiagnostics⟩ := parse_alike htokens h h'
  have hempty : (log' ++ (parse source').diagnostics).isEmpty =
      (log ++ (parse source).diagnostics).isEmpty := by
    have hnone : (parse source').diagnostics = #[] ↔ (parse source).diagnostics = #[] := by
      rw [← Array.map_eq_empty_iff, hdiagnostics, Array.map_eq_empty_iff]
    rw [Bool.eq_iff_iff, Array.isEmpty_iff, Array.isEmpty_iff, Array.append_eq_empty_iff,
      Array.append_eq_empty_iff, hlog, hnone]
  have hread : (read source' log').1.map (Stmt.relabelAll Token.erase) =
      (read source log).1.map (Stmt.relabelAll Token.erase) := by
    simp only [read_eq, hempty]
    split
    · exact congrArg Except.ok hprogram
    · rfl
  refine ⟨⟨_, _, snd_read source log, snd_read source' log', hdiagnostics⟩, hread, fun hs => ?_⟩
  exact ⟨endsLike_of_read hread hs, endsLike_of_read hread.symm hs.symm⟩

/-- A text on the first line, and the same text on the second. -/
theorem layout_irrelevant_newline : ∃ token,
    (read "print nil;" #[]).1 = .ok [.print token (.literal .nil)] ∧
      (read "\nprint nil;" #[]).1.map (Stmt.relabelAll Token.erase) =
        .ok [.print token.erase (.literal .nil)] ∧
      ∀ sink, EndsLike "print nil;" (.initial sink) #[] "\nprint nil;" (.initial sink) #[] := by
  obtain ⟨p₁, p₂, q, hfirst⟩ := yields_print_nil .start
  obtain ⟨p₁', p₂', q', hsecond⟩ := yields_print_nil (Position.start.advance '\n')
  have hhere : tokenize "print nil;" = _ := tokenize_of_yields hfirst
  have hbelow : tokenize "\nprint nil;" = _ := tokenize_of_yields (.blank rfl hsecond)
  have htokens : (tokenize "\nprint nil;").tokens.map Token.erase =
      (tokenize "print nil;").tokens.map Token.erase := by
    rw [hhere, hbelow]
    simp only [List.map_toArray]
    rfl
  obtain ⟨token, -, hread⟩ := read_print_nil
  obtain ⟨-, hprogram, hruns⟩ := layout_irrelevant htokens (by rw [hhere]) (by rw [hbelow])
    (Iff.refl ((#[] : Log) = #[]))
  rw [hread] at hprogram
  exact ⟨token, hread, hprogram, fun sink => (hruns rfl).1⟩

end Script

end Treewalk
