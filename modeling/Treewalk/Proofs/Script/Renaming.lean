import Treewalk.Proofs.Evaluation.Renamed
import Treewalk.Proofs.Grammar.TwoReadings
import Treewalk.Proofs.Script.Layout
import Treewalk.Proofs.Token.Spacing

/-!
# Names can be chosen freely

The names in a text can be replaced by other words that are no keywords, different names by different
words. The text that is written with these (`exists_renames`) is accepted if the first one is, and on a
fresh interpreter the two do the same, but for the names: they print the same values, a function under its
new name; they fail in the same way, an undefined variable being reported under its new name; and they leave
the same frames, with new names (`names_free`).
-/

namespace Treewalk

open Token

/-! ## Reading -/

namespace Grammar

open Evaluation (respelling)

/-- Tokens with other names and places are read in the same way. -/
def respelled {ρ : String → String} {names : Set String} (hρ : Set.InjOn ρ names) : Reading where
  toLikeness := respelling hρ
  exact := id
  literal_eq := by
    rintro t t' ⟨h, -⟩
    have hliteral : t'.erase.literal = (t.renamed ρ).literal := by rw [h]
    exact hliteral.trans (t.literal_rename ρ)
  named_of := by
    rintro t t' ⟨h, hmem⟩ hkind
    exact ⟨h, hkind, hmem hkind⟩
  noted _ _ := True
  noted_atToken _ _ _ := trivial

/-- If the tokens are the renamed ones but for their places, the two lists are alike for the parser. -/
theorem respelled_tokens {ρ : String → String} {names : Set String} (hρ : Set.InjOn ρ names)
    {us us' : List Token} (h : us'.map Token.erase = us.map (Token.renamed ρ))
    (hnames : ∀ t ∈ us, t.kind = .identifier → t.lexeme ∈ names) :
    List.Forall₂ (respelled hρ).token us us' := by
  induction us generalizing us' with
  | nil =>
    rw [List.map_nil, List.map_eq_nil_iff] at h
    rw [h]
    exact .nil
  | cons t us ih =>
    obtain ⟨t', us₁, rfl, ht, hus⟩ := List.map_eq_cons_iff.1 h
    rw [List.forall_mem_cons] at hnames
    exact .cons ⟨ht, hnames.1⟩ (ih hus hnames.2)

/-- Nothing more is cut off where the end token is gone already. -/
theorem beforeEnd_beforeEnd (tokens : List Token) : beforeEnd (beforeEnd tokens) = beforeEnd tokens :=
  List.takeWhile_idem

end Grammar

namespace Script

open Grammar (Sentence beforeEnd parse_of_derives sentence_of_parse respelled)
open Evaluation (State Prints execAll respelling)

/-- The names that occur in a text. -/
def namesOf (source : String) : Set String :=
  {n | ∃ t ∈ tokensOf source, t.kind = .identifier ∧ t.lexeme = n}

/-- The second text has the tokens of the first one, with the names replaced, at whatever places. -/
def Renames (ρ : String → String) (source source' : String) : Prop :=
  (tokenize source').diagnostics = #[] ∧
    (tokensOf source').map Token.erase = (tokensOf source).map (Token.renamed ρ)

variable {ρ : String → String} {source source' : String}

/-- The tokens of a text are genuine: each could have been scanned. -/
theorem genuine_of_mem_tokensOf {t : Token} (h : t ∈ tokensOf source) : t.Genuine := by
  rw [← beforeEnd_tokenize] at h
  have hkind : t.kind ≠ .eof := by simpa using List.mem_takeWhile_imp h
  have hmem := (List.takeWhile_sublist _).subset h
  rw [tokenize_eq, List.toList_toArray] at hmem
  exact genuine_of_mem_scanAll hmem hkind

/-- A genuine token is still genuine when its name is replaced by a word that is no keyword. -/
theorem genuine_rename {t : Token} (ht : t.Genuine)
    (hword : t.kind = .identifier → IsLexeme .identifier (ρ t.lexeme).toList) :
    (t.rename ρ).Genuine := by
  by_cases hkind : t.kind = .identifier
  · constructor
    · rw [t.kind_rename, hkind, Token.lexeme_rename ρ hkind]
      exact hword hkind
    · rw [t.kind_rename, t.literal_rename, ht.literal_eq, hkind]
      rfl
  · unfold Token.rename
    rwa [if_neg hkind]

/-- Alike tokens are the same but for their places. -/
theorem map_erase_of_alike {ts us : List Token} (h : List.Forall₂ Token.Alike ts us) :
    us.map Token.erase = ts.map Token.erase := by
  induction h with
  | nil => rfl
  | @cons t u ts us htu _ ih =>
    have herase : u.erase = t.erase := by
      unfold Token.erase
      rw [htu.kind, htu.lexeme, htu.literal]
    rw [List.map_cons, List.map_cons, herase, ih]

/-- If scanning a text yields certain tokens up to its end, these are the tokens of the text. -/
theorem tokensOf_of_yields {vs : List Token} {p : Position}
    (h : Yields (.ofString source) vs ⟨p, []⟩) : tokensOf source = vs := by
  unfold tokensOf
  rw [tokenize_of_yields h, List.toList_toArray, List.dropLast_concat]

/-- **The names can be replaced**: there is such a text. -/
theorem exists_renames
    (hwords : ∀ n ∈ namesOf source, IsLexeme .identifier (ρ n).toList) :
    ∃ source', Renames ρ source source' := by
  have hgenuine : ∀ t ∈ (tokensOf source).map (Token.rename ρ), t.Genuine := by
    intro t ht
    obtain ⟨u, hu, rfl⟩ := List.mem_map.1 ht
    exact genuine_rename (genuine_of_mem_tokensOf hu) fun hkind => hwords _ ⟨u, hu, hkind, rfl⟩
  have hfinish : (Token.synthetic .eof "" 1).lexeme = "" := rfl
  obtain ⟨us, q, hus, halike⟩ := exists_yields_spaced hgenuine hfinish .start
  refine ⟨spaced ((tokensOf source).map (Token.rename ρ) ++ [Token.synthetic .eof "" 1]), ?_, ?_⟩
  · rw [tokenize_of_yields hus]
  · rw [tokensOf_of_yields hus, map_erase_of_alike halike, List.map_map]
    rfl

/-- **A text with other names is accepted**, as a like program. -/
theorem read_of_renames {program : List Stmt} (h : read source #[] = (.ok program, #[]))
    (hρ : Set.InjOn ρ (namesOf source)) (hnames : Renames ρ source source') :
    ∃ program', read source' #[] = (.ok program', #[]) ∧
      (respelling hρ).StmtsLike program program' := by
  obtain ⟨-, hsentence⟩ := read_eq_ok_iff.1 h
  have hend : ∀ source, beforeEnd (tokensOf source) = tokensOf source := by
    intro source
    rw [← beforeEnd_tokenize, Grammar.beforeEnd_beforeEnd]
  have htokens : List.Forall₂ (respelled hρ).token (tokensOf source) (tokensOf source') :=
    Grammar.respelled_tokens hρ hnames.2 fun t ht hkind => ⟨t, ht, hkind, rfl⟩
  obtain ⟨hprogram, hnoted⟩ := (respelled hρ).parse_like htokens ⟨rfl, nofun⟩
  rw [parse_of_derives (by rwa [hend])] at hprogram hnoted
  have hclean : (Grammar.parse (tokensOf source')).diagnostics = #[] := by
    simpa using hnoted.length_eq.symm
  have hsentence' := sentence_of_parse hclean
  rw [hend] at hsentence'
  exact ⟨_, read_eq_ok_iff.2 ⟨hnames.1, hsentence'⟩, hprogram⟩

/-! ## Running -/

/-- On a fresh interpreter, without a limit to the output, the program of an accepted text prints these
values and ends in this way. -/
def Shows (source : String) (vs : List Value) (result : Except Failure Unit) (t : State) : Prop :=
  ∃ program flow, read source #[] = (.ok program, #[]) ∧
    Prints (execAll program) (.initial (.empty none)) vs (flow, t) ∧ result = resultOf flow

/-- An accepted text that is run to its end shows something. -/
theorem exists_shows {program : List Stmt} (h : read source #[] = (.ok program, #[])) {steps : Nat}
    {result : Except Failure Unit} {t : State} {log : Log}
    (hrun : run steps source (.initial (.empty none)) #[] = some (result, t, log)) :
    log = #[] ∧ ∃ vs, Shows source vs result t := by
  rcases run_cases hrun with ⟨hrefused, -⟩ | ⟨program', flow, haccepted, hvalue, hresult⟩
  · exact nomatch congrArg Prod.fst (h.symm.trans hrefused)
  · obtain ⟨hprogram, hlog⟩ := Prod.mk.inj (h.symm.trans haccepted)
    obtain rfl := Except.ok.inj hprogram
    obtain ⟨vs, hprints⟩ := Evaluation.exists_prints hvalue
    exact ⟨hlog.symm, vs, program, flow, h, hprints, hresult⟩

namespace Shows

variable {vs : List Value} {result : Except Failure Unit} {t : State}

/-- What a text shows is what some run of it comes to, from a fresh interpreter. -/
theorem exists_run (h : Shows source vs result t) :
    ∃ steps, run steps source (.initial (.empty none)) #[] = some (result, t, #[]) := by
  obtain ⟨program, flow, hread, hprints, rfl⟩ := h
  exact exists_run_of_value hread hprints.value

/-- What is written are the lines of the values that are printed. -/
theorem sink_eq (h : Shows source vs result t) : t.sink = ⟨Value.lines vs, none⟩ := by
  obtain ⟨program, flow, -, hprints, -⟩ := h
  have hquiet : Evaluation.AssembledIf False (fun _ => True) (execAll program) :=
    .execAll fun _ _ => trivial
  have hsink := hprints.sink_eq hquiet rfl
  rwa [ByteArray.empty_append] at hsink

end Shows

/-- Relabelling what a run ends with is relabelling the fault that its program ended with. -/
theorem mapError_relabel_resultOf (φ : Token → Token) (flow : Except Fault Evaluation.Flow) :
    (resultOf flow).mapError (Failure.relabel φ) =
      ((flow.map fun _ => ()).mapError (Fault.relabel φ)).mapError .fault := by
  cases flow <;> rfl

/-- The message of a failure does not tell where its tokens stand. -/
theorem Failure.message_relabel_erase (f : Failure) : (f.relabel Token.erase).message = f.message := by
  cases f with
  | badProgram => rfl
  | fault f => exact f.message_relabel_erase

/-- Two runs, as they are shown, that are the same but for the names. -/
structure AlikeButForNames (ρ : String → String) (vs : List Value) (result : Except Failure Unit)
    (t : State) (vs' : List Value) (result' : Except Failure Unit) (t' : State) : Prop where
  values : vs'.map (Value.relabel Token.erase) = vs.map (Value.relabel (Token.renamed ρ))
  output : t.sink = ⟨Value.lines vs, none⟩ ∧ t'.sink = ⟨Value.lines vs', none⟩
  failure : result'.mapError (Failure.relabel Token.erase) =
    result.mapError (Failure.relabel (Token.renamed ρ))
  message : result'.mapError Failure.message =
    result.mapError fun f => (f.relabel (Token.renamed ρ)).message
  store : t'.store.relabel Token.erase = t.store.rename (Token.renamed ρ) ρ

/-- **The renamed program shows the same under new names**: if two texts are read as programs that are
alike but for names, then what the first shows the second shows as well, but for names. -/
theorem Shows.exists_renamed {program program' : List Stmt}
    (hread : read source #[] = (.ok program, #[])) (hread' : read source' #[] = (.ok program', #[]))
    {names : Set String} {hρ : Set.InjOn ρ names} (hlike : (respelling hρ).StmtsLike program program')
    {vs : List Value} {result : Except Failure Unit} {t : State} (h : Shows source vs result t) :
    ∃ vs' result' t', Shows source' vs' result' t' ∧
      AlikeButForNames ρ vs result t vs' result' t' := by
  have hsink := h.sink_eq
  obtain ⟨program₁, flow, haccepted, hprints, rfl⟩ := h
  obtain rfl := Except.ok.inj (congrArg Prod.fst (hread.symm.trans haccepted))
  obtain ⟨vs', flow', t', hprints', hvalues, hresult, hstore⟩ := hprints.exists_renamed hlike
  have hshows : Shows source' vs' (resultOf flow') t' := ⟨program', flow', hread', hprints', rfl⟩
  have hfailure : (resultOf flow').mapError (Failure.relabel Token.erase) =
      (resultOf flow).mapError (Failure.relabel (Token.renamed ρ)) := by
    rw [mapError_relabel_resultOf, hresult, mapError_relabel_resultOf]
  refine ⟨vs', resultOf flow', t', hshows, hvalues, ⟨hsink, hshows.sink_eq⟩, hfailure, ?_, hstore⟩
  calc (resultOf flow').mapError Failure.message
    _ = ((resultOf flow').mapError (Failure.relabel Token.erase)).mapError Failure.message := by
      cases resultOf flow' with
      | ok => rfl
      | error f => exact congrArg Except.error (Failure.message_relabel_erase f).symm
    _ = (resultOf flow).mapError fun f => (f.relabel (Token.renamed ρ)).message := by
      rw [hfailure]
      cases resultOf flow <;> rfl

/-- **Names can be chosen freely.** Let a text be accepted, and let other words that are no keywords be
chosen for the names in it, different ones for different names. Then there is a text with these names. Every
such text is accepted, as the program with the names replaced; on a fresh interpreter it ends exactly if the
first text does; and then it prints the same values, fails in the same way if the first one does, and
leaves the same frames, but for the names. -/
theorem names_free {program : List Stmt} (h : read source #[] = (.ok program, #[]))
    (hρ : Set.InjOn ρ (namesOf source))
    (hwords : ∀ n ∈ namesOf source, IsLexeme .identifier (ρ n).toList) :
    (∃ source', Renames ρ source source') ∧
    ∀ source', Renames ρ source source' →
      (∃ program', read source' #[] = (.ok program', #[]) ∧
        Stmt.relabelAll Token.erase program' = Stmt.relabelAll (Token.renamed ρ) program) ∧
      ((∃ steps out, run steps source' (.initial (.empty none)) #[] = some out) ↔
        ∃ steps out, run steps source (.initial (.empty none)) #[] = some out) ∧
      ∀ steps result t log, run steps source (.initial (.empty none)) #[] = some (result, t, log) →
        ∃ vs vs' steps' result' t', Shows source vs result t ∧ Shows source' vs' result' t' ∧
          run steps' source' (.initial (.empty none)) #[] = some (result', t', log) ∧
          AlikeButForNames ρ vs result t vs' result' t' := by
  refine ⟨exists_renames hwords, fun source' hnames => ?_⟩
  obtain ⟨program', hread', hlike⟩ := read_of_renames h hρ hnames
  have hruns : ∀ steps result t log,
      run steps source (.initial (.empty none)) #[] = some (result, t, log) →
        ∃ vs vs' steps' result' t', Shows source vs result t ∧ Shows source' vs' result' t' ∧
          run steps' source' (.initial (.empty none)) #[] = some (result', t', log) ∧
          AlikeButForNames ρ vs result t vs' result' t' := by
    intro steps result t log hrun
    obtain ⟨rfl, vs, hshows⟩ := exists_shows h hrun
    obtain ⟨vs', result', t', hshows', halike⟩ := hshows.exists_renamed h hread' hlike
    obtain ⟨steps', hrun'⟩ := hshows'.exists_run
    exact ⟨vs, vs', steps', result', t', hshows, hshows', hrun', halike⟩
  refine ⟨⟨program', hread', respelling.replaces.stmts_eq hlike⟩, ⟨?_, ?_⟩, hruns⟩
  · rintro ⟨steps, ⟨result, t, log⟩, hrun⟩
    obtain ⟨-, vs, program₁, flow, haccepted, hprints, -⟩ := exists_shows hread' hrun
    obtain rfl := Except.ok.inj (congrArg Prod.fst (hread'.symm.trans haccepted))
    obtain ⟨⟨flow₀, t₀⟩, hvalue⟩ := respelling.exists_value hlike hprints.value
    obtain ⟨steps₀, hrun₀⟩ := exists_run_of_value h hvalue
    exact ⟨steps₀, _, hrun₀⟩
  · rintro ⟨steps, ⟨result, t, log⟩, hrun⟩
    obtain ⟨_, _, steps', _, _, -, -, hrun', -⟩ := hruns steps result t log hrun
    exact ⟨steps', _, hrun'⟩

/-- An undefined variable, under two names. -/
theorem names_free_undefined : ∃ source' steps failure t,
    Renames (fun _ => "b") "a;" source' ∧
      run steps source' (.initial (.empty none)) #[] = some (.error failure, t, #[]) ∧
      failure.message = "Undefined variable 'b'." := by
  obtain ⟨_, _, hsource⟩ := yields_name
  have hread := read_of_ok read_name
  have hnames : ∀ n ∈ namesOf "a;", n = "a" := by
    rintro n ⟨t, ht, hkind, rfl⟩
    rw [tokensOf_of_yields hsource, List.mem_pair] at ht
    rcases ht with rfl | rfl
    · rfl
    · cases hkind
  obtain ⟨name, hname, s, hrun⟩ : ∃ name : Token, name.renamed (fun _ => "b") =
      ⟨.identifier, "b", none, .start, .start⟩ ∧ ∃ s,
        run 10 "a;" (.initial (.empty none)) #[] =
          some (.error (.fault (.undefinedVariable name)), s, #[]) := by
    rw [run_eq, hread]
    with_unfolding_all exact ⟨_, rfl, _, rfl⟩
  have hinjective : Set.InjOn (fun _ => "b") (namesOf "a;") :=
    fun m hm n hn _ => (hnames m hm).trans (hnames n hn).symm
  obtain ⟨⟨source', hrenames⟩, hall⟩ :=
    names_free hread hinjective fun _ _ => isLexeme_letter rfl rfl
  obtain ⟨-, -, hends⟩ := hall source' hrenames
  obtain ⟨_, _, steps, result, t, -, -, hrun', halike⟩ := hends _ _ _ _ hrun
  have hmessage : result.mapError Failure.message = .error "Undefined variable 'b'." := by
    rw [halike.message, Except.mapError, Failure.relabel, Fault.relabel, hname]
    rfl
  cases result with
  | ok => cases hmessage
  | error failure => exact ⟨source', steps, failure, t, hrenames, hrun', Except.error.inj hmessage⟩

end Script

end Treewalk
