import Treewalk.Proofs.Evaluation.Moved
import Treewalk.Proofs.Grammar.Concatenation
import Treewalk.Proofs.Script.ReadBack
import Treewalk.Proofs.Token.Concatenation
import Treewalk.Proofs.Token.Layout

/-!
# Running pieces is running the whole

A text that is written below another one, with a line feed between them, is read as the program of the
first and then that of the second, whose tokens are as many lines further down (`read_below`). Running
the whole is running the first text and then, if it did not fail, the second one (`run_below`).

The parts are put together here. No token crosses the line feed (`Token.tokenize_below`), no statement
does (`Grammar.Derives.append`), and the interpreter goes on with the state in which it was left
(`Evaluation.outcome_append`); and it makes no difference to a program that it stands further down
(`Evaluation.rel_outcome_relabelAll`).
-/

namespace Treewalk

open Token
open Grammar (Sentence Derives beforeEnd sentence_of_parse parse_of_derives apart_space delimited_cons
  Yields.space)
open Evaluation (State outcome outcome_eq_some_iff)

/-- Putting tokens further down leaves kinds, lexemes and literals alone. -/
theorem Token.moves_lower (k : Int) : Token.Moves (Token.lower k) :=
  ⟨Token.kind_lower k, Token.lexeme_lower k, Token.literal_lower k⟩

namespace Script

/-! ## Reading -/

/-- The tokens of a text before the one at its end. -/
def tokensOf (source : String) : List Token :=
  (tokenize source).tokens.toList.dropLast

/-- The tokens of a text are what the scanner yields, up to the end token. -/
theorem beforeEnd_tokenize (source : String) :
    beforeEnd (tokenize source).tokens.toList = tokensOf source := by
  unfold tokensOf
  rw [tokenize_eq, List.toList_toArray]
  obtain ⟨us, t, hus, ht, hkinds⟩ := (Reader.ofString source).scanAll_eq_concat
  rw [hus, beforeEnd_append_eof hkinds ht, List.dropLast_concat]

/-- If a text is read as a program with nothing logged before, nothing is logged by it. -/
theorem read_of_ok {source : String} {program : List Stmt}
    (h : (read source #[]).1 = .ok program) : read source #[] = (.ok program, #[]) := by
  refine Prod.ext h ?_
  simp [read_eq, parse_of_read h]

/-- A text is accepted exactly if its tokens are all right and are a sentence. -/
theorem read_eq_ok_iff {source : String} {program : List Stmt} :
    read source #[] = (.ok program, #[]) ↔
      (tokenize source).diagnostics = #[] ∧ Sentence (tokensOf source) program := by
  rw [← beforeEnd_tokenize]
  constructor
  · intro h
    have hparse := parse_of_read (congrArg Prod.fst h)
    unfold parse at hparse
    obtain ⟨hprogram, hdiagnostics, -⟩ := Grammar.Parsed.mk.inj hparse
    obtain ⟨hlexical, hclean⟩ := Array.append_eq_empty_iff.1 hdiagnostics
    subst hprogram
    exact ⟨hlexical, sentence_of_parse hclean⟩
  · rintro ⟨hlexical, hsentence⟩
    rw [read_eq]
    unfold parse
    simp [hlexical, parse_of_derives hsentence]

/-- How many lines further down a text stands if it is written below another one. -/
def linesOf (source : String) : Int :=
  1 + source.toList.count '\n'

/-- The tokens of a text with another one below it are the tokens of the first and then those of the
second, as many lines further down as the first one has. -/
theorem tokensOf_below {source below : String} (h : (tokenize source).diagnostics = #[]) :
    tokensOf (source ++ "\n" ++ below) =
      tokensOf source ++ (tokensOf below).map (Token.lower (linesOf source)) := by
  have hclosed : Closed (tokenize source).diagnostics.toList := by simp [h, Closed]
  have hne : (tokenize below).tokens.toList ≠ [] := by
    rw [tokenize_eq, List.toList_toArray]
    exact Reader.scanAll_ne_nil _
  unfold tokensOf
  rw [(tokenize_below source below hclosed).1, List.dropLast_append_of_ne_nil (by simpa using hne),
    List.map_dropLast]
  rfl

/-- **Reading pieces is reading the whole.** -/
theorem read_below {source below : String} {program program' : List Stmt}
    (h : read source #[] = (.ok program, #[])) (h' : read below #[] = (.ok program', #[])) :
    read (source ++ "\n" ++ below) #[] =
      (.ok (program ++ Stmt.relabelAll (Token.lower (linesOf source)) program'), #[]) := by
  rw [read_eq_ok_iff] at h h' ⊢
  obtain ⟨hlexical, hsentence⟩ := h
  obtain ⟨hlexical', hsentence'⟩ := h'
  constructor
  · have hclosed : Closed (tokenize source).diagnostics.toList := by simp [hlexical, Closed]
    have hall := (tokenize_below source below hclosed).2
    rw [hlexical, hlexical'] at hall
    simpa using hall
  · rw [tokensOf_below hlexical]
    exact hsentence.append (hsentence'.relabel (Token.moves_lower _) rfl)

/-! ## Running -/

/-- Running a text, with nothing wrong found before, comes to an end. -/
def Ends (source : String) (s : State) (out : Except Failure Unit × State × Log) : Prop :=
  ∃ steps, run steps source s #[] = some out

/-- An accepted text is run as its program is. -/
theorem ends_iff {source : String} {program : List Stmt} (h : read source #[] = (.ok program, #[]))
    {s : State} {out : Except Failure Unit × State × Log} :
    Ends source s out ↔
      ∃ result t, outcome program s = some (result, t) ∧ out = (result.mapError .fault, t, #[]) := by
  unfold Ends
  simp only [run_eq, h]
  simp only [Option.map_eq_some_iff]
  constructor
  · rintro ⟨steps, ⟨result, t⟩, hrun, rfl⟩
    exact ⟨result, t, outcome_eq_some_iff.2 ⟨steps, hrun⟩, rfl⟩
  · rintro ⟨result, t, hrun, rfl⟩
    obtain ⟨steps, hsteps⟩ := outcome_eq_some_iff.1 hrun
    exact ⟨steps, (result, t), hsteps, rfl⟩

/-- The run of an accepted text ends well exactly if the outcome of its program is good, and it logs
nothing. -/
theorem ends_ok_iff {source : String} {program : List Stmt}
    (h : read source #[] = (.ok program, #[])) {s t : State} {log : Log} :
    Ends source s (.ok (), t, log) ↔ outcome program s = some (.ok (), t) ∧ log = #[] := by
  rw [ends_iff h]
  constructor
  · rintro ⟨result, u, hout, heq⟩
    cases result with
    | ok => cases heq; exact ⟨hout, rfl⟩
    | error => cases heq
  · rintro ⟨hout, rfl⟩
    exact ⟨_, t, hout, rfl⟩

/-- The run of an accepted text fails exactly if the outcome of its program is a fault, and it is this
fault that it fails with. -/
theorem ends_error_iff {source : String} {program : List Stmt}
    (h : read source #[] = (.ok program, #[])) {s t : State} {failure : Failure} {log : Log} :
    Ends source s (.error failure, t, log) ↔
      ∃ f, outcome program s = some (.error f, t) ∧ failure = .fault f ∧ log = #[] := by
  rw [ends_iff h]
  constructor
  · rintro ⟨result, u, hout, heq⟩
    cases result with
    | ok => cases heq
    | error f => cases heq; exact ⟨f, hout, rfl, rfl⟩
  · rintro ⟨f, hout, rfl, rfl⟩
    exact ⟨_, t, hout, rfl⟩

/-- What a run without complaints comes to, if its program comes to an end. -/
def complete (out : Except Fault Unit × State) : Except Failure Unit × State × Log :=
  (out.1.mapError .fault, out.2, #[])

/-- The second run ends as the first one, which starts in `s`, except that everything has moved that comes
from `program`, and nothing that was held in `s`: functions in frames, and the fault if there is one. Which is
which is told by marks on the tokens (`Evaluation.OutcomeMoved`), also where a token is in both. -/
def Moved (φ : Token → Token) (s : State) (program : List Stmt)
    (out out' : Except Failure Unit × State × Log) : Prop :=
  ∃ ended ended', Evaluation.OutcomeMoved φ s program ended ended' ∧
    out = complete ended ∧ out' = complete ended'

/-- A fault at a token of the program has moved, one at a token of a function held before has not. -/
theorem Moved.fault_cases {φ : Token → Token} {s : State} {program : List Stmt} {f : Fault}
    {t : State} {log : Log} {out' : Except Failure Unit × State × Log}
    (h : Moved φ s program (.error (.fault f), t, log) out') :
    ∃ t', (s.store.Mentions f.token ∧ out' = (.error (.fault f), t', #[])) ∨
      f.token ∈ Stmt.tokensAll program ∧ out' = (.error (.fault (f.relabel φ)), t', #[]) := by
  obtain ⟨⟨result, u⟩, ⟨result', u'⟩, hmoved, hout, rfl⟩ := h
  cases result with
  | ok => cases hout
  | error g =>
    obtain rfl : f = g := Failure.fault.inj (Except.error.inj (congrArg Prod.fst hout))
    refine ⟨u', (hmoved.fault_cases rfl).imp ?_ ?_⟩
    all_goals
      rintro ⟨hfrom, rfl⟩
      exact ⟨hfrom, rfl⟩

/-- **Running pieces is running the whole.** If two texts are accepted, so is the second one written
below the first one, as the one program and then the other, further down. Running the whole ends as
running the first text does if this fails. Otherwise it ends exactly if running the second text does on
the interpreter as it is left by the first, and in the same way: functions that the second text declares
and faults at its tokens stand further down, those that come from what was held before do not. All this is
within what the counters of lines and columns can hold. -/
theorem run_below {source below : String} {program program' : List Stmt}
    (hlength : (source ++ "\n" ++ below).length < 2 ^ 31 - 1)
    (h : (read source #[]).1 = .ok program) (h' : (read below #[]).1 = .ok program') :
    Counted (source ++ "\n" ++ below) ∧
    read (source ++ "\n" ++ below) #[] =
        (.ok (program ++ Stmt.relabelAll (Token.lower (linesOf source)) program'), #[]) ∧
    ∀ s : State,
      (∀ failure t log, Ends source s (.error failure, t, log) →
        Ends (source ++ "\n" ++ below) s (.error failure, t, log)) ∧
      (∀ t log out, Ends source s (.ok (), t, log) → Ends below t out →
        ∃ out', Ends (source ++ "\n" ++ below) s out' ∧
          Moved (Token.lower (linesOf source)) t program' out out') ∧
      ∀ out', Ends (source ++ "\n" ++ below) s out' →
        (∃ failure t log, out' = (.error failure, t, log) ∧
          Ends source s (.error failure, t, log)) ∨
        ∃ t log out, Ends source s (.ok (), t, log) ∧ Ends below t out ∧
          Moved (Token.lower (linesOf source)) t program' out out' := by
  have hread := read_of_ok h
  have hread' := read_of_ok h'
  have hboth := read_below hread hread'
  have hreturnless : Stmt.ReturnlessAll program := (read_eq_ok_iff.1 hread).2.returnless rfl
  have hall := Evaluation.outcome_append hreturnless
    (Stmt.relabelAll (Token.lower (linesOf source)) program')
  have hlower := Token.moves_lower (linesOf source)
  refine ⟨counted_of_length hlength, hboth, fun s => ⟨?_, ?_, ?_⟩⟩
  · intro failure t log hfirst
    rw [ends_error_iff hread] at hfirst
    obtain ⟨f, hout, rfl, rfl⟩ := hfirst
    rw [ends_error_iff hboth]
    exact ⟨f, by rw [hall, hout]; rfl, rfl, rfl⟩
  · intro t log out hfirst hsecond
    rw [ends_ok_iff hread] at hfirst
    obtain ⟨result, u, hout, rfl⟩ := (ends_iff hread').1 hsecond
    obtain ⟨⟨result', u'⟩, hout', hmoved⟩ := Evaluation.exists_moved hlower hout
    refine ⟨_, (ends_iff hboth).2 ⟨result', u', ?_, rfl⟩, _, _, hmoved, rfl, rfl⟩
    rw [hall, hfirst.1]
    exact hout'
  · intro out' hwhole
    obtain ⟨result', u', hout', rfl⟩ := (ends_iff hboth).1 hwhole
    rw [hall, Option.bind_eq_some_iff] at hout'
    obtain ⟨⟨result, t⟩, hfirst, hrest⟩ := hout'
    cases result with
    | error f =>
      cases hrest
      exact .inl ⟨.fault f, _, #[], rfl, (ends_error_iff hread).2 ⟨f, hfirst, rfl, rfl⟩⟩
    | ok =>
      obtain ⟨⟨result, u⟩, hout, hmoved⟩ := Evaluation.exists_unmoved hlower hrest
      exact .inr ⟨t, #[], _, (ends_ok_iff hread).2 ⟨hfirst, rfl⟩,
        (ends_iff hread').2 ⟨result, u, hout, rfl⟩, _, _, hmoved, rfl, rfl⟩

/-! ## Texts of one line -/

/-- A text that prints, wherever it begins. -/
theorem yields_print_nil (p : Position) : ∃ p₁ p₂ q, Yields ⟨p, "print nil;".toList⟩
    [made .kwPrint p "print".toList, made .kwNil p₁ "nil".toList, made .semicolon p₂ ";".toList] ⟨q, []⟩ := by
  have hshape : "print nil;".toList =
      "print".toList ++ (' ' :: ("nil".toList ++ (";".toList ++ []))) := rfl
  rw [hshape]
  exact ⟨_, _, _, .fixed .kwPrint rfl (apart_space _ _) (Yields.space (.fixed .kwNil rfl
    ((delimited_cons (by decide) _).apart _) (.fixed .semicolon rfl (fun _ _ => rfl) .nil)))⟩

/-- Of the tokens of this text only the first is kept. -/
theorem read_print_nil : ∃ t : Token, t.start = ⟨1, 1⟩ ∧
    (read "print nil;" #[]).1 = .ok [.print t (.literal .nil)] := by
  obtain ⟨_, _, _, hvs⟩ := yields_print_nil .start
  have hread := read_of_yields hvs (.moreDeclarations .noDeclarations (.statementDeclaration
    (.print rfl (Derives.expression_of_primary (.constant rfl)) rfl)))
  exact ⟨_, rfl, congrArg Prod.fst hread⟩

/-- A letter is a name, since no keyword is as short. -/
theorem isLexeme_letter {c : Char} (hc : CharClass.isNameStart c)
    (hkind : Kind.ofWord (String.ofList [c]) = .identifier) : IsLexeme .identifier [c] :=
  hkind ▸ .word hc (List.forall_mem_nil _)

/-- A text that looks a variable up. -/
theorem yields_name : ∃ p q, Yields (.ofString "a;")
    [made .identifier .start ['a'], made .semicolon p ";".toList] ⟨q, []⟩ := by
  have hshape : "a;".toList = ['a'] ++ (";".toList ++ []) := rfl
  exact ⟨_, _, .ofString hshape (.token (isLexeme_letter rfl rfl) ((delimited_cons (by decide) _).apart _)
    (.fixed .semicolon rfl (fun _ _ => rfl) .nil))⟩

/-- What this text is read as. -/
theorem read_name : (read "a;" #[]).1 = .ok [.expression (.variable (made .identifier .start ['a']))] := by
  obtain ⟨_, _, hvs⟩ := yields_name
  have hread := read_of_yields hvs (.moreDeclarations .noDeclarations (.statementDeclaration
    (.expressionStatement (Derives.expression_of_primary (.name rfl)) rfl)))
  exact congrArg Prod.fst hread

/-- A function with an operator that cannot be applied. -/
theorem read_negated_nil : ∃ name keyword operator : Token, name.lexeme = "f" ∧ operator.kind = .minus ∧
    operator.line = 1 ∧ (read "fun f()\x7breturn -nil;\x7d" #[]).1 =
      .ok [.function name [] [.return keyword (some (.unary operator (.literal .nil)))]] := by
  have hshape : "fun f()\x7breturn -nil;\x7d".toList = "fun".toList ++ (' ' :: (['f'] ++
      ("(".toList ++ (")".toList ++ ("\x7b".toList ++ ("return".toList ++ (' ' :: ("-".toList ++
        ("nil".toList ++ (";".toList ++ ("\x7d".toList ++ []))))))))))) := rfl
  have hvs : Yields (.ofString "fun f()\x7breturn -nil;\x7d") _ ⟨_, []⟩ :=
    .ofString hshape (.fixed .kwFun rfl (apart_space _ _) (Yields.space (.token (isLexeme_letter rfl rfl)
      ((delimited_cons (by decide) _).apart _) (.fixed .leftParen rfl (fun _ _ => rfl)
      (.fixed .rightParen rfl (fun _ _ => rfl) (.fixed .leftBrace rfl (fun _ _ => rfl)
      (.fixed .kwReturn rfl (apart_space _ _) (Yields.space (.fixed .minus rfl (fun _ _ => rfl)
      (.fixed .kwNil rfl ((delimited_cons (by decide) _).apart _) (.fixed .semicolon rfl (fun _ _ => rfl)
      (.fixed .rightBrace rfl (fun _ _ => rfl) .nil))))))))))))
  obtain ⟨a, name, b, c, d, keyword, operator, e, g, i, hvs, ha, hname, hf, hb, hc, hd, hkeyword,
      hoperator, hline, he, hg, hi⟩ : ∃ a name b c d keyword operator e g i,
      Yields (.ofString "fun f()\x7breturn -nil;\x7d")
        [a, name, b, c, d, keyword, operator, e, g, i] ⟨_, []⟩ ∧
      a.kind = .kwFun ∧ name.kind = .identifier ∧ name.lexeme = "f" ∧ b.kind = .leftParen ∧
      c.kind = .rightParen ∧ d.kind = .leftBrace ∧ keyword.kind = .kwReturn ∧ operator.kind = .minus ∧
      operator.line = 1 ∧ e.constant? = some .nil ∧ g.kind = .semicolon ∧ i.kind = .rightBrace :=
    ⟨_, _, _, _, _, _, _, _, _, _, hvs, rfl, rfl, rfl, rfl, rfl, rfl, rfl, rfl, rfl, rfl, rfl, rfl⟩
  have hnegated : Derives .unary [operator, e] (.unary operator (.literal .nil)) [] :=
    .unary (by rw [hoperator]; decide) (Derives.unary_of_primary (.constant he))
  have hbody : Derives (.declarations true) [keyword, operator, e, g] _ [] :=
    .moreDeclarations .noDeclarations
      (.statementDeclaration (.return hkeyword (.someClause hnegated.expression_of_unary) hg))
  have hsentence : Sentence [a, name, b, c, d, keyword, operator, e, g, i] _ :=
    .moreDeclarations .noDeclarations (.function ha hname hb .noParameters hc hd hbody hi)
  exact ⟨name, keyword, operator, hf, hoperator, hline, congrArg Prod.fst (read_of_yields hvs hsentence)⟩

/-- A call of this function. -/
theorem read_call : ∃ name paren : Token, name.lexeme = "f" ∧ name.kind = .identifier ∧
    paren.kind = .rightParen ∧ (read "f();" #[]).1 = .ok [.expression (.call (.variable name) paren [])] := by
  have hshape : "f();".toList = ['f'] ++ ("(".toList ++ (")".toList ++ (";".toList ++ []))) := rfl
  have hvs : Yields (.ofString "f();") _ ⟨_, []⟩ :=
    .ofString hshape (.token (isLexeme_letter rfl rfl) ((delimited_cons (by decide) _).apart _) (.fixed .leftParen rfl
      (fun _ _ => rfl) (.fixed .rightParen rfl (fun _ _ => rfl)
        (.fixed .semicolon rfl (fun _ _ => rfl) .nil))))
  obtain ⟨name, a, paren, b, hvs, hname, hf, ha, hparen, hb⟩ : ∃ name a paren b,
      Yields (.ofString "f();") [name, a, paren, b] ⟨_, []⟩ ∧ name.kind = .identifier ∧
        name.lexeme = "f" ∧ a.kind = .leftParen ∧ paren.kind = .rightParen ∧ b.kind = .semicolon :=
    ⟨_, _, _, _, hvs, rfl, rfl, rfl, rfl, rfl⟩
  have hcall : Derives .unary [name, a, paren] (.call (.variable name) paren []) [] :=
    .noUnary (.call (.noCall (.name hname)) ha .noArguments hparen)
  have hsentence : Sentence [name, a, paren, b] _ :=
    .moreDeclarations .noDeclarations
      (.statementDeclaration (.expressionStatement hcall.expression_of_unary hb))
  exact ⟨name, paren, hf, hname, hparen, congrArg Prod.fst (read_of_yields hvs hsentence)⟩

/-- A function of an earlier text is called, and its operator cannot be applied. -/
theorem exists_runs_negated_nil : ∃ s t operator, operator.kind = .minus ∧ operator.line = 1 ∧
    run 20 "fun f()\x7breturn -nil;\x7d" (.initial (.empty none)) #[] = some (.ok (), s, #[]) ∧
      run 40 "f();" s #[] =
        some (.error (.fault (.typeMismatch operator .operandNotNumber)), t, #[]) := by
  -- the run looks at the lexemes of the names and at the kind of the operator, and these are known
  obtain ⟨⟨_, _, _, _, _⟩, keyword, ⟨_, text, value, start, stop⟩, rfl, rfl, hline, hread⟩ := read_negated_nil
  obtain ⟨⟨_, _, _, _, _⟩, paren, rfl, -, -, hread'⟩ := read_call
  obtain ⟨s, hfirst, t, hsecond⟩ : ∃ s,
      run 20 "fun f()\x7breturn -nil;\x7d" (.initial (.empty none)) #[] = some (.ok (), s, #[]) ∧
      ∃ t, run 40 "f();" s #[] = some (.error (.fault (.typeMismatch
        ⟨.minus, text, value, start, stop⟩ .operandNotNumber)), t, #[]) := by
    simp only [run_eq]
    rw [read_of_ok hread, read_of_ok hread']
    with_unfolding_all exact ⟨_, rfl, _, rfl⟩
  exact ⟨s, t, _, rfl, hline, hfirst, hsecond⟩

/-- A fault of the second text stands further down in the whole. One in a function of the first text stands
where it did, although the call of the function stands further down. -/
theorem run_below_faults :
    (∃ s t t' name, Ends "print nil;" (.initial (.empty none)) (.ok (), s, #[]) ∧ name.line = 1 ∧
      Ends "a;" s (.error (.fault (.undefinedVariable name)), t, #[]) ∧ (name.lower 1).line = 2 ∧
      Ends ("print nil;" ++ "\n" ++ "a;") (.initial (.empty none))
        (.error (.fault (.undefinedVariable (name.lower 1))), t', #[])) ∧
    ∃ s t t' operator, Ends "fun f()\x7breturn -nil;\x7d" (.initial (.empty none)) (.ok (), s, #[]) ∧
      operator.line = 1 ∧
      Ends "f();" s (.error (.fault (.typeMismatch operator .operandNotNumber)), t, #[]) ∧
      Ends ("fun f()\x7breturn -nil;\x7d" ++ "\n" ++ "f();") (.initial (.empty none))
        (.error (.fault (.typeMismatch operator .operandNotNumber)), t', #[]) := by
  constructor
  · obtain ⟨print, -, hread⟩ := read_print_nil
    obtain ⟨s, hfirst, hstore, t, hsecond⟩ : ∃ s,
        run 20 "print nil;" (.initial (.empty none)) #[] = some (.ok (), s, #[]) ∧
        s.store = .initial ∧ ∃ t, run 20 "a;" s #[] =
          some (.error (.fault (.undefinedVariable (made .identifier .start ['a']))), t, #[]) := by
      simp only [run_eq]
      rw [read_of_ok hread, read_of_ok read_name]
      with_unfolding_all exact ⟨_, rfl, rfl, _, rfl⟩
    have hsource : Ends "print nil;" (.initial (.empty none)) (.ok (), s, #[]) := ⟨20, hfirst⟩
    have hbelow : Ends "a;" s (.error (.fault (.undefinedVariable (made .identifier .start ['a']))), t, #[]) :=
      ⟨20, hsecond⟩
    obtain ⟨-, -, hruns⟩ := run_below (by decide +kernel) hread read_name
    obtain ⟨out', hwhole, hmoved⟩ := (hruns _).2.1 _ _ _ hsource hbelow
    obtain ⟨t', ⟨⟨c, hc, -⟩, -⟩ | ⟨-, rfl⟩⟩ := hmoved.fault_cases
    · rw [hstore] at hc
      exact absurd hc (Store.not_binds_initial _)
    · exact ⟨s, t, t', _, hsource, rfl, hbelow, rfl, hwhole⟩
  · obtain ⟨s, t, operator, hkind, hline, hfirst, hsecond⟩ := exists_runs_negated_nil
    obtain ⟨_, _, _, -, -, -, hread⟩ := read_negated_nil
    obtain ⟨name, paren, -, hname, hparen, hread'⟩ := read_call
    obtain ⟨-, -, hruns⟩ := run_below (by decide +kernel) hread hread'
    obtain ⟨out', hwhole, hmoved⟩ := (hruns _).2.1 _ _ _ ⟨20, hfirst⟩ ⟨40, hsecond⟩
    obtain ⟨t', ⟨-, rfl⟩ | ⟨hmem, -⟩⟩ := hmoved.fault_cases
    · exact ⟨s, t, t', operator, ⟨20, hfirst⟩, hline, ⟨40, hsecond⟩, hwhole⟩
    · -- the operator is none of the tokens of the call
      have hmem : operator = name ∨ operator = paren := by
        simpa [Stmt.tokensAll, Stmt.tokens, Expr.tokens, Expr.tokensAll, Fault.token] using hmem
      rcases hmem with rfl | rfl
      · cases hkind.symm.trans hname
      · cases hkind.symm.trans hparen

end Script

end Treewalk
