import Treewalk.Proofs.Grammar.Acceptance
import Treewalk.Proofs.Grammar.Recovery

/-!
# Missing semicolons are reported one by one

A program is put together of segments, each of which begins with a keyword by which the parser goes on after
an error. A segment has nothing wrong with it, or only lacks its semicolon at the end. The parser notices
that at the keyword of the next segment, and takes no token to go on: the segments do not disturb each other
(`Segment.value_program`), and each that lacks its semicolon is complained about once
(`missing_semicolons_reported`).
-/

namespace Treewalk.Grammar

open Routine (value)

variable {s : State} {us rest : List Token} {b : Bool}

/-! ## Phrases by themselves -/

/-- A part of the parser, put before the tokens alone, takes all of them, comes to `r`, and has nothing to
complain about. -/
def ReadsAlone {α : Type} (x : Parse α) (us : List Token) (r : α) : Prop :=
  ∃ s, value rules x (State.ofTokens us) = some (.ok r, s) ∧ s.rest = [] ∧ s.diagnostics = #[]

/-- What is read by itself is a phrase, of which the judgement tells. -/
theorem ReadsAlone.of_reads {α : Type} {x : Parse α} {r : α} {k : Bool} {c n : Nat}
    {P : List Token → α → List Diagnostic → State → Prop} (h : ReadsAlone x us r)
    (hx : Reads k c n x (State.ofTokens us) P) : ∃ s, s.rest = [] ∧ P (beforeEnd us) r [] s := by
  obtain ⟨s, hvalue, hrest, hdiagnostics⟩ := h
  obtain ⟨vs, ds, hpassed, hended⟩ := hx.of_value (sealed_ofTokens us) hvalue
  have hvs : beforeEnd us = vs := by
    have htaken := hpassed.rest
    rwa [hrest, List.append_nil] at htaken
  obtain rfl : ds = [] := by
    have hnoted := congrArg Array.toList (hpassed.diagnostics.symm.trans hdiagnostics)
    simpa [State.ofTokens] using hnoted
  obtain ⟨_, ⟨⟩, hP⟩ := hended.sound harmless_nil
  exact ⟨s, hrest, hvs ▸ hP⟩

/-- Tokens among which none marks the end are all before it. -/
theorem beforeEnd_eq_self (h : ∀ t ∈ us, t.kind ≠ .eof) : beforeEnd us = us :=
  List.takeWhile_eq_self_iff.2 fun t ht => by simpa using h t ht

/-- What is read as an expression alone is one of the strict grammar. -/
theorem ReadsAlone.derives_expression {e : Expr} (h : ReadsAlone expression us e)
    (hus : ∀ t ∈ us, t.kind ≠ .eof) : Derives .expression us e [] := by
  obtain ⟨s, -, hderives⟩ := h.of_reads expression_reads
  have hbuilt : Derives .expression (beforeEnd us) e [] := hderives
  rwa [beforeEnd_eq_self hus] at hbuilt

/-! ## Segments -/

/-- The keywords that a segment begins with. -/
def segmentKinds : List Kind :=
  [.kwFun, .kwVar, .kwFor, .kwIf, .kwWhile, .kwPrint]

/-- A piece of a program. -/
inductive Segment where
  /-- One or more declarations. -/
  | intact (tokens : List Token)
  /-- `"print" expression`, without the semicolon. -/
  | print (keyword : Token) (value : List Token)
  /-- `"var" IDENTIFIER`, without the semicolon. -/
  | bare (keyword name : Token)
  /-- `"var" IDENTIFIER "=" expression`, without the semicolon. -/
  | initialized (keyword name equals : Token) (value : List Token)

namespace Segment

/-- The tokens of a segment. -/
def tokens : Segment → List Token
  | intact us => us
  | print keyword us => keyword :: us
  | bare keyword name => [keyword, name]
  | initialized keyword name equals us => keyword :: name :: equals :: us

/-- The statements that are read. -/
def statements : Segment → List Stmt
  | intact us => (parse us).program
  | _ => []

/-- What is asked for at the end, if it is not there. -/
def missing : Segment → Option Expected
  | intact _ => none
  | print _ _ => some .statementEnd
  | bare _ _ => some .variableEnd
  | initialized _ _ _ _ => some .variableEnd

/-- The segment is what it is said to be, with nothing wrong with its parts. -/
def Fits : Segment → Prop
  | intact us => Begins segmentKinds us ∧ (parse us).diagnostics = #[]
  | print keyword us => keyword.kind = .kwPrint ∧ ∃ e, ReadsAlone expression us e
  | bare keyword name => keyword.kind = .kwVar ∧ name.kind = .identifier
  | initialized keyword name equals us => keyword.kind = .kwVar ∧ name.kind = .identifier ∧
      equals.kind = .assign ∧ ∃ e, ReadsAlone expression us e

/-- The complaint about a missing semicolon, at the token `next`. -/
def complaints (next : Token) (g : Segment) : List Diagnostic :=
  g.missing.toList.map fun what => .atToken next (.expected what)

/-- A segment that fits begins with a keyword by which the parser goes on. -/
theorem Fits.begins {g : Segment} (h : g.Fits) : Begins segmentKinds g.tokens := by
  cases g with
  | intact us => exact h.1
  | print keyword us => exact ⟨keyword, us, rfl, by simp [h.1, segmentKinds]⟩
  | bare keyword name => exact ⟨keyword, [name], rfl, by simp [h.1, segmentKinds]⟩
  | initialized keyword name equals us =>
    exact ⟨keyword, name :: equals :: us, rfl, by simp [h.1, segmentKinds]⟩

/-- Where a segment can begin, or at the end. -/
def Next (rest : List Token) : Prop :=
  rest = [] ∨ Begins segmentKinds rest

/-- Such a keyword, or the end, is no token of other kinds. -/
theorem Next.clear (h : Next rest) {kinds : List Kind} (hdisjoint : ∀ kind ∈ segmentKinds, kind ∉ kinds) :
    Clear kinds rest := by
  rcases h with rfl | h
  · exact clear_nil kinds
  · simpa using h.clear hdisjoint []

/-- Before such a keyword or the end the parser goes on at once. -/
theorem Next.restarts (h : Next rest) : Restarts rest := by
  have hkinds : ∀ kind ∈ segmentKinds, State.beginsStatement kind = true := by decide
  rcases h with rfl | ⟨t, us, rfl, ht⟩
  · intro t ht
    cases ht
  · intro u hu
    cases hu
    exact hkinds _ ht

/-- An expression before a segment. -/
theorem takes_value {e : Expr} (he : ReadsAlone expression us e) (hus : ∀ t ∈ us, t.kind ≠ .eof)
    (hnext : Next rest) (b : Bool) : Takes b rest us [] (Routine.call Goal.expression) (pure e) :=
  takes_call ((he.derives_expression hus).understood b rest (hnext.clear (by decide)))

/-- A segment without its semicolon is read up to where it is asked for. -/
theorem takes_missing {g : Segment} {what : Expected} (hg : g.Fits) (hmissing : g.missing = some what)
    (hend : ∀ t ∈ g.tokens, t.kind ≠ .eof) (hnext : Next rest) (b : Bool) :
    ∃ f : Token → Parse Stmt,
      Takes b rest g.tokens [] declarationBody (Parse.expect .semicolon what >>= f) := by
  cases g with
  | intact us => cases hmissing
  | print keyword us =>
    cases hmissing
    obtain ⟨hkeyword, e, he⟩ := hg
    have hvalue := takes_value he (fun t ht => hend t (List.mem_cons_of_mem _ ht)) hnext b
    refine ⟨fun _ => pure (.print keyword e), takes_peek ?_⟩
    rw [hkeyword]
    refine takes_call (takes_peek ?_)
    rw [hkeyword]
    exact takes_advance (hvalue.bind _)
  | bare keyword name =>
    cases hmissing
    obtain ⟨hkeyword, hname⟩ := hg
    have hinit : Takes b rest [] [] initialValue (pure none) :=
      takes_accept_none (hnext.clear (by decide)) (Takes.refl _)
    refine ⟨fun _ => pure (.var name none), takes_peek ?_⟩
    rw [hkeyword]
    exact takes_advance (takes_expect hname (hinit.bind _))
  | initialized keyword name equals us =>
    cases hmissing
    obtain ⟨hkeyword, hname, hequals, e, he⟩ := hg
    have hus : ∀ t ∈ us, t.kind ≠ .eof := fun t ht => hend t (by simp [tokens, ht])
    have hinit : Takes b rest (equals :: us) [] initialValue (pure (some e)) :=
      takes_accept (by simp [hequals]) ((takes_value he hus hnext b).bind _)
    refine ⟨fun _ => pure (.var name (some e)), takes_peek ?_⟩
    rw [hkeyword]
    exact takes_advance (takes_expect hname (hinit.bind _))

/-- **One segment**: its statements are read and it is complained about if its semicolon is missing, and the
parser goes on after its tokens. -/
theorem value_program {g : Segment} (hg : g.Fits) (hend : ∀ t ∈ g.tokens, t.kind ≠ .eof)
    (hs : s.rest = g.tokens ++ rest) (hb : s.inBody = false) (hnext : Next rest) (read : List Stmt) :
    value rules (program read) s =
      value rules (program (g.statements.reverse ++ read))
        (s.beyond g.tokens (g.complaints (rest.headD s.finish))) := by
  cases hmissing : g.missing with
  | none =>
    obtain ⟨us, rfl⟩ : ∃ us, g = .intact us := by
      cases g with
      | intact us => exact ⟨us, rfl⟩
      | _ => cases hmissing
    have hsentence := sentence_of_parse hg.2
    rw [show beforeEnd us = us from beforeEnd_eq_self hend] at hsentence
    exact Derives.takes_program hsentence (hnext.clear (by decide)) read s hs hb
  | some what =>
    have hstatements : g.statements = [] := by
      cases g with
      | intact us => cases hmissing
      | _ => rfl
    obtain ⟨f, htakes⟩ := takes_missing hg hmissing hend hnext false
    have hnonempty : g.tokens ≠ [] := by
      obtain ⟨t, us, htokens, -⟩ := hg.begins
      simp [htokens]
    have hdropped := value_declaration_of_missing htakes hs hb hnonempty (hnext.clear (by decide))
      hnext.restarts
    have hmore := State.peek_kind_ne_eof hs hg.begins (by decide)
    rw [value_program_of_declaration hmore hdropped, hstatements, complaints, hmissing]
    rfl

/-- The complaints about a list of segments: each is about the first token of the next segment, or about the
token that marks the end. -/
def allComplaints (finish : Token) : List Segment → List Diagnostic
  | [] => []
  | g :: gs => g.complaints ((gs.flatMap tokens).headD finish) ++ allComplaints finish gs

/-- Segments that fit follow each other in this way. -/
theorem next_flatMap {gs : List Segment} (hgs : ∀ g ∈ gs, g.Fits) : Next (gs.flatMap tokens) := by
  cases gs with
  | nil => exact .inl rfl
  | cons g gs =>
    obtain ⟨t, us, htokens, ht⟩ := (hgs g List.mem_cons_self).begins
    exact .inr ⟨t, us ++ gs.flatMap tokens, by simp [htokens], ht⟩

/-- **All segments**, by induction on how many are left. -/
theorem value_program_all {gs : List Segment} (hgs : ∀ g ∈ gs, g.Fits)
    (hs : s.Sealed) (hrest : s.rest = gs.flatMap tokens) (hb : s.inBody = false) (read : List Stmt) :
    value rules (program read) s =
      some (.ok (read.reverse ++ gs.flatMap statements), s.beyond s.rest (allComplaints s.finish gs)) := by
  induction gs generalizing s read with
  | nil =>
    have hpeek : s.peek.kind = .eof := by
      simpa [State.peek, hrest] using hs.1
    rw [value_program_of_end hpeek, hrest]
    simp [allComplaints]
  | cons g gs ih =>
    rw [List.flatMap_cons] at hrest
    have hend : ∀ t ∈ g.tokens, t.kind ≠ .eof := fun t ht => hs.2 t (by simp [hrest, ht])
    have hrest' := State.rest_beyond hrest (g.complaints ((gs.flatMap tokens).headD s.finish))
    have hgs' : ∀ g ∈ gs, g.Fits := fun g' hg' => hgs g' (List.mem_cons_of_mem _ hg')
    rw [value_program (hgs g List.mem_cons_self) hend hrest hb (next_flatMap hgs'), ih hgs' hs.beyond hrest' hb,
      hrest', State.beyond_beyond, ← hrest]
    simp [allComplaints, State.beyond]

end Segment

/-- **Missing semicolons are reported one by one.** A program is put together of segments that begin with
keywords, some of which lack the semicolon at their end and have nothing else wrong with them. Then the parser
complains once about each of these, at the first token of the next segment or at the end, in their order, and
gives the statements of the others. -/
theorem missing_semicolons_reported {tokens : List Token} {gs : List Segment} (hgs : ∀ g ∈ gs, g.Fits)
    (htokens : beforeEnd tokens = gs.flatMap Segment.tokens) :
    (parse tokens).program = gs.flatMap Segment.statements ∧
    (parse tokens).diagnostics =
      (Segment.allComplaints (State.ofTokens tokens).finish gs).toArray := by
  have hvalue := Segment.value_program_all hgs (sealed_ofTokens tokens) htokens rfl []
  rw [parse_eq_of_value hvalue]
  simp [State.beyond, State.ofTokens]

example (keyword name next : Token) :
    ((Segment.bare keyword name).complaints next).map (·.complaint.message) =
      ["Expected ';' after variable declaration"] := rfl

/-- `print nil var x print nil;` -/
theorem missing_semicolons_reported_two :
    let print := filler .kwPrint
    let var := filler .kwVar
    let last := [filler .kwPrint, filler .kwNil, filler .semicolon]
    let gs : List Segment := [.print print [filler .kwNil], .bare var (filler .identifier), .intact last]
    (∀ g ∈ gs, g.Fits) ∧
    (parse (gs.flatMap Segment.tokens)).diagnostics =
      #[.atToken var (.expected .statementEnd), .atToken print (.expected .variableEnd)] ∧
    (parse (gs.flatMap Segment.tokens)).program = [.print print (.literal .nil)] := by
  intro print var last gs
  have hnil : ReadsAlone expression [filler .kwNil] (.literal .nil) :=
    ⟨_, Routine.value_of_run rules (n := 30) rfl, rfl, rfl⟩
  have hlast : parse last = ⟨[.print print (.literal .nil)], #[], false⟩ := rfl
  have hfits : ∀ g ∈ gs, g.Fits := by
    simp only [gs, List.forall_mem_cons]
    refine ⟨⟨rfl, _, hnil⟩, ⟨rfl, rfl⟩, ⟨⟨_, _, rfl, by decide⟩, by rw [hlast]⟩, by simp⟩
  have hwhole : beforeEnd (gs.flatMap Segment.tokens) = gs.flatMap Segment.tokens := rfl
  obtain ⟨hprogram, hdiagnostics⟩ := missing_semicolons_reported hfits hwhole
  refine ⟨hfits, hdiagnostics, ?_⟩
  rw [hprogram]
  simp [gs, Segment.statements, hlast]

end Treewalk.Grammar
