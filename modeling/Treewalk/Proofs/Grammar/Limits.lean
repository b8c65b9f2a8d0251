import Mathlib.Data.List.Forall2
import Treewalk.Proofs.Grammar.Lowering

/-!
# Lists that are too long

A call has at most 255 arguments and a function at most 255 parameters. The parser looks at this limit at
different places: before each parameter, but only behind a comma before an argument. It comes to the same.
In both lists every entry from the 256th on is complained about, at its first token, and is read all the same,
so that no entry is missing from the tree (`limits_agree`).

Both lists are put together in one way: a first entry, and then one more behind each comma (`listed`). What a
comma with an entry adds to a list that has been read is the same for both (`exists_listed`).
-/

namespace Treewalk.Grammar

variable {us : List Token} {ds : List Diagnostic}

/-! ## Texts of lists -/

/-- The entries of a list with commas between them. -/
def listed : List (List Token) → List Piece
  | [] => []
  | us :: entries => .tokens us :: entries.flatMap fun vs => [.mark .comma, .tokens vs]

/-- A call as a statement. -/
def callText (callee : List Token) (entries : List (List Token)) (closing : Token) : List Piece :=
  [.tokens callee, .mark .leftParen] ++ listed entries ++ [.tokens [closing], .mark .semicolon]

/-- A function with its parameters; the closing brace belongs to the body. -/
def functionText (name : Token) (params body : List Token) : List Piece :=
  [.mark .kwFun, .tokens [name], .mark .leftParen] ++ listed (params.map fun p => [p]) ++
    [.mark .rightParen, .mark .leftBrace, .tokens body]

/-- Every entry is in the text of the list. -/
theorem tokens_mem_listed {entries : List (List Token)} (h : us ∈ entries) : .tokens us ∈ listed entries := by
  cases entries with
  | nil => exact absurd h List.not_mem_nil
  | cons vs entries =>
    rcases List.mem_cons.1 h with rfl | h
    · exact List.mem_cons_self
    · exact List.mem_cons_of_mem _ (List.mem_flatMap.2 ⟨us, h, by simp⟩)

/-- The tokens of a piece are in the text. -/
theorem Spelt.mem {pieces : List Piece} {ts : List Token} (h : Spelt pieces us) (hts : .tokens ts ∈ pieces) :
    ∀ t ∈ ts, t ∈ us := by
  obtain ⟨before, after, rfl⟩ := List.append_of_mem hts
  obtain ⟨vs, ws, rfl, -, xs, rfl, -⟩ := spelt_append.1 h
  intro t ht
  simp [ht]

/-! ## Complaints about the entries beyond the limit -/

/-- A complaint in these words about the first token of an entry. -/
def ComplainsAbout (words : String) (entry : List Token) (d : Diagnostic) : Prop :=
  ∃ t us complaint, entry = t :: us ∧ complaint.message = words ∧ d = .atToken t complaint

/-- There is one complaint for each entry from the 256th on, in the order of the entries. -/
structure ExcessNoted (words : String) (entries : List (List Token)) (ds : List Diagnostic) : Prop where
  count : ds.length = entries.length - 255
  each : List.Forall₂ (ComplainsAbout words) (entries.drop 255) ds

namespace ExcessNoted

variable {words : String} {entries : List (List Token)}

/-- A list within the limit is not complained about. -/
theorem of_length_le (h : entries.length ≤ 255) : ExcessNoted words entries [] := by
  refine ⟨(Nat.sub_eq_zero_of_le h).symm, ?_⟩
  rw [List.drop_of_length_le h]
  exact .nil

/-- One more entry is complained about exactly if there are 255 before it. -/
theorem more {complaint : Complaint} (h : ExcessNoted complaint.message entries ds) (t : Token)
    (us : List Token) :
    ExcessNoted complaint.message (entries ++ [t :: us]) (ds ++ overLimit entries.length t complaint) := by
  have hlength : (entries ++ [t :: us]).length = entries.length + 1 := List.length_append
  by_cases hlimit : 255 ≤ entries.length
  · have hone : overLimit entries.length t complaint = [.atToken t complaint] := if_pos hlimit
    rw [hone]
    constructor
    · rw [List.length_append, h.count, hlength, List.length_singleton]
      omega
    · rw [List.drop_append_of_le_length hlimit]
      exact List.rel_append h.each (.cons ⟨t, us, complaint, rfl, rfl, rfl⟩ .nil)
  · have hnone : overLimit entries.length t complaint = [] := if_neg hlimit
    obtain rfl : ds = [] := by
      apply List.eq_nil_of_length_eq_zero
      rw [h.count]
      omega
    rw [hnone]
    apply of_length_le
    omega

end ExcessNoted

/-! ## Lists as phrases -/

section Lists

variable {α : Type} {complaint : Complaint}
  -- what an entry is, and what a list of entries is, with the complaints about it
  {IsEntry : List Token → α → Prop} {IsList : List Token → List α → List Diagnostic → Prop}
  (hmore : ∀ {us vs : List Token} {as : List α} {ds : List Diagnostic} {comma t : Token} {a : α},
    IsList us as ds → comma.kind = .comma → IsEntry (t :: vs) a →
      IsList (us ++ comma :: t :: vs) (as ++ [a]) (ds ++ overLimit as.length t complaint))
  (hentry : ∀ {us : List Token} {a : α}, IsEntry us a → us ≠ [])

include hmore hentry

/-- Behind a list that has been read come more entries. By induction on these, as the parser reads them. -/
theorem exists_more {entries rest : List (List Token)} {as more : List α} {vs : List Token}
    (hlist : IsList us as ds) (hlength : entries.length = as.length)
    (hnoted : ExcessNoted complaint.message entries ds) (hrest : List.Forall₂ IsEntry rest more)
    (hvs : Spelt (rest.flatMap fun vs => [.mark .comma, .tokens vs]) vs) :
    ∃ es, IsList (us ++ vs) (as ++ more) es ∧ ExcessNoted complaint.message (entries ++ rest) es := by
  induction hrest generalizing us vs as ds entries with
  | nil =>
    obtain rfl : vs = [] := hvs
    refine ⟨ds, ?_, ?_⟩
    · rwa [List.append_nil, List.append_nil]
    · rwa [List.append_nil]
  | @cons ws a rest more ha _ ih =>
    obtain ⟨comma, -, rfl, hcomma, xs, rfl, hxs⟩ := hvs
    obtain ⟨t, ws, rfl⟩ := List.exists_cons_of_ne_nil (hentry ha)
    have hnoted' := hnoted.more t ws
    rw [hlength] at hnoted'
    have hlength' : (entries ++ [t :: ws]).length = (as ++ [a]).length := by
      simp [hlength]
    obtain ⟨es, hes, hexcess⟩ := ih (hmore hlist hcomma ha) hlength' hnoted' hxs
    refine ⟨es, ?_, ?_⟩
    · simpa using hes
    · simpa using hexcess

/-- **A list that is not empty is read, whatever its length**, with one complaint for each entry beyond the
limit. -/
theorem exists_listed {entries : List (List Token)} {as : List α}
    (hfirst : ∀ {us : List Token} {a : α}, IsEntry us a → IsList us [a] [])
    (hentries : List.Forall₂ IsEntry entries as) (hne : entries ≠ [])
    (hus : Spelt (listed entries) us) :
    ∃ ds, IsList us as ds ∧ ExcessNoted complaint.message entries ds := by
  cases hentries with
  | nil => exact absurd rfl hne
  | @cons ws a rest more ha hrest =>
    obtain ⟨vs, rfl, hvs⟩ := hus
    have hone : ExcessNoted complaint.message [ws] [] := .of_length_le (by simp)
    exact exists_more hmore hentry (hfirst ha) rfl hone hrest hvs

end Lists

/-- Arguments up to the closing parenthesis. -/
theorem exists_argumentList {entries : List (List Token)} {args : List Expr}
    (hargs : List.Forall₂ (fun us e => Derives .expression us e []) entries args)
    (hus : Spelt (listed entries) us) :
    ∃ ds, Derives .argumentList us args ds ∧ ExcessNoted Complaint.tooManyArguments.message entries ds := by
  by_cases hne : entries = []
  · subst hne
    cases hargs
    obtain rfl : us = [] := hus
    exact ⟨[], .noArguments, .of_length_le (Nat.zero_le _)⟩
  · have hentry {us : List Token} {e : Expr} (he : Derives .expression us e []) : us ≠ [] := by
      obtain ⟨t, vs, rfl, -⟩ := he.begins_of_not_nullable rfl
      exact List.cons_ne_nil t vs
    obtain ⟨ds, hds, hnoted⟩ : ∃ ds, Derives .arguments us args ds ∧
        ExcessNoted Complaint.tooManyArguments.message entries ds := by
      refine exists_listed ?_ hentry Derives.firstArgument hargs hne hus
      intro us vs args ds comma t e hlist hcomma he
      simpa using Derives.moreArguments hlist hcomma he
    exact ⟨ds, .someArguments hds, hnoted⟩

/-- Parameters up to the closing parenthesis. -/
theorem exists_parameterList {params : List Token} (hparams : ∀ p ∈ params, p.kind = .identifier)
    (hus : Spelt (listed (params.map fun p => [p])) us) :
    ∃ ds, Derives .parameterList us params ds ∧
      ExcessNoted Complaint.tooManyParameters.message (params.map fun p => [p]) ds := by
  by_cases hne : params = []
  · subst hne
    obtain rfl : us = [] := hus
    exact ⟨[], .noParameters, .of_length_le (Nat.zero_le _)⟩
  · have hentries : List.Forall₂ (fun us p => us = [p] ∧ p.kind = .identifier)
        (params.map fun p => [p]) params := by
      rw [List.forall₂_map_left_iff, List.forall₂_same]
      exact fun p hp => ⟨rfl, hparams p hp⟩
    have hne' : (params.map fun p => [p]) ≠ [] := by simpa using hne
    obtain ⟨ds, hds, hnoted⟩ : ∃ ds, Derives .parameters us params ds ∧
        ExcessNoted Complaint.tooManyParameters.message (params.map fun p => [p]) ds := by
      refine exists_listed ?_ ?_ ?_ hentries hne' hus
      · rintro us vs params ds comma t p hlist hcomma ⟨hp, hkind⟩
        obtain ⟨rfl, rfl⟩ := List.cons.inj hp
        exact Derives.moreParameters hlist hcomma hkind
      · rintro us p ⟨rfl, hkind⟩
        exact List.cons_ne_nil p []
      · rintro us p ⟨rfl, hkind⟩
        exact Derives.firstParameter hkind
    exact ⟨ds, .someParameters hds, hnoted⟩

/-! ## Calls and functions -/

/-- What is read by itself, and not as an operator before its operand, can be called. -/
theorem ReadsAlone.derives_call {f : Expr} (h : ReadsAlone unary us f)
    (hus : ∀ t ∈ us, t.kind ≠ .eof) (hoperator : ∀ operator e, f ≠ .unary operator e) :
    Derives .call us f [] := by
  obtain ⟨s, -, hbuilt⟩ := h.of_reads unary_reads
  have hderives : Derives .unary (beforeEnd us) f [] := hbuilt
  rw [beforeEnd_eq_self hus] at hderives
  generalize hds : ([] : List Diagnostic) = ds at hderives
  cases hderives with
  | unary => exact absurd rfl (hoperator _ _)
  | noUnary hcall => exact hds ▸ hcall

/-- What is read alone as the body of a function consists of declarations and a closing brace. -/
theorem ReadsAlone.derives_body {ss : List Stmt} (h : ReadsAlone (Parse.inFunction blockRest) us ss)
    (hus : ∀ t ∈ us, t.kind ≠ .eof) :
    ∃ vs ending, us = vs ++ [ending] ∧ Derives (.declarations true) vs ss [] ∧
      ending.kind = .rightBrace := by
  obtain ⟨s, -, hbody⟩ := h.of_reads functionBody_reads
  rwa [beforeEnd_eq_self hus] at hbody

/-- A declaration alone is read as the program of that one statement, with its complaints. -/
theorem parse_of_declaration {tokens : List Token} {s : Stmt}
    (h : Derives (.declaration false) (beforeEnd tokens) s ds) :
    (parse tokens).program = [s] ∧ (parse tokens).diagnostics.toList = ds := by
  have hprogram := Derives.moreDeclarations .noDeclarations h
  rw [List.nil_append, List.nil_append, List.nil_append] at hprogram
  rw [parse_of_derives hprogram]
  exact ⟨rfl, rfl⟩

/-- Before the end no token marks the end. -/
theorem kind_ne_eof_of_mem_beforeEnd {tokens : List Token} : ∀ t ∈ beforeEnd tokens, t.kind ≠ .eof := by
  intro t ht
  simpa using List.mem_takeWhile_imp ht

/-- A call is read with all its arguments, and those beyond the limit are complained about. -/
theorem parse_callText {entries : List (List Token)} {args : List Expr}
    (hargs : List.Forall₂ (ReadsAlone expression) entries args) {callee : List Token} {f : Expr}
    {closing : Token} (hcallee : ReadsAlone unary callee f)
    (hoperator : ∀ operator e, f ≠ .unary operator e) (hclosing : closing.kind = .rightParen)
    {call : List Token} (hcall : Spelt (callText callee entries closing) (beforeEnd call)) :
    (parse call).program = [.expression (.call f closing args)] ∧
      ExcessNoted Complaint.tooManyArguments.message entries (parse call).diagnostics.toList := by
  have hend : ∀ ts, .tokens ts ∈ callText callee entries closing → ∀ t ∈ ts, t.kind ≠ .eof :=
    fun ts hts t ht => kind_ne_eof_of_mem_beforeEnd t (hcall.mem hts t ht)
  have hf := hcallee.derives_call (hend callee (by simp [callText])) hoperator
  have hentries : ∀ us ∈ entries, ∀ t ∈ us, t.kind ≠ .eof := by
    intro us hus
    exact hend us (by simp [callText, tokens_mem_listed hus])
  have hderives := ((List.forall₂_and_left entries args).2 ⟨hentries, hargs⟩).imp
    fun us e he => he.2.derives_expression he.1
  simp only [callText, List.cons_append, List.nil_append, spelt_append, Spelt] at hcall
  obtain ⟨-, htokens, opening, -, rfl, hopening, vs, -, rfl, hvs, -, rfl, ending, -, rfl, hending, rfl⟩ := hcall
  obtain ⟨ds, hlist, hnoted⟩ := exists_argumentList hderives hvs
  have hstatement := Derives.expressionStatement (b := false)
    (Derives.noUnary (.call hf hopening hlist hclosing)).expression_of_unary hending
  obtain ⟨hprogram, hdiagnostics⟩ : (parse call).program = [.expression (.call f closing args)] ∧
      (parse call).diagnostics.toList = ds := by
    apply parse_of_declaration
    rw [htokens]
    simpa using Derives.statementDeclaration hstatement
  rw [hprogram, hdiagnostics]
  exact ⟨rfl, hnoted⟩

/-- A function is read with all its parameters, and those beyond the limit are complained about. -/
theorem parse_functionText {params : List Token} (hparams : ∀ p ∈ params, p.kind = .identifier)
    {name : Token} {body : List Token} {ss : List Stmt} (hname : name.kind = .identifier)
    (hbody : ReadsAlone (Parse.inFunction blockRest) body ss) {function : List Token}
    (hfunction : Spelt (functionText name params body) (beforeEnd function)) :
    (parse function).program = [.function name params ss] ∧
      ExcessNoted Complaint.tooManyParameters.message (params.map fun p => [p])
        (parse function).diagnostics.toList := by
  have hend : ∀ t ∈ body, t.kind ≠ .eof :=
    fun t ht => kind_ne_eof_of_mem_beforeEnd t (hfunction.mem (by simp [functionText]) t ht)
  obtain ⟨ws, brace', rfl, hws, hbrace'⟩ := hbody.derives_body hend
  simp only [functionText, List.append_assoc, List.cons_append, List.nil_append, spelt_append, Spelt] at hfunction
  obtain ⟨keyword, -, htokens, hkeyword, -, rfl, opening, -, rfl, hopening, vs, -, rfl, hvs, paren, -, rfl,
    hparen, brace, -, rfl, hbrace, -, rfl, rfl⟩ := hfunction
  obtain ⟨ds, hlist, hnoted⟩ := exists_parameterList hparams hvs
  have hfunction := Derives.function (b := false) hkeyword hname hopening hlist hparen hbrace hws hbrace'
  obtain ⟨hprogram, hdiagnostics⟩ : (parse function).program = [.function name params ss] ∧
      (parse function).diagnostics.toList = ds := by
    apply parse_of_declaration
    rw [htokens]
    simpa using hfunction
  rw [hprogram, hdiagnostics]
  exact ⟨rfl, hnoted⟩

/-- **The limits of calls and of functions agree, and neither is fatal.** Some expressions, and some names, may
be read by themselves without complaint. In a call statement with these expressions as its arguments, exactly
those from the 256th on are complained about, each at its first token and in the words for arguments, and the
call has all of them. In a function with these names as its parameters, exactly those from the 256th on are
complained about, each in the words for parameters, and the function has all of them. There is no other
complaint. -/
theorem limits_agree {entries : List (List Token)} {args : List Expr} {params : List Token}
    (hargs : List.Forall₂ (ReadsAlone expression) entries args)
    (hparams : ∀ p ∈ params, p.kind = .identifier)
    {callee : List Token} {f : Expr} {closing : Token} (hcallee : ReadsAlone unary callee f)
    (hoperator : ∀ operator e, f ≠ .unary operator e) (hclosing : closing.kind = .rightParen)
    {name : Token} {body : List Token} {ss : List Stmt} (hname : name.kind = .identifier)
    (hbody : ReadsAlone (Parse.inFunction blockRest) body ss) {call function : List Token}
    (hcall : Spelt (callText callee entries closing) (beforeEnd call))
    (hfunction : Spelt (functionText name params body) (beforeEnd function)) :
    ((parse call).program = [.expression (.call f closing args)] ∧
      ExcessNoted "Can't have more than 255 arguments" entries (parse call).diagnostics.toList) ∧
    (parse function).program = [.function name params ss] ∧
      ExcessNoted "Can't have more than 255 parameters" (params.map fun p => [p])
        (parse function).diagnostics.toList := by
  have hcalled := parse_callText hargs hcallee hoperator hclosing hcall
  exact ⟨hcalled, parse_functionText hparams hname hbody hfunction⟩

/-! ## One entry too many -/

/-- Nor does one in the text of a list, if none does in its entries. -/
theorem fill_listed {entries : List (List Token)} (h : ∀ us ∈ entries, ∀ t ∈ us, t.kind ≠ .eof) :
    ∀ piece ∈ listed entries, ∀ t ∈ piece.fill, t.kind ≠ .eof := by
  cases entries with
  | nil => exact fun piece hpiece => absurd hpiece List.not_mem_nil
  | cons vs entries =>
    rw [List.forall_mem_cons] at h
    simp only [listed, List.forall_mem_cons, List.forall_mem_flatMap]
    refine ⟨h.1, fun us hus => ⟨?_, h.2 us hus, List.forall_mem_nil _⟩⟩
    simp [Piece.fill, filler, Token.synthetic]

/-- What is said if there is one entry too many. -/
theorem ExcessNoted.texts {words : String} {entries : List (List Token)} {t : Token}
    (h : ExcessNoted words (entries ++ [t :: us]) ds) (hfull : entries.length = 255) :
    ds.map Diagnostic.text =
      ["[line " ++ toString t.line ++ "] Error" ++ (Location.ofToken t).text ++ ": " ++ words] := by
  have hone : (entries ++ [t :: us]).drop 255 = [t :: us] := List.drop_left' hfull
  have heach := h.each
  rw [hone] at heach
  obtain ⟨d, ds, ⟨t', us', complaint, hentry, rfl, rfl⟩, hnone, rfl⟩ := List.forall₂_cons_left_iff.1 heach
  obtain ⟨rfl, rfl⟩ := List.cons.inj hentry
  obtain rfl := List.forall₂_nil_left_iff.1 hnone
  rfl

/-- A call `f(nil, …, nil);` and a function `fun f(f, …, p) {}`, each with 256 entries. -/
theorem limits_agree_one_too_many :
    let f := filler .identifier
    let lastArgument := Token.synthetic .kwNil "nil" 7
    let lastParameter := Token.synthetic .identifier "p" 8
    let entries := List.replicate 255 [filler .kwNil] ++ [[lastArgument]]
    let params := List.replicate 255 f ++ [lastParameter]
    let args := List.replicate 255 (Expr.literal .nil) ++ [.literal .nil]
    let call := (callText [f] entries (filler .rightParen)).flatMap Piece.fill
    let function := (functionText f params [filler .rightBrace]).flatMap Piece.fill
    ((parse call).program = [.expression (.call (.variable f) (filler .rightParen) args)] ∧
      (parse call).diagnostics.toList.map Diagnostic.text =
        ["[line 7] Error at 'nil': Can't have more than 255 arguments"]) ∧
    (parse function).program = [.function f params []] ∧
      (parse function).diagnostics.toList.map Diagnostic.text =
        ["[line 8] Error at 'p': Can't have more than 255 parameters"] := by
  intro f lastArgument lastParameter entries params args call function
  have hargs : List.Forall₂ (ReadsAlone expression) entries args := by
    have hnil : ReadsAlone expression [filler .kwNil] (.literal .nil) :=
      ⟨_, Routine.value_of_run rules (n := 30) rfl, rfl, rfl⟩
    have hlast : ReadsAlone expression [lastArgument] (.literal .nil) :=
      ⟨_, Routine.value_of_run rules (n := 30) rfl, rfl, rfl⟩
    refine List.rel_append ?_ (.cons hlast .nil)
    rw [List.forall₂_iff_get]
    refine ⟨by rw [List.length_replicate, List.length_replicate], fun i _ _ => ?_⟩
    rw [List.get_eq_getElem, List.get_eq_getElem, List.getElem_replicate, List.getElem_replicate]
    exact hnil
  have hparams : ∀ p ∈ params, p.kind = .identifier := by
    intro p hp
    rcases List.mem_append.1 hp with hp | hp
    · rw [List.eq_of_mem_replicate hp]
      rfl
    · rw [List.mem_singleton.1 hp]
      rfl
  have hcallee : ReadsAlone unary [f] (.variable f) :=
    ⟨_, Routine.value_of_run rules (n := 30) rfl, rfl, rfl⟩
  have hbody : ReadsAlone (Parse.inFunction blockRest) [filler .rightBrace] [] :=
    ⟨_, Routine.value_of_run rules (n := 30) rfl, rfl, rfl⟩
  have hcall : Spelt (callText [f] entries (filler .rightParen)) (beforeEnd call) := by
    have hentries : ∀ us ∈ entries, ∀ t ∈ us, t.kind ≠ .eof := by
      intro us hus
      rcases List.mem_append.1 hus with hus | hus
      · rw [List.eq_of_mem_replicate hus]
        decide
      · rw [List.mem_singleton.1 hus]
        decide
    have hlisted := fill_listed hentries
    apply spelt_fill
    simp only [callText, List.forall_mem_append]
    exact ⟨⟨by decide, hlisted⟩, by decide⟩
  have hfunction : Spelt (functionText f params [filler .rightBrace]) (beforeEnd function) := by
    have hentries : ∀ us ∈ params.map fun p => [p], ∀ t ∈ us, t.kind ≠ .eof := by
      intro us hus t ht
      obtain ⟨p, hp, rfl⟩ := List.mem_map.1 hus
      rw [List.mem_singleton.1 ht, hparams p hp]
      decide
    have hlisted := fill_listed hentries
    apply spelt_fill
    simp only [functionText, List.forall_mem_append]
    exact ⟨⟨by decide, hlisted⟩, by decide⟩
  obtain ⟨⟨hcallTree, hcallNoted⟩, hfunctionTree, hfunctionNoted⟩ :=
    limits_agree hargs hparams hcallee (by simp) rfl rfl hbody hcall hfunction
  refine ⟨⟨hcallTree, ?_⟩, hfunctionTree, ?_⟩
  · rw [hcallNoted.texts List.length_replicate]
    rfl
  · rw [List.map_append, List.map_singleton] at hfunctionNoted
    rw [hfunctionNoted.texts (by rw [List.length_map, List.length_replicate])]
    rfl

end Treewalk.Grammar
