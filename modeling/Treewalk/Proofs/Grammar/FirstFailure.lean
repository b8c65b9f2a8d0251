import Treewalk.Proofs.Grammar.Acceptance
import Treewalk.Proofs.Grammar.Locality
import Treewalk.Proofs.Grammar.Locating

/-!
# The first fatal error is located exactly

A parser that gives up at a token should do so because of this token: what stands before it can be completed
to a program, but nothing that has this token next can. The first half is a matter of all productions
(`locating`): each of them takes only tokens that it can go on with, and so what it has taken when it is given
up opens a phrase. The second half needs no production to be looked at again. What follows a token makes no
difference to what is done before it (`Enters.blind`), so that the same declaration is given up whatever
follows; and a program of the grammar is read to its end (`not_opens_of_givenUp`).

A production that fails hands its failure on to the goal it is a part of, up to the declaration that is then
dropped. So productions are given up exactly if there is a fatal complaint, and which one is the first can be
seen from what has been noted (`FirstFailure`). Together this locates the first failure; where there is none,
the tokens are a program of the relaxed grammar (`first_failure_located`).
-/

namespace Treewalk.Grammar

open Routine (call value denote rulesOf)
open Plan (Puts)

section Productions

variable {n : Nat} {s : State} (hgoals : Locating n)

include hgoals

/-! ## Expressions -/

/-- What an operand has taken when it is given up opens an operand. -/
theorem operand_locates (level : Level) : Locates n (operand level) s (Opens (.operand level)) := by
  unfold operand
  split
  next tighter hnext =>
    exact hgoals.call fun us h => h.mono fun _ _ _ he => (Derives.operand_of_operation hnext he).phrase
  next =>
    exact hgoals.call fun us h => h.mono fun _ _ _ he => (he.operand_of_unary level).phrase

/-- What an operation has taken opens an operation: so does its first operand. -/
theorem operation_locates (level : Level) :
    Locates n (operation level) s (Opened s (.operation level)) := by
  unfold operation
  refine (operand_locates hgoals level).bind (operand_reads level) (fun us h => ?_)
    fun left us ds s' _ => hgoals.become fun vs h hleft => h us ds (.noOperation hleft)
  exact h.mono fun _ _ _ he => (Derives.noOperation he).phrase

/-- What is taken after a left side opens an operation together with that side. -/
theorem operatorTail_locates (level : Level) (left : Expr) :
    Locates n (operatorTail level left) s (Opened s (.operatorTail level left)) := by
  unfold operatorTail
  refine locates_accept (fun operator s₁ hoperator _ => ?_) locates_pure
  refine (operand_locates hgoals level).bind (operand_reads level)
    (fun us h ts es hleft => h.moreOperations hleft hoperator)
    fun right us ds _ _ => hgoals.become fun vs h hright ts es hleft => ?_
  simpa using h _ _ (hleft.operation_of_join hoperator hright)

/-- What a primary expression has taken opens one: nothing, or a parenthesis and what opens an
expression. -/
theorem primary_locates : Locates n primary s (Opens .primary) := by
  refine .of_ready fun hs => ?_
  unfold primary
  refine locates_peek ?_
  split
  case h_1 _ h | h_2 _ h | h_3 _ h | h_6 _ h =>
    exact locates_advance (by simp [h]) fun _ _ => locates_pure
  case h_4 _ h | h_5 _ h =>
    -- the token has its value
    refine locates_advance (by simp [h]) fun _ _ => ?_
    split
    · exact locates_pure
    · exact locates_pure
    next hnone =>
      obtain ⟨rest, hrest⟩ := hs.isSealed.exists_rest (by simp [h])
      exact absurd hnone (hs.valued s.peek (by simp [hrest]) (by simp [h]))
  next h =>
    refine locates_advance (by simp [h]) fun _ _ => ?_
    refine (hgoals .expression _).bind (reads_call .expression) (fun us he => he.grouping h)
      fun e us ds _ _ => locates_expect (fun he => ?_) fun _ _ _ _ => locates_pure
    simpa using (Derives.opens he).grouping h
  next => exact locates_refused rfl ⟨[filler .kwNil], (Derives.constant rfl).phrase⟩

/-- What a unary expression has taken opens one, with or without an operator in front. -/
theorem unary_locates : Locates n unary s (Opened s .unary) := by
  unfold unary
  refine locates_accept (fun operator _ hoperator _ => ?_) ?_
  · exact (hgoals .unary _).bind (reads_call .unary) (fun us h => h.unary hoperator)
      fun _ _ _ _ _ => locates_pure
  · refine (primary_locates hgoals).bind primary_reads
      (fun us h => h.mono fun _ _ _ he => (Derives.noUnary (.noCall he)).phrase)
      fun e us ds _ _ => hgoals.become fun vs h he => ?_
    exact (h us ds (.noCall he)).mono fun _ _ _ he => (Derives.noUnary he).phrase

/-- What an argument list has taken opens one. -/
theorem argumentList_locates : Locates n argumentList s (Opens .argumentList) := by
  unfold argumentList
  refine locates_peekKind ?_
  split
  · exact locates_pure
  · refine (hgoals .expression s).bind (reads_call .expression)
      (fun us h => h.mono fun _ _ _ he => (Derives.someArguments (.firstArgument he)).phrase)
      fun e us ds _ _ => hgoals.call fun vs h he => ?_
    exact (h us ds (.firstArgument he)).mono fun _ _ _ hargs => (Derives.someArguments hargs).phrase

/-- What is taken after a callee opens a call together with it. -/
theorem calls_locates (callee : Expr) : Locates n (calls callee) s (Opened s (.calls callee)) := by
  unfold calls
  refine locates_accept (fun opening _ hopening _ => ?_) locates_pure
  rw [List.mem_singleton] at hopening
  refine (argumentList_locates hgoals).bind argumentList_reads
    (fun us h ts es hcallee => h.call_arguments hcallee hopening) fun args us ds _ _ => ?_
  refine locates_expect (fun hargs ts es hcallee => ?_) fun closing _ hclosing _ =>
    hgoals.become fun vs h hargs ts es hcallee => ?_
  · simpa using (Derives.opens hargs).call_arguments hcallee hopening
  · simpa using h _ _ (.call hcallee hopening hargs hclosing)

/-- What is taken after some arguments opens an argument list together with them. -/
theorem arguments_locates (read : List Expr) :
    Locates n (arguments read) s (Opened s (.arguments read)) := by
  unfold arguments
  refine locates_accept (fun comma _ hcomma _ => ?_) locates_pure
  rw [List.mem_singleton] at hcomma
  refine locates_reportBeyond rfl fun s₂ _ _ => ?_
  refine (hgoals .expression s₂).bind (reads_call .expression)
    (fun us h ts es hargs => h.moreArguments hargs hcomma)
    fun e us ds _ _ => hgoals.become fun vs h he ts es hread => ?_
  rcases Derives.begins he with ⟨⟨⟩, -⟩ | ⟨t, us, rfl, -⟩
  have hread' := Derives.moreArguments hread hcomma he
  rw [← List.reverse_cons] at hread'
  simpa using h _ _ hread'

/-- What an expression has taken opens one. The target of an assignment has been read by then, whatever
it is. -/
theorem expression_locates : Locates n expression s (Opened s .expression) := by
  unfold expression
  refine (hgoals (.operation .or) s).bind (reads_call (.operation .or))
    (fun us h => h.mono fun _ _ _ he => (Derives.noAssignment he).phrase) fun left us ds _ _ => ?_
  refine locates_accept (fun equals _ hequals _ => ?_) locates_pure
  rw [List.mem_singleton] at hequals
  refine (hgoals .expression _).bind (reads_call .expression)
    (fun vs h hleft => h.assigned hleft hequals) fun value vs es _ _ => ?_
  split
  · exact locates_pure
  · exact locates_report rfl fun _ _ => locates_pure

/-- What a clause has taken opens one: nothing, or what opens an expression. -/
theorem clause_locates (closing : Kind) : Locates n (clause closing) s (Opens .clause) := by
  unfold clause
  refine locates_peekKind ?_
  split
  · exact locates_pure
  · exact (hgoals .expression s).bind (reads_call .expression)
      (fun us h => h.mono fun _ _ _ he => (Derives.someClause he).phrase)
      fun _ _ _ _ _ => locates_pure

/-! ## Statements -/

/-- What an initial value has taken opens a variable declaration after its name. -/
theorem initialValue_locates {name : Token} (hname : name.kind = .identifier) :
    Locates n initialValue s fun us => Opens .variable (name :: us) := by
  unfold initialValue
  refine locates_accept (fun equals _ hequals _ => ?_) locates_pure
  rw [List.mem_singleton] at hequals
  exact (hgoals .expression _).bind (reads_call .expression)
    (fun us h => h.initialValue hname hequals) fun _ _ _ _ _ => locates_pure

/-- What the rest of a variable declaration has taken opens one. -/
theorem variableRest_locates : Locates n variableRest s (Opens .variable) := by
  unfold variableRest
  refine locates_expect ⟨[filler .identifier, filler .semicolon], (Derives.bareVariable rfl rfl).phrase⟩
    fun name _ hname _ => ?_
  refine (initialValue_locates hgoals hname).bind (initialValue_reads hname) (fun us h => h)
    fun init us ds _ _ => locates_expect (fun hinit => ?_) fun _ _ _ _ => locates_pure
  exact ⟨[filler .semicolon], by simpa using (hinit (filler .semicolon) rfl).phrase⟩

/-- What an expression statement has taken opens an expression; a missing semicolon can still be put
there. -/
theorem expressionStatement_locates : Locates n expressionStatement s (Opens .expression) := by
  unfold expressionStatement
  refine (hgoals .expression s).bind (reads_call .expression) (fun us h => h)
    fun e us ds _ _ => locates_expect (fun he => ?_) fun _ _ _ _ => locates_pure
  simpa using Derives.opens he

/-- What the rest of a block has taken opens declarations; a missing brace can still be put there. -/
theorem blockRest_locates : Locates n blockRest s (Opens (.declarations s.inBody)) := by
  unfold blockRest
  refine (hgoals (.block []) s).bind (reads_call (.block [])) (fun us h => h [] [] .noDeclarations)
    fun body us ds _ _ => locates_expect (fun hbody => ?_) fun _ _ _ _ => locates_pure
  simpa using (hbody [] [] .noDeclarations).opens

/-- What the rest of a `print` statement has taken opens one after its keyword. -/
theorem printRest_locates {keyword : Token} (hkeyword : keyword.kind = .kwPrint) :
    Locates n (printRest keyword) s fun us => Opens (.statement s.inBody false) (keyword :: us) := by
  unfold printRest
  refine (hgoals .expression s).bind (reads_call .expression) (fun us h => h.print hkeyword)
    fun e us ds _ _ => locates_expect (fun he => ?_) fun _ _ _ _ => locates_pure
  simpa using (Derives.opens he).print hkeyword

/-- What the rest of a `return` has taken opens one after its keyword. That it may be outside functions
is not fatal. -/
theorem returnRest_locates {keyword : Token} (hkeyword : keyword.kind = .kwReturn) :
    Locates n (returnRest keyword) s fun us => Opens (.statement s.inBody false) (keyword :: us) := by
  unfold returnRest
  refine locates_reportOutside fun s₁ _ _ => ?_
  refine (clause_locates hgoals .semicolon).bind (clause_reads .semicolon)
    (fun us h => h.returned hkeyword)
    fun e us ds _ _ => locates_expect (fun he => ?_) fun _ _ _ _ => locates_pure
  simpa using (Derives.opens he).returned hkeyword

/-- What the rest of a `while` loop has taken opens one after its keyword. -/
theorem whileRest_locates {keyword : Token} (hkeyword : keyword.kind = .kwWhile) :
    Locates n whileRest s fun us => ∃ hanging, Opens (.statement s.inBody hanging) (keyword :: us) := by
  unfold whileRest
  have hcondition : ∀ opening us, opening.kind = .leftParen → Opens .expression us →
      ∃ hanging, Opens (.statement s.inBody hanging) (keyword :: opening :: us) :=
    fun opening us hopening h => ⟨false, h.while_condition hkeyword hopening⟩
  refine locates_expect ?_ fun opening s₁ hopening hs₁ => ?_
  · obtain ⟨hanging, h⟩ := hcondition (filler .leftParen) [] rfl opens_expression
    exact ⟨hanging, h.of_append [keyword]⟩
  refine (hgoals .expression s₁).bind (reads_call .expression) (fun us => hcondition opening us hopening)
    fun e us ds s₂ hs₂ => ?_
  refine locates_expect (fun he => ?_) fun closing s₃ hclosing hs₃ => ?_
  · simpa using hcondition opening us hopening (Derives.opens he)
  refine (hgoals .statement s₃).bind (reads_call .statement) ?_ fun _ _ _ _ _ => locates_pure
  rintro vs ⟨hanging, h⟩ he
  rw [((hs₁.trans hs₂).trans hs₃).inBody] at h
  exact ⟨hanging, by simpa using h.while_body hkeyword hopening he hclosing⟩

/-- What the rest of a conditional has taken opens one after its keyword: in the condition, in the one
branch, or in the other. -/
theorem ifRest_locates {keyword : Token} (hkeyword : keyword.kind = .kwIf) :
    Locates n ifRest s fun us => ∃ hanging, Opens (.statement s.inBody hanging) (keyword :: us) := by
  unfold ifRest
  have hcondition : ∀ opening us, opening.kind = .leftParen → Opens .expression us →
      ∃ hanging, Opens (.statement s.inBody hanging) (keyword :: opening :: us) :=
    fun opening us hopening h => ⟨true, h.if_condition hkeyword hopening⟩
  refine locates_expect ?_ fun opening s₁ hopening hs₁ => ?_
  · obtain ⟨hanging, h⟩ := hcondition (filler .leftParen) [] rfl opens_expression
    exact ⟨hanging, h.of_append [keyword]⟩
  refine (hgoals .expression s₁).bind (reads_call .expression) (fun us => hcondition opening us hopening)
    fun e us ds s₂ hs₂ => ?_
  refine locates_expect (fun he => ?_) fun closing s₃ hclosing hs₃ => ?_
  · simpa using hcondition opening us hopening (Derives.opens he)
  have hinBody : s₃.inBody = s.inBody := ((hs₁.trans hs₂).trans hs₃).inBody
  refine (hgoals .statement s₃).bind (reads_call .statement) ?_ fun consequent vs es s₄ hs₄ => ?_
  · rintro vs ⟨hanging, h⟩ he
    rw [hinBody] at h
    exact ⟨true, by simpa using h.consequent hkeyword hopening he hclosing⟩
  refine locates_accept (fun other s₅ hother hs₅ => ?_) locates_pure
  have hinBody' : s₅.inBody = s.inBody := ((hs₄.trans hs₅).inBody).trans hinBody
  refine (hgoals .statement s₅).bind (reads_call .statement) ?_ fun _ _ _ _ _ => locates_pure
  rintro ws ⟨hanging, h⟩ hconsequent he
  have hconsequent := Built.not_hanging hconsequent hother hs₅
  rw [List.mem_singleton] at hother
  rw [hinBody] at hconsequent
  rw [hinBody'] at h
  exact ⟨hanging, by simpa using h.alternative hkeyword hopening he hclosing hconsequent hother⟩

/-- What an initializer has taken opens one. -/
theorem forInit_locates : Locates n forInit s (Opens .initializer) := by
  unfold forInit
  refine locates_accept (fun t _ ht _ => ?_) ?_
  · rw [List.mem_cons, List.mem_singleton] at ht
    dsimp only
    split
    next => exact locates_pure
    next hkind =>
      exact (variableRest_locates hgoals).bind variableRest_reads
        (fun us h => h.varInitializer (ht.resolve_left hkind)) fun _ _ _ _ _ => locates_pure
  · exact (expressionStatement_locates hgoals).bind expressionStatement_reads
      (fun us h => h.expressionInitializer) fun _ _ _ _ _ => locates_pure

/-- What the rest of a `for` loop has taken opens one after its keyword, in each of its clauses and in
its body. -/
theorem forRest_locates {keyword : Token} (hkeyword : keyword.kind = .kwFor) :
    Locates n forRest s fun us => ∃ hanging, Opens (.statement s.inBody hanging) (keyword :: us) := by
  unfold forRest
  have hinitializer : ∀ opening us, opening.kind = .leftParen → Opens .initializer us →
      ∃ hanging, Opens (.statement s.inBody hanging) (keyword :: opening :: us) :=
    fun opening us hopening h => ⟨false, h.for_initializer hkeyword hopening⟩
  refine locates_expect ?_ fun opening s₁ hopening hs₁ => ?_
  · obtain ⟨hanging, h⟩ := hinitializer (filler .leftParen) [] rfl opens_initializer
    exact ⟨hanging, h.of_append [keyword]⟩
  refine (forInit_locates hgoals).bind forInit_reads (fun us => hinitializer opening us hopening)
    fun init us ds s₂ hs₂ => ?_
  refine (clause_locates hgoals .semicolon).bind (clause_reads .semicolon)
    (fun vs h hinit => ⟨false, by simpa using h.for_condition hkeyword hopening hinit⟩)
    fun condition vs es s₃ hs₃ => ?_
  refine locates_expect (fun hcondition hinit => ?_) fun middle s₄ hmiddle hs₄ => ?_
  · exact ⟨false, by simpa using (Derives.opens hcondition).for_condition hkeyword hopening hinit⟩
  refine (clause_locates hgoals .rightParen).bind (clause_reads .rightParen)
    (fun ws h hcondition hinit =>
      ⟨false, by simpa using h.for_increment hkeyword hopening hinit hcondition hmiddle⟩)
    fun increment ws fs s₅ hs₅ => ?_
  refine locates_expect (fun hincrement hcondition hinit => ?_) fun closing s₆ hclosing hs₆ => ?_
  · exact ⟨false, by
      simpa using (Derives.opens hincrement).for_increment hkeyword hopening hinit hcondition hmiddle⟩
  refine (hgoals .statement s₆).bind (reads_call .statement) ?_ fun _ _ _ _ _ => locates_pure
  rintro xs ⟨hanging, h⟩ hincrement hcondition hinit
  rw [(((((hs₁.trans hs₂).trans hs₃).trans hs₄).trans hs₅).trans hs₆).inBody] at h
  exact ⟨hanging, by
    simpa using h.for_body hkeyword hopening hinit hcondition hmiddle hincrement hclosing⟩

/-- What a statement has taken opens one, whichever form its first token has chosen. -/
theorem statement_locates : Locates n statement s (Opened s .statement) := by
  unfold statement
  refine locates_peek ?_
  split
  next h =>
    refine locates_advance (by simp [h]) fun s₁ hs₁ => (printRest_locates hgoals h).mono fun us hus => ?_
    exact ⟨false, by rwa [hs₁.inBody] at hus⟩
  next h =>
    refine locates_advance (by simp [h]) fun s₁ hs₁ => (ifRest_locates hgoals h).mono fun us hus => ?_
    rwa [hs₁.inBody] at hus
  next h =>
    refine locates_advance (by simp [h]) fun s₁ hs₁ => (whileRest_locates hgoals h).mono fun us hus => ?_
    rwa [hs₁.inBody] at hus
  next h =>
    refine locates_advance (by simp [h]) fun s₁ hs₁ => (forRest_locates hgoals h).mono fun us hus => ?_
    rwa [hs₁.inBody] at hus
  next h =>
    refine locates_advance (by simp [h]) fun s₁ hs₁ => (returnRest_locates hgoals h).mono fun us hus => ?_
    exact ⟨false, by rwa [hs₁.inBody] at hus⟩
  next h =>
    refine locates_advance (by simp [h]) fun s₁ hs₁ => ?_
    refine (blockRest_locates hgoals).bind blockRest_reads (fun us hus => ?_)
      fun _ _ _ _ _ => locates_pure
    rw [hs₁.inBody] at hus
    exact ⟨false, hus.block h⟩
  next => exact (expressionStatement_locates hgoals).mono fun us hus => ⟨false, hus.expressionStatement⟩

/-! ## Declarations -/

/-- What a parameter list has taken opens one. -/
theorem parameterList_locates : Locates n parameterList s (Opens .parameterList) := by
  unfold parameterList
  refine locates_peekKind ?_
  split
  · exact locates_pure
  · exact hgoals.call fun us h => (h.1 rfl).mono fun _ _ _ hparams => (Derives.someParameters hparams).phrase

/-- What is taken after some parameters opens a parameter list together with them. -/
theorem parameters_locates (read : List Token) :
    Locates n (parameters read) s (Opened s (.parameters read)) := by
  unfold parameters
  refine locates_reportBeyond rfl fun s₁ _ _ => ?_
  refine locates_expect ⟨fun _ => ?_, fun ts es comma hread hcomma => ?_⟩ fun name _ hname _ => ?_
  · exact ⟨[filler .identifier], (Derives.firstParameter rfl).phrase⟩
  · exact ⟨[filler .identifier], by simpa using (Derives.moreParameters hread hcomma rfl).phrase⟩
  refine locates_accept (fun comma _ hcomma _ => ?_) locates_pure
  rw [List.mem_singleton] at hcomma
  refine hgoals.become fun vs h => ⟨?_, fun ts es comma' hread hcomma' => ?_⟩
  · rintro rfl
    exact h.2 [name] [] comma (.firstParameter hname) hcomma
  · have hread' := Derives.moreParameters hread hcomma' hname
    rw [← List.reverse_cons] at hread'
    simpa using h.2 _ _ comma hread' hcomma

/-- What the declaration of a function has taken opens one after its keyword. -/
theorem function_locates {keyword : Token} (hkeyword : keyword.kind = .kwFun) :
    Locates n function s fun us => Opens (.declaration s.inBody) (keyword :: us) := by
  unfold function
  have hparameters : ∀ name opening us, name.kind = .identifier → opening.kind = .leftParen →
      Opens .parameterList us → Opens (.declaration s.inBody) (keyword :: name :: opening :: us) :=
    fun name opening us hname hopening h => h.function_parameters hkeyword hname hopening
  have hnone : Opens .parameterList [] := Derives.noParameters.opens
  refine locates_expect ?_ fun name _ hname _ => locates_expect ?_ fun opening _ hopening _ => ?_
  · exact (hparameters (filler .identifier) (filler .leftParen) [] rfl rfl hnone).of_append [keyword]
  · exact (hparameters name (filler .leftParen) [] hname rfl hnone).of_append [keyword, name]
  refine (parameterList_locates hgoals).bind parameterList_reads
    (fun us => hparameters name opening us hname hopening) fun params us ds _ _ => ?_
  refine locates_expect (fun hparams => ?_) fun closing _ hclosing _ =>
    locates_expect (fun hparams => ?_) fun brace s₅ hbrace _ => ?_
  · simpa using hparameters name opening us hname hopening (Derives.opens hparams)
  · have hbrace : (filler .leftBrace).kind = .leftBrace := rfl
    have hbody : Opens (.declarations true) [] := Derives.noDeclarations.opens
    have h : Opens (.declaration s.inBody)
        (keyword :: name :: opening :: us ++ [closing] ++ [filler .leftBrace]) := by
      simpa using hbody.function_body hkeyword hname hopening hparams hclosing hbrace
    simpa using h.of_append
  refine (locates_inFunction (blockRest_locates hgoals)).bind functionBody_reads (fun vs h hparams => ?_)
    fun _ _ _ _ _ => locates_pure
  have hinBody : State.inBody { s₅ with depth := s₅.depth + 1 } = true := by simp [State.inBody]
  rw [hinBody] at h
  simpa using h.function_body hkeyword hname hopening hparams hclosing hbrace

/-- What a declaration has taken when it is given up opens a declaration. -/
theorem declarationBody_locates : Locates n declarationBody s (Opens (.declaration s.inBody)) := by
  unfold declarationBody
  refine locates_peek ?_
  split
  next h =>
    refine locates_advance (by simp [h]) fun s₁ hs₁ => (function_locates hgoals h).mono fun us hus => ?_
    rwa [hs₁.inBody] at hus
  next h =>
    exact locates_advance (by simp [h]) fun s₁ hs₁ =>
      (variableRest_locates hgoals).mono fun us hus => hus.varDeclaration h
  next =>
    refine hgoals.call fun us h => ?_
    obtain ⟨hanging, h⟩ := h
    exact h.statementDeclaration

/-- A declaration whose body is given up is dropped, and is the first one that is, if nothing fatal was noted
before. -/
theorem declaration_locates : Locates (n + 1) (call .declaration) s (Opened s .declaration) := by
  intro hs out hout
  rw [Routine.denote_call_succ] at hout
  have hindex : denote rules n Parse.index s = some (.ok s.index, s) := rfl
  change denote rules n declaration s = some out at hout
  rw [declaration, Routine.denote_bind, hindex, Option.bind_some] at hout
  dsimp only at hout
  rw [Routine.denote_bind, Routine.denote_attempt] at hout
  rcases hbody : denote rules n declarationBody s with _ | ⟨r, s'⟩
  · simp [hbody] at hout
  · cases declarationBody_locates hgoals hs _ hbody with
    | read h hds =>
      simp only [hbody, Option.map_some, Option.bind_some, Routine.denote_pure, Option.some.injEq] at hout
      subst hout
      exact .read h hds
    | stopped h hus => exact .dropped (.ask _ _) (Routine.value_of_denote rules hbody) h hus
    | dropped hq hvalue h hus =>
      have hinside : Puts (rulesOf rules) (declaration s) _ := (hq.bind _).bind _
      exact .dropped (.insideAsk _ hinside) hvalue h hus

/-- What is taken after some declarations of a block opens declarations together with them. -/
theorem block_locates (read : List Stmt) : Locates n (block read) s (Opened s (.block read)) := by
  unfold block
  refine locates_peekKind ?_
  split
  · exact locates_pure
  · exact (hgoals .declaration s).bind (reads_call .declaration)
      (fun us h ts es hread => h.moreDeclarations hread)
      fun d us ds s' hs' => hgoals.become fun vs h hd => opens_extended hd hs' h

/-- What is taken after some declarations of a program opens a program together with them. -/
theorem program_locates (read : List Stmt) : Locates n (program read) s (Opened s (.program read)) := by
  unfold program
  refine locates_peekKind ?_
  split
  · exact locates_pure
  · exact (hgoals .declaration s).bind (reads_call .declaration)
      (fun us h ts es hread => h.moreDeclarations hread)
      fun d us ds s' hs' => hgoals.become fun vs h hd => opens_extended hd hs' h

end Productions

/-- **Every goal is located**, however deep its goals are nested. -/
theorem locating (n : Nat) : Locating n := by
  induction n with
  | zero =>
    intro g s _ out hout
    cases hout
  | succ n ih =>
    intro g s
    cases g with
    | declaration => exact declaration_locates ih
    | program read => exact locates_call_of_rule (program_locates ih read)
    | block read => exact locates_call_of_rule (block_locates ih read)
    | statement => exact locates_call_of_rule (statement_locates ih)
    | expression => exact locates_call_of_rule (expression_locates ih)
    | operation level => exact locates_call_of_rule (operation_locates ih level)
    | operatorTail level left => exact locates_call_of_rule (operatorTail_locates ih level left)
    | unary => exact locates_call_of_rule (unary_locates ih)
    | calls callee => exact locates_call_of_rule (calls_locates ih callee)
    | arguments read => exact locates_call_of_rule (arguments_locates ih read)
    | parameters read => exact locates_call_of_rule (parameters_locates ih read)

/-! ## The first failure -/

/-- While the tokens are read, a production is given up in the state `s`: one that a goal stands for, or what a
declaration consists of. What is given up in parts of these is handed on to them. -/
inductive GivenUp (tokens : List Token) (s : State) : Prop where
  | goal {g : Goal} {t : State}
      (hputs : Puts (rulesOf rules) (program [] (State.ofTokens tokens)) (g, t))
      (hvalue : value rules (rules g) t = some (.error ⟨⟩, s))
  | declaration {t : State}
      (hputs : Puts (rulesOf rules) (program [] (State.ofTokens tokens)) (.declaration, t))
      (hvalue : value rules declarationBody t = some (.error ⟨⟩, s))

/-- The first production to be given up is given up in `s`, after a fatal complaint about `t`, before which
there was none. -/
structure FirstFailure (tokens : List Token) (s : State) (t : Token) : Prop where
  givenUp : GivenUp tokens s
  first : ∀ s', GivenUp tokens s' → s.diagnostics.toList <+: s'.diagnostics.toList
  reported : ∃ ds c es, s.diagnostics.toList = ds ++ [.atToken t c] ∧
    (parse tokens).diagnostics.toList = ds ++ .atToken t c :: es ∧ Harmless ds ∧ c.fatal = true

variable {tokens : List Token} {s t : State}

/-- What is noted about a part of the parser is among all complaints. -/
theorem Enters.diagnostics_begin {α : Type} {y : Parse α}
    (h : Enters (program []) (State.ofTokens tokens) y t) {out : Except Abandoned α × State}
    (hvalue : value rules y t = some out) :
    out.2.diagnostics.toList <+: (parse tokens).diagnostics.toList := by
  obtain ⟨read, s', hprogram, -⟩ := program_reaches_end [] (sealed_ofTokens tokens)
  obtain ⟨ds, hds⟩ := h.notes hvalue hprogram
  have hdiagnostics : s'.diagnostics = out.2.diagnostics ++ ds := hds.diagnostics
  exact ⟨ds, by simp [parse, outcome_eq_value, hprogram, hdiagnostics]⟩

/-- A goal that is put in the course of a program is begun there. -/
theorem enters_of_puts {g : Goal}
    (h : Puts (rulesOf rules) (program [] (State.ofTokens tokens)) (g, t)) :
    Enters (program []) (State.ofTokens tokens) (rules g) t :=
  let ⟨_, _, hprogram, _⟩ := program_reaches_end [] (sealed_ofTokens tokens)
  (Assembled.program []).enters_of_puts hprogram h

/-- A part that is given up has left a fatal complaint. -/
theorem Reads.not_harmless {α : Type} {b : Bool} {c m : Nat} {x : Parse α} {e : Abandoned}
    {P : List Token → α → List Diagnostic → State → Prop} (h : Reads b c m x t P) (ht : t.Sealed)
    (hvalue : value rules x t = some (.error e, s)) : ¬Harmless s.diagnostics.toList := by
  intro hharmless
  obtain ⟨us, ds, hpassed, hended⟩ := h.of_value ht hvalue
  have hdiagnostics : s.diagnostics = t.diagnostics ++ ds := hpassed.diagnostics
  rw [hdiagnostics, Array.toList_appendList, harmless_append] at hharmless
  obtain ⟨_, ⟨⟩, -⟩ := hended.sound hharmless.2

/-- A declaration whose body is given up is dropped, and the parser finds a place to go on. -/
theorem value_declaration_of_error {e : Abandoned} (h : value rules declarationBody t = some (.error e, s)) :
    value rules declaration t = some (.ok none, s.synchronize t.index) := by
  have hindex : value rules Parse.index t = some (.ok t.index, t) := rfl
  rw [declaration, Routine.value_bind_ok rules _ hindex, Routine.value_bind, Routine.value_attempt, h]
  rfl

/-- **A declaration that is given up leaves a fatal complaint among all complaints.** -/
theorem failure_noted {e : Abandoned} (h : Enters (program []) (State.ofTokens tokens) declaration t)
    (hvalue : value rules declarationBody t = some (.error e, s)) :
    s.diagnostics.toList <+: (parse tokens).diagnostics.toList ∧ ¬Harmless s.diagnostics.toList := by
  have hsealed := (h.placed (placed_ofTokens tokens)).1
  refine ⟨?_, declarationBody_reads.not_harmless hsealed hvalue⟩
  have hall := h.diagnostics_begin (value_declaration_of_error hvalue)
  obtain ⟨n, hn⟩ := synchronize_eq_iterate t.index s
  have hskipped := (Notes.iterate n s).diagnostics
  rw [← hn] at hskipped
  simpa [hskipped] using hall

/-- What was noted when a production was given up is among the diagnostics in the end, and there is a
fatal complaint in it. -/
theorem GivenUp.noted (h : GivenUp tokens s) :
    s.diagnostics.toList <+: (parse tokens).diagnostics.toList ∧ ¬Harmless s.diagnostics.toList := by
  cases h with
  | declaration hputs hvalue => exact failure_noted (enters_of_puts hputs) hvalue
  | @goal g t hputs hvalue =>
    have hentered := enters_of_puts hputs
    have hsealed := (hentered.placed (placed_ofTokens tokens)).1
    exact ⟨hentered.diagnostics_begin hvalue, (rules_reads g).not_harmless hsealed hvalue⟩

/-- Nothing goes on with a token that marks the end. -/
theorem not_opens_of_eof {us : List Token} {v : Token} (hv : v.kind = .eof) {x : Symbol} :
    ¬Opens x (us ++ [v]) := by
  rintro ⟨ws, r, ds, h⟩
  exact h.kind_ne_eof v (by simp) hv

/-- **Where the parser gives up a declaration, no program goes on with the next token.** -/
theorem not_opens_of_givenUp {us : List Token} {e : Abandoned}
    (h : Enters (program []) (State.ofTokens tokens) declaration t)
    (hvalue : value rules declarationBody t = some (.error e, s))
    (hstops : Stops (State.ofTokens tokens) us s) : ¬Opens (.declarations false) (us ++ [s.peek]) := by
  have hfinish := (sealed_ofTokens tokens).1
  rcases hrest : s.rest with _ | ⟨v, tail⟩
  · refine not_opens_of_eof ?_
    rw [State.peek, hrest, List.headD_nil, hstops.finish, hfinish]
  · rw [State.peek, hrest, List.headD_cons]
    rintro ⟨ws, program, es, hderives⟩
    rw [List.append_assoc, List.singleton_append] at hderives
    -- on the completed tokens, the same declaration is given up in the same way
    obtain ⟨us₁, hus₁, hvalue'⟩ := Assembled.declarationBody.blind hvalue v tail ws [] hrest
    obtain ⟨us₀, hus₀, h'⟩ := h.blind hus₁ ws
    obtain rfl : us₀ = us := by
      have hsplit := hus₀.symm.trans hstops.rest
      rw [hrest] at hsplit
      exact List.append_cancel_right hsplit
    have heof := hderives.kind_ne_eof
    have hstate : (State.ofTokens tokens).withRest (us₀ ++ v :: ws) =
        State.ofTokens (us₀ ++ v :: ws ++ [(State.ofTokens tokens).finish]) :=
      (ofTokens_of_split heof hfinish []).symm
    rw [hstate] at h'
    obtain ⟨hinitial, hfatal⟩ := failure_noted h' hvalue'
    -- but the parser has nothing fatal to say about a program of the grammar
    have hread : beforeEnd (us₀ ++ v :: ws ++ [(State.ofTokens tokens).finish]) = us₀ ++ v :: ws :=
      rest_ofTokens_of_split heof hfinish []
    rw [← hread] at hderives
    rw [parse_of_derives hderives, List.toList_toArray] at hinitial
    exact hfatal fun d hd => hderives.harmless d (hinitial.subset hd)

/-- The tokens taken before a failure are a beginning of the whole list, and the token of the failure is
the next one. -/
theorem Stops.supplied_eq {us : List Token} (h : Stops (State.ofTokens tokens) us s) :
    ∃ beyond, supplied tokens = us ++ s.peek :: beyond := by
  obtain ⟨beyond, hsupplied⟩ := exists_supplied tokens
  rw [hsupplied, h.rest, ← h.finish, State.peek]
  rcases s.rest with _ | ⟨v, tail⟩
  · exact ⟨beyond, by simp⟩
  · exact ⟨tail ++ s.finish :: beyond, by simp⟩

/-- What is given up with nothing fatal before it is the first to be given up. -/
theorem Stops.firstFailure {us : List Token} (h : Stops (State.ofTokens tokens) us s)
    (hs : GivenUp tokens s) : FirstFailure tokens s s.peek := by
  obtain ⟨ds, c, hds, hharmless⟩ := h.noted
  have hdiagnostics : s.diagnostics.toList = ds ++ [.atToken s.peek c] := by
    simpa [State.ofTokens] using congrArg Array.toList hds
  obtain ⟨⟨es, hall⟩, hfatal⟩ := hs.noted
  rw [hdiagnostics, harmless_append] at hfatal
  refine ⟨hs, fun s' hs' => ?_, ds, c, es, hdiagnostics, ?_, hharmless, ?_⟩
  · -- of two that were given up, the earlier one has noted what the later one has, or less
    obtain ⟨hinitial', hfatal'⟩ := hs'.noted
    rcases List.prefix_or_prefix_of_prefix hinitial' hs.noted.1 with hle | hle
    · rw [hdiagnostics] at hle ⊢
      rcases List.prefix_concat_iff.1 hle with heq | hle
      · exact heq ▸ List.prefix_rfl
      · exact absurd (fun d hd => hharmless d (hle.subset hd)) hfatal'
    · exact hle
  · rw [← hall, hdiagnostics, List.append_assoc, List.singleton_append]
  · by_contra hc
    exact hfatal ⟨hharmless, harmless_atToken (by simpa using hc)⟩

/-- **The first failure is located exactly.** If any production is given up while tokens with values are read,
then the first one that is complains about the token at that place of the list, not beyond the first token
that marks the end, for which the tokens before can be completed to a program of the relaxed grammar, and
those up to and with this one cannot. If none is given up, the tokens before the end are such a program. -/
theorem first_failure_located {tokens : List Token} (h : ∀ t ∈ tokens, t.Valued) :
    ((∃ s, GivenUp tokens s) → ∃ s t k, FirstFailure tokens s t ∧ k ≤ endIndex tokens ∧
      (supplied tokens)[k]? = some t ∧ Opens (.declarations false) ((supplied tokens).take k) ∧
        ¬Opens (.declarations false) ((supplied tokens).take (k + 1))) ∧
    ((¬∃ s, GivenUp tokens s) → Phrase (.declarations false) (beforeEnd tokens)) := by
  obtain ⟨read, s', hprogram, -⟩ := program_reaches_end [] (sealed_ofTokens tokens)
  obtain ⟨n, hn⟩ := Routine.exists_denote rules hprogram
  have hready : (State.ofTokens tokens).Ready :=
    ⟨sealed_ofTokens tokens, fun t ht => h t ((List.takeWhile_sublist _).subset ht)⟩
  have hdiagnostics : (parse tokens).diagnostics = s'.diagnostics := by
    simp [parse, outcome_eq_value, hprogram]
  cases program_locates (locating n) [] hready _ hn with
  | read hpassed hds =>
    have hharmless : Harmless (parse tokens).diagnostics.toList := by
      rw [hdiagnostics, hpassed.diagnostics]
      simpa [State.ofTokens] using hds
    refine ⟨?_, fun _ => ⟨_, _, parse_derives tokens hharmless⟩⟩
    rintro ⟨s, hs⟩
    obtain ⟨hinitial, hfatal⟩ := hs.noted
    exact absurd (fun d hd => hharmless d (hinitial.subset hd)) hfatal
  | @dropped _ t s us hputs hvalue hstops hopens =>
    have hs : GivenUp tokens s := .declaration hputs hvalue
    refine ⟨fun _ => ?_, fun hnone => absurd ⟨s, hs⟩ hnone⟩
    obtain ⟨beyond, hsupplied⟩ := hstops.supplied_eq
    have hlength : us.length ≤ endIndex tokens := by
      have hend := (placed_ofTokens tokens).endIndex_eq
      rw [hstops.rest, List.length_append] at hend
      omega
    refine ⟨s, s.peek, us.length, hstops.firstFailure hs, hlength, ?_, ?_, ?_⟩
    · simp [hsupplied]
    · rw [hsupplied, List.take_left]
      exact hopens [] [] .noDeclarations
    · rw [hsupplied, List.take_length_add_append]
      exact not_opens_of_givenUp (enters_of_puts hputs) hvalue hstops

/-- After `var` a name has to come. -/
theorem first_failure_located_var :
    let tokens := [filler .kwVar, filler .semicolon]
    (∀ t ∈ tokens, t.Valued) ∧ ∃ s t k, FirstFailure tokens s t ∧ k ≤ endIndex tokens ∧
      (supplied tokens)[k]? = some t ∧ Opens (.declarations false) ((supplied tokens).take k) ∧
        ¬Opens (.declarations false) ((supplied tokens).take (k + 1)) := by
  intro tokens
  have hvalues : ∀ t ∈ tokens, t.Valued := by simp [tokens, Token.Valued, filler, Token.synthetic]
  have hgivenUp : ∃ s, GivenUp tokens s :=
    ⟨_, .declaration (.ask _ _) (Routine.value_of_done rules rfl)⟩
  exact ⟨hvalues, (first_failure_located hvalues).1 hgivenUp⟩

end Treewalk.Grammar
