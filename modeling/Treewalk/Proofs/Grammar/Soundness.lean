import Treewalk.Proofs.Grammar.Reading

/-!
# The parser ends, and what it builds is derived

Every production stays within the budget of its goal (`rules_within`). From this alone follows, for
every list of tokens, that the parser ends within the steps that it is given (`exists_outcome`), that
it then has taken all tokens before the end, and that the tokens are a program of the relaxed grammar
which stands for the statements that were read, unless there was a fatal complaint
(`parse_derives`).
-/

namespace Treewalk.Grammar

variable {s : State}

/-! ## Expressions -/

/-- The levels are dear enough for their own steps, and cheap enough for an expression. -/
theorem Level.cost_bounds (level : Level) : 6 ≤ level.cost ∧ level.cost ≤ 26 := by
  cases level <;> decide

/-- From level to level four steps are spent, two of them on the operand. -/
theorem Level.cost_next {level tighter : Level} (h : level.next? = some tighter) :
    tighter.cost + 2 = level.cost - 2 := by
  cases level <;> cases h <;> rfl

/-- An operand is read as an operation of the next level, or as a unary expression. -/
theorem operand_reads (level : Level) :
    Reads true (level.cost - 2) 0 (operand level) s fun us r ds _ => Derives (.operand level) us r ds := by
  have hcost := level.cost_bounds
  unfold operand
  rcases hnext : level.next? with _ | tighter
  · refine (reads_call .unary).mono ⟨?_, id⟩ fun us r ds s' h => h.operand_of_unary level
    simp only [Goal.cost]
    omega
  · rw [← Level.cost_next hnext]
    exact (reads_call (.operation tighter)).mono ⟨Nat.le_refl _, id⟩
      fun us r ds s' h => .operand_of_operation hnext h

/-- An operation is read by its first operand and the tail, which extends it. -/
theorem operation_reads (level : Level) :
    Reads true level.cost 0 (operation level) s (Built s (.operation level)) := by
  have hcost := level.cost_bounds
  unfold operation
  refine (operand_reads level).bind ⟨Nat.sub_le _ _, id⟩ fun left us ds s' _ _ => ?_
  refine reads_become (.operatorTail level left) ⟨?_, id⟩ fun vs r es s'' htail hleft => ?_
  · simp only [Goal.cost]
    omega
  · exact htail us ds (.noOperation hleft)

/-- The tail of an operation extends what has been read of it by an operator and an operand, or ends. -/
theorem operatorTail_reads (level : Level) (left : Expr) :
    Reads true 0 0 (operatorTail level left) s (Built s (.operatorTail level left)) := by
  have hcost := level.cost_bounds
  unfold operatorTail
  refine reads_accept (fun operator _ hoperator _ => ?_) fun _ => ?_
  · refine (operand_reads level).bind ⟨by omega, nofun⟩ fun right us ds _ _ _ => ?_
    refine reads_become (.operatorTail level (level.join left operator right)) ⟨?_, nofun⟩
      fun vs r es _ htail hright ts fs hleft => ?_
    · simp only [Goal.cost]
      omega
    · simpa using htail _ _ (hleft.operation_of_join hoperator hright)
  · refine reads_pure fun ts es hleft => ?_
    simpa using hleft

/-- A primary expression is read as a constant, a name or an expression in parentheses. A number or
string without a value is fatal. -/
theorem primary_reads : Reads true 0 0 primary s fun us r ds _ => Derives .primary us r ds := by
  unfold primary
  refine reads_peek ?_
  -- the constants that are words, then numbers and strings, then names and parentheses
  split
  case h_1 _ h | h_2 _ h | h_3 _ h =>
    refine reads_advance (by simp [h]) fun _ _ => reads_pure ?_
    exact .constant (by simp [Token.constant?, h])
  case h_4 _ h | h_5 _ h =>
    refine reads_advance (by simp [h]) fun _ _ => ?_
    split
    case h_1 _ _ hvalue | h_2 _ _ hvalue =>
      exact reads_pure (.constant (by simp [Token.constant?, h, hvalue, Literal.constant]))
    next => exact reads_refuse rfl
  next h => exact reads_advance (by simp [h]) fun _ _ => reads_pure (.name h)
  next h =>
    refine reads_advance (by simp [h]) fun _ _ => ?_
    refine (reads_call .expression).bind (by decide) fun e us ds _ _ _ => ?_
    refine reads_expect fun closing _ hclosing _ => reads_pure fun he => ?_
    simpa using Derives.grouping h he hclosing
  next => exact reads_refuse rfl

/-- A unary expression is read as an operator and a unary expression, or as a call. -/
theorem unary_reads : Reads true 2 0 unary s (Built s .unary) := by
  unfold unary
  refine reads_accept (fun operator _ hoperator _ => ?_) fun _ => ?_
  · refine (reads_call .unary).bind (by decide) fun e us ds _ _ _ => reads_pure fun he => ?_
    simpa [Built] using Derives.unary hoperator he
  · refine primary_reads.bind (by decide) fun e us ds _ _ _ => ?_
    refine reads_become (.calls e) ⟨Nat.le_refl _, id⟩ fun vs r es _ hcalls he => ?_
    exact .noUnary (hcalls us ds (.noCall he))

/-- An argument list is read as empty, or up to the end of its last argument. -/
theorem argumentList_reads :
    Reads true 32 0 argumentList s fun us r ds _ => Derives .argumentList us r ds := by
  unfold argumentList
  refine reads_peekKind ?_
  split
  · exact reads_pure .noArguments
  · refine (reads_call .expression).bind (by decide) fun e us ds _ _ _ => ?_
    refine (reads_call (.arguments [e])).mono (by simp [Goal.cost, Goal.saves]) fun vs r es _ hmore he => ?_
    exact .someArguments (hmore us ds (.firstArgument he))

/-- Calls extend what has been read as the callee by an argument list, or end. -/
theorem calls_reads (callee : Expr) : Reads true 0 0 (calls callee) s (Built s (.calls callee)) := by
  unfold calls
  refine reads_accept (fun opening _ hopening _ => ?_) fun _ => ?_
  · refine argumentList_reads.bind (by decide) fun args us ds _ _ _ => ?_
    refine reads_expect fun closing _ hclosing _ => ?_
    refine reads_become (.calls (.call callee closing args)) (by simp [Goal.cost, Goal.saves])
      fun vs r es _ hcalls hargs ts fs hcallee => ?_
    rw [List.mem_singleton] at hopening
    simpa using hcalls _ _ (.call hcallee hopening hargs hclosing)
  · refine reads_pure fun ts es hcallee => ?_
    simpa using hcallee

/-- The token that a phrase begins with is the next one, before the phrase is read. -/
theorem Passed.peek_eq {s' : State} {t : Token} {us : List Token} {ds : List Diagnostic}
    (h : Passed s (t :: us) ds s') : s.peek = t := by
  unfold State.peek
  rw [h.rest]
  rfl

/-- Arguments extend those that have been read behind a comma, or end. -/
theorem arguments_reads (read : List Expr) :
    Reads true 0 0 (arguments read) s (Built s (.arguments read)) := by
  unfold arguments
  refine reads_accept (fun comma s₁ hcomma _ => ?_) fun _ => ?_
  · rw [List.mem_singleton] at hcomma
    refine reads_reportBeyond fun s₂ hs₂ => ?_
    refine (reads_call .expression).bind (by decide) fun e us ds s₃ hs₃ _ => ?_
    refine reads_become (.arguments (e :: read)) (by simp [Goal.cost, Goal.saves])
      fun vs r es _ hmore he ts fs hread => ?_
    rcases he.begins with ⟨⟨⟩, -⟩ | ⟨t, us, rfl, -⟩
    have hpeek : s₁.peek = t := (hs₂.trans hs₃).peek_eq
    have hread' := Derives.moreArguments hread hcomma he
    rw [← List.reverse_cons, List.length_reverse] at hread'
    simpa [hpeek] using hmore _ _ hread'
  · refine reads_pure fun ts es hread => ?_
    simpa using hread

/-- An expression is read as an operation, or as an assignment to what was read as one. A bad target is
complained about. -/
theorem expression_reads : Reads true 28 0 expression s (Built s .expression) := by
  unfold expression
  refine (reads_call (.operation .or)).bind (by decide) fun left us ds _ _ _ => ?_
  refine reads_accept (fun equals _ hequals _ => ?_) fun _ => reads_pure fun hleft => ?_
  · rw [List.mem_singleton] at hequals
    refine (reads_call .expression).bind (by decide) fun value vs es _ _ _ => ?_
    split
    · refine reads_pure fun hvalue hleft => ?_
      simpa [Built, badTarget, assignment] using Derives.assignment hleft hequals hvalue
    · refine reads_report fun _ _ => reads_pure fun hvalue hleft => ?_
      simpa [Built, badTarget, assignment] using Derives.assignment hleft hequals hvalue
  · simpa [Built] using Derives.noAssignment hleft

/-- A clause is read as an expression, or left out before the token that ends it. -/
theorem clause_reads (closing : Kind) :
    Reads true 30 0 (clause closing) s fun us r ds _ => Derives .clause us r ds := by
  unfold clause
  refine reads_peekKind ?_
  split
  · exact reads_pure .noClause
  · refine (reads_call .expression).bind (by decide) fun e us ds _ _ _ => reads_pure fun he => ?_
    simpa using Derives.someClause he

/-! ## Statements -/

/-- An initial value belongs to the variable whose name was read before it, and to the semicolon behind. -/
theorem initialValue_reads {name : Token} (hname : name.kind = .identifier) :
    Reads true 0 0 initialValue s fun us r ds _ => ∀ ending : Token, ending.kind = .semicolon →
      Derives .variable (name :: us ++ [ending]) (.var name r) ds := by
  unfold initialValue
  refine reads_accept (fun equals _ hequals _ => ?_) fun _ => reads_pure fun ending hending => ?_
  · rw [List.mem_singleton] at hequals
    refine (reads_call .expression).bind (by decide) fun e us ds _ _ _ =>
      reads_pure fun he ending hending => ?_
    simpa using Derives.initializedVariable hname hequals he hending
  · exact .bareVariable hname hending

/-- A variable is read behind its keyword. -/
theorem variableRest_reads :
    Reads true 0 0 variableRest s fun us r ds _ => Derives .variable us r ds := by
  unfold variableRest
  refine reads_expect fun name _ hname _ => ?_
  refine (initialValue_reads hname).bind (by decide) fun init us ds _ _ _ => ?_
  refine reads_expect fun ending _ hending _ => reads_pure fun hinit => ?_
  simpa using hinit ending hending

/-- An expression statement is read up to its semicolon. -/
theorem expressionStatement_reads :
    Reads true 30 1 expressionStatement s fun us r ds _ => ∃ e vs ending, r = .expression e ∧
      us = vs ++ [ending] ∧ Derives .expression vs e ds ∧ ending.kind = .semicolon := by
  unfold expressionStatement
  refine (reads_call .expression).bind (by decide) fun e us ds _ _ _ => ?_
  refine reads_expect fun ending _ hending _ => reads_pure fun he => ?_
  exact ⟨e, us, ending, rfl, rfl, by simpa [Built] using he, hending⟩

/-- The rest of a block is read as declarations and a closing brace. -/
theorem blockRest_reads :
    Reads false 38 0 blockRest s fun us r ds _ => ∃ vs ending, us = vs ++ [ending] ∧
      Derives (.declarations s.inBody) vs r ds ∧ ending.kind = .rightBrace := by
  unfold blockRest
  refine (reads_call (.block [])).bind (by decide) fun body us ds _ _ _ => ?_
  refine reads_expect fun ending _ hending _ => reads_pure fun hbody => ?_
  exact ⟨us, ending, rfl, by simpa using hbody [] [] .noDeclarations, hending⟩

/-- A `print` statement is read behind its keyword. -/
theorem printRest_reads {keyword : Token} (hkeyword : keyword.kind = .kwPrint) :
    Reads false 30 0 (printRest keyword) s fun us r ds _ =>
      Derives (.statement s.inBody false) (keyword :: us) r ds := by
  unfold printRest
  refine (reads_call .expression).bind (by decide) fun e us ds _ _ _ => ?_
  refine reads_expect fun ending _ hending _ => reads_pure fun he => ?_
  simpa using Derives.print hkeyword he hending

/-- A `return` is read behind its keyword, with a complaint outside function bodies. -/
theorem returnRest_reads {keyword : Token} (hkeyword : keyword.kind = .kwReturn) :
    Reads false 30 0 (returnRest keyword) s fun us r ds _ =>
      Derives (.statement s.inBody false) (keyword :: us) r ds := by
  unfold returnRest
  refine reads_reportOutside fun s₁ _ => ?_
  refine (clause_reads .semicolon).bind (by decide) fun e us ds _ _ _ => ?_
  refine reads_expect fun ending _ hending _ => reads_pure fun he => ?_
  simpa using Derives.return hkeyword he hending

/-- A `while` loop is read behind its keyword. It hangs if its body does, and then no `else` follows. -/
theorem whileRest_reads {keyword : Token} (hkeyword : keyword.kind = .kwWhile) :
    Reads false 30 0 whileRest s fun us r ds s' => ∃ hanging,
      Derives (.statement s.inBody hanging) (keyword :: us) r ds ∧
        (hanging = true → Clear [.kwElse] s'.rest) := by
  unfold whileRest
  refine reads_expect fun opening s₁ hopening hs₁ => ?_
  refine (reads_call .expression).bind (by decide) fun e us ds s₂ hs₂ _ => ?_
  refine reads_expect fun closing s₃ hclosing hs₃ => ?_
  refine (reads_call .statement).bind (by decide) fun body vs es s₄ _ _ => reads_pure ?_
  rintro ⟨hanging, hbody, hclear⟩ he
  have hinBody : s₃.inBody = s.inBody := ((hs₁.trans hs₂).trans hs₃).inBody
  rw [hinBody] at hbody
  exact ⟨hanging, by simpa using Derives.while hkeyword hopening he hclosing hbody, hclear⟩

/-- A statement that an `else` follows is not hanging. -/
theorem Built.not_hanging {s' s'' : State} {us : List Token} {r : Stmt} {ds : List Diagnostic}
    {other : Token} (h : Built s .statement us r ds s') (hother : other.kind ∈ [.kwElse])
    (hs'' : Passed s' [other] [] s'') : Derives (.statement s.inBody false) us r ds := by
  obtain ⟨hanging, hderives, hclear⟩ := h
  cases hanging with
  | false => exact hderives
  | true =>
    have hnext := hclear rfl
    rw [hs''.rest] at hnext
    exact absurd hother (clear_cons.1 hnext)

/-- A conditional is read behind its keyword. Without an `else` it hangs, and then none follows. -/
theorem ifRest_reads {keyword : Token} (hkeyword : keyword.kind = .kwIf) :
    Reads false 30 0 ifRest s fun us r ds s' => ∃ hanging,
      Derives (.statement s.inBody hanging) (keyword :: us) r ds ∧
        (hanging = true → Clear [.kwElse] s'.rest) := by
  unfold ifRest
  refine reads_expect fun opening s₁ hopening hs₁ => ?_
  refine (reads_call .expression).bind (by decide) fun e us ds s₂ hs₂ _ => ?_
  refine reads_expect fun closing s₃ hclosing hs₃ => ?_
  have hinBody : s₃.inBody = s.inBody := ((hs₁.trans hs₂).trans hs₃).inBody
  refine (reads_call .statement).bind (by decide) fun consequent vs es s₄ hs₄ _ => ?_
  refine reads_accept (fun other s₅ hother hs₅ => ?_) fun hclear => reads_pure ?_
  · have hinBody' : s₅.inBody = s.inBody := ((hs₄.trans hs₅).inBody).trans hinBody
    refine (reads_call .statement).bind (by decide) fun alternative ws fs s₆ _ _ => reads_pure ?_
    rintro ⟨hanging, halternative, hclear⟩ hconsequent he
    have hconsequent := Built.not_hanging hconsequent hother hs₅
    rw [List.mem_singleton] at hother
    rw [hinBody] at hconsequent
    rw [hinBody'] at halternative
    exact ⟨hanging, by
      simpa using Derives.ifElse hkeyword hopening he hclosing hconsequent hother halternative, hclear⟩
  · rintro ⟨hanging, hconsequent, -⟩ he
    rw [hinBody] at hconsequent
    exact ⟨true, by simpa using Derives.ifThen hkeyword hopening he hclosing hconsequent,
      fun _ => hclear⟩

/-- An initializer is read as nothing, as a variable or as an expression, with its semicolon. -/
theorem forInit_reads :
    Reads true 30 0 forInit s fun us r ds _ => Derives .initializer us r ds := by
  unfold forInit
  refine reads_accept (fun t _ ht _ => ?_) fun _ => ?_
  · rw [List.mem_cons, List.mem_singleton] at ht
    dsimp only
    split
    next hkind => exact reads_pure (.noInitializer hkind)
    next hkind =>
      refine variableRest_reads.bind (by decide) fun d us ds _ _ _ => reads_pure fun hd => ?_
      simpa using Derives.varInitializer (ht.resolve_left hkind) hd
  · refine expressionStatement_reads.bind (by decide) fun d us ds _ _ _ => reads_pure ?_
    rintro ⟨e, vs, ending, rfl, rfl, he, hending⟩
    simpa using Derives.expressionInitializer he hending

/-- A `for` loop is read behind its keyword, as the loop that it is lowered to. -/
theorem forRest_reads {keyword : Token} (hkeyword : keyword.kind = .kwFor) :
    Reads false 30 0 forRest s fun us r ds s' => ∃ hanging,
      Derives (.statement s.inBody hanging) (keyword :: us) r ds ∧
        (hanging = true → Clear [.kwElse] s'.rest) := by
  unfold forRest
  refine reads_expect fun opening s₁ hopening hs₁ => ?_
  refine forInit_reads.bind (by decide) fun init us ds s₂ hs₂ _ => ?_
  refine (clause_reads .semicolon).bind (by decide) fun condition vs es s₃ hs₃ _ => ?_
  refine reads_expect fun middle s₄ hmiddle hs₄ => ?_
  refine (clause_reads .rightParen).bind (by decide) fun increment ws fs s₅ hs₅ _ => ?_
  refine reads_expect fun closing s₆ hclosing hs₆ => ?_
  refine (reads_call .statement).bind (by decide) fun body xs gs s₇ _ _ => reads_pure ?_
  rintro ⟨hanging, hbody, hclear⟩ hincrement hcondition hinit
  have hinBody : s₆.inBody = s.inBody :=
    (((((hs₁.trans hs₂).trans hs₃).trans hs₄).trans hs₅).trans hs₆).inBody
  rw [hinBody] at hbody
  have h := Derives.for hkeyword hopening hinit hcondition hmiddle hincrement hclosing hbody
  exact ⟨hanging, by simpa using h, hclear⟩

/-- A statement is read as its first token says, and takes at least this token. -/
theorem statement_reads : Reads true 30 1 statement s (Built s .statement) := by
  unfold statement
  refine reads_peek ?_
  split
  next h =>
    refine reads_advance (by simp [h]) fun s₁ hs₁ => ?_
    refine (printRest_reads h).mono (by decide) fun us r ds _ hr => ?_
    exact ⟨false, by rwa [hs₁.inBody] at hr, nofun⟩
  next h =>
    refine reads_advance (by simp [h]) fun s₁ hs₁ => ?_
    refine (ifRest_reads h).mono (by decide) fun us r ds _ hr => ?_
    rwa [hs₁.inBody] at hr
  next h =>
    refine reads_advance (by simp [h]) fun s₁ hs₁ => ?_
    refine (whileRest_reads h).mono (by decide) fun us r ds _ hr => ?_
    rwa [hs₁.inBody] at hr
  next h =>
    refine reads_advance (by simp [h]) fun s₁ hs₁ => ?_
    refine (forRest_reads h).mono (by decide) fun us r ds _ hr => ?_
    rwa [hs₁.inBody] at hr
  next h =>
    refine reads_advance (by simp [h]) fun s₁ hs₁ => ?_
    refine (returnRest_reads h).mono (by decide) fun us r ds _ hr => ?_
    exact ⟨false, by rwa [hs₁.inBody] at hr, nofun⟩
  next h =>
    refine reads_advance (by simp [h]) fun s₁ hs₁ => ?_
    refine blockRest_reads.bind (by decide) fun body us ds _ _ _ => reads_pure ?_
    rintro ⟨vs, ending, rfl, hbody, hending⟩
    rw [hs₁.inBody] at hbody
    exact ⟨false, by simpa using Derives.block h hbody hending, nofun⟩
  next =>
    refine expressionStatement_reads.mono (by decide) ?_
    rintro us r ds _ ⟨e, vs, ending, rfl, rfl, he, hending⟩
    exact ⟨false, .expressionStatement he hending, nofun⟩

/-! ## Declarations -/

/-- A parameter list is read as empty, or up to its last parameter. -/
theorem parameterList_reads :
    Reads false 2 0 parameterList s fun us r ds _ => Derives .parameterList us r ds := by
  unfold parameterList
  refine reads_peekKind ?_
  split
  · exact reads_pure .noParameters
  · refine (reads_call (.parameters [])).mono (by decide) fun us r ds _ h => ?_
    exact .someParameters (h.1 rfl)

/-- Parameters extend those that have been read by a name, and go on behind a comma. -/
theorem parameters_reads (read : List Token) :
    Reads true 0 0 (parameters read) s (Built s (.parameters read)) := by
  unfold parameters
  refine reads_reportBeyond fun s₁ hs₁ => ?_
  refine reads_expect fun name s₂ hname hs₂ => ?_
  have hpeek : s.peek = name := (hs₁.trans hs₂).peek_eq
  have hfirst : read = [] → Derives .parameters [name] (name :: read).reverse
      (overLimit read.length s.peek .tooManyParameters) := by
    rintro rfl
    exact .firstParameter hname
  have hnext : ∀ ts es (comma : Token), Derives .parameters ts read.reverse es →
      comma.kind = .comma → Derives .parameters (ts ++ [comma, name]) (name :: read).reverse
        (es ++ overLimit read.length s.peek .tooManyParameters) := by
    intro ts es comma hread hcomma
    have h := Derives.moreParameters hread hcomma hname
    rw [hpeek]
    rwa [← List.reverse_cons, List.length_reverse] at h
  refine reads_accept (fun comma _ hcomma _ => ?_) fun _ => reads_pure ⟨?_, ?_⟩
  · rw [List.mem_singleton] at hcomma
    refine reads_become (.parameters (name :: read)) (by simp [Goal.cost, Goal.saves])
      fun vs r es _ hmore => ⟨fun hread => ?_, fun ts fs comma' hread hcomma' => ?_⟩
    · exact hmore.2 _ _ comma (hfirst hread) hcomma
    · simpa using hmore.2 _ _ comma (hnext ts fs comma' hread hcomma') hcomma
  · simpa using hfirst
  · simpa using hnext

/-- What is read in a function body is read as in one. -/
theorem reads_inFunction {α : Type} {k : Bool} {c n : Nat} {x : Parse α}
    {P : List Token → α → List Diagnostic → State → Prop}
    (h : Reads k c n x { s with depth := s.depth + 1 } fun us r ds s' =>
      P us r ds { s' with depth := s'.depth - 1 }) : Reads k c n (Parse.inFunction x) s P := by
  intro hs
  show (x.ensuring _).Affords _ { s with depth := s.depth + 1 } _ _
  rw [Routine.affords_ensuring]
  refine (h hs).mono ?_
  rintro ⟨r, s'⟩ left ⟨hleft, us, ds, hpassed, hended⟩
  refine ⟨hleft, us, ds, ⟨hpassed.rest, hpassed.index, hpassed.diagnostics, hpassed.finish, ?_⟩,
    hended.least, hended.sound⟩
  show s'.depth - 1 = s.depth
  rw [hpassed.depth, Nat.add_sub_cancel]

/-- A function body is read as declarations in a body, and a closing brace. -/
theorem functionBody_reads :
    Reads false 38 0 (Parse.inFunction blockRest) s fun us r ds _ => ∃ vs ending, us = vs ++ [ending] ∧
      Derives (.declarations true) vs r ds ∧ ending.kind = .rightBrace :=
  reads_inFunction blockRest_reads

/-- The declaration of a function is read behind its keyword. -/
theorem function_reads {keyword : Token} (hkeyword : keyword.kind = .kwFun) :
    Reads false 0 0 function s fun us r ds _ =>
      Derives (.declaration s.inBody) (keyword :: us) r ds := by
  unfold function
  refine reads_expect fun name _ hname _ => ?_
  refine reads_expect fun opening _ hopening _ => ?_
  refine parameterList_reads.bind (by decide) fun params us ds _ _ _ => ?_
  refine reads_expect fun closing _ hclosing _ => ?_
  refine reads_expect fun brace _ hbrace _ => ?_
  refine functionBody_reads.bind (by decide) fun body vs es _ _ _ => reads_pure ?_
  rintro ⟨vs, ending, rfl, hbody, hending⟩ hparams
  have h := Derives.function (b := s.inBody) hkeyword hname hopening hparams hclosing hbrace hbody
    hending
  simpa using h

/-- A declaration is read as its first token says. -/
theorem declarationBody_reads :
    Reads true 32 1 declarationBody s fun us r ds _ => Derives (.declaration s.inBody) us r ds := by
  unfold declarationBody
  refine reads_peek ?_
  split
  next h =>
    refine reads_advance (by simp [h]) fun s₁ hs₁ => ?_
    refine (function_reads h).mono (by decide) fun us r ds _ hr => ?_
    rwa [hs₁.inBody] at hr
  next h =>
    refine reads_advance (by simp [h]) fun _ _ => ?_
    exact variableRest_reads.mono (by decide) fun us r ds _ hr => .varDeclaration h hr
  next =>
    refine (reads_call .statement).mono (by decide) ?_
    rintro us r ds _ ⟨hanging, hr, -⟩
    exact .statementDeclaration hr

/-- Looking for a place to go on only takes tokens. -/
theorem passed_skip (s : State) : ∃ us, Passed s us [] s.skip := by
  have hgo : ∀ rest last index, ∃ us,
      Passed { s with rest, last, index } us [] (State.skip.go s last index rest) := by
    intro rest
    induction rest with
    | nil =>
      intro last index
      exact ⟨[], Passed.refl _⟩
    | cons t rest ih =>
      intro last index
      unfold State.skip.go
      split
      · exact ⟨[], Passed.refl _⟩
      · obtain ⟨us, hus⟩ := ih (some t) (index + 1)
        have ht : Passed { s with rest := t :: rest, last, index } [t] []
            { s with rest, last := some t, index := index + 1 } := passed_advance rfl
        exact ⟨t :: us, ht.trans hus⟩
  exact hgo s.rest s.last s.index

/-- After a declaration that took no token, one is taken. -/
theorem passed_synchronize (start : Nat) (s : State) : ∃ us, Passed s us [] (s.synchronize start) ∧
    (s.index = start → s.rest ≠ [] → us ≠ []) := by
  unfold State.synchronize
  split
  next h =>
    obtain ⟨us, hus⟩ := passed_skip s.advance
    rcases hrest : s.rest with _ | ⟨t, rest⟩
    · rw [show s.advance = s by unfold State.advance; rw [hrest]] at hus ⊢
      exact ⟨us, hus, fun _ hne => absurd rfl hne⟩
    · exact ⟨t :: us, (passed_advance hrest).trans hus, fun _ _ => List.cons_ne_nil _ _⟩
  next h =>
    obtain ⟨us, hus⟩ := passed_skip s
    exact ⟨us, hus, fun hindex => absurd hindex h⟩

/-- A declaration is read, or dropped after a fatal complaint; then it has skipped some tokens. At the
end it takes none. -/
theorem declaration_reads :
    Reads true 32 (Goal.declaration.least s) declaration s (Built s .declaration) := by
  unfold declaration
  refine reads_index ?_
  intro hs
  rw [Routine.affords_bind, Routine.affords_attempt]
  refine (declarationBody_reads hs).mono ?_
  rintro ⟨_ | d, s'⟩ left ⟨hleft, us, ds, hpassed, hended⟩
  · obtain ⟨vs, hskipped, hvs⟩ := passed_synchronize s.index s'
    have hall := hpassed.trans hskipped
    rw [List.append_nil] at hall
    refine ⟨Nat.le_trans (worth_antitone hpassed hskipped true) hleft, us ++ vs, ds, hall, ?_, ?_⟩
    · rintro - -
      rw [Goal.least]
      split
      next => exact Nat.zero_le _
      next hrest =>
        rcases us with _ | ⟨t, us⟩
        · have hrest' : s'.rest ≠ [] := by rwa [hpassed.rest] at hrest
          exact List.length_pos_iff.2 (hvs hpassed.index hrest')
        · simp
    · intro hds
      obtain ⟨_, ⟨⟩, -⟩ := hended.sound hds
  · refine ⟨hleft, us, ds, hpassed, ?_, ?_⟩
    · rintro - -
      have hus := hended.least d rfl
      rw [Goal.least]
      split
      · exact Nat.zero_le _
      · exact hus
    · intro hds
      obtain ⟨_, ⟨⟩, hd⟩ := hended.sound hds
      exact ⟨some d, rfl, d, rfl, hd⟩

/-! ## Lists of declarations -/

/-- A round of a loop over declarations pays for the next one. -/
theorem reads_round {α : Type} {f : Option Stmt → Parse α}
    {P : List Token → α → List Diagnostic → State → Prop} (hpeek : s.peek.kind ≠ .eof)
    (hf : ∀ d us ds s', Passed s us ds s' → Reads false 52 0 (f d) s'
      fun vs w es s'' => Built s .declaration us d ds s' → P (us ++ vs) w (ds ++ es) s'') :
    Reads false 36 0 (Routine.call Goal.declaration >>= f) s P := by
  intro hs
  have hcall : Reads true 34 1 (Routine.call Goal.declaration) s (Built s .declaration) := by
    obtain ⟨rest, hrest⟩ := hs.exists_rest hpeek
    have hleast : Goal.declaration.least s = 1 := by simp [Goal.least, hrest]
    exact hleast ▸ reads_call .declaration
  exact hcall.bind_spending (by decide) hf hs

/-- What extends the declarations read so far and one more extends those read so far. -/
theorem Built.extend {s' : State} {us vs : List Token} {ds es : List Diagnostic} {d : Option Stmt}
    {read r : List Stmt} (hd : Built s .declaration us d ds s') (hpassed : Passed s us ds s')
    (hmore : ∀ ts fs, Derives (.declarations s'.inBody) ts (d.toList ++ read).reverse fs →
      Derives (.declarations s'.inBody) (ts ++ vs) r (fs ++ es)) (ts : List Token)
    (fs : List Diagnostic) (hread : Derives (.declarations s.inBody) ts read.reverse fs) :
    Derives (.declarations s.inBody) (ts ++ (us ++ vs)) r (fs ++ (ds ++ es)) := by
  obtain ⟨d, rfl, hd⟩ := hd
  have hread' := Derives.moreDeclarations hread hd
  rw [← List.reverse_cons, ← hpassed.inBody] at hread'
  rw [← List.append_assoc, ← List.append_assoc, ← hpassed.inBody]
  exact hmore _ _ hread'

/-- A block extends the declarations that have been read, up to a closing brace or the end. -/
theorem block_reads (read : List Stmt) : Reads false 36 0 (block read) s (Built s (.block read)) := by
  unfold block
  refine reads_peekKind ?_
  split
  next => exact reads_pure fun ts es hread => by simpa using hread
  next h =>
    refine reads_round (fun heof => h (.inr heof)) fun d us ds s' hs' => ?_
    refine reads_become (.block (d.toList ++ read)) (by simp [Goal.cost]) ?_
    exact fun vs r es s'' hmore hd => hd.extend hs' hmore

/-- A program extends the declarations that have been read, up to the end. -/
theorem program_reads (read : List Stmt) :
    Reads false 36 0 (program read) s (Built s (.program read)) := by
  refine Reads.of_sealed fun hs => ?_
  unfold program
  refine reads_peekKind ?_
  split
  next h => exact reads_pure ⟨hs.rest_eq_nil h, fun ts es hread => by simpa using hread⟩
  next h =>
    refine reads_round h fun d us ds s' hs' => ?_
    refine reads_become (.program (d.toList ++ read)) (by simp [Goal.cost]) ?_
    exact fun vs r es s'' hmore hd => ⟨hmore.1, hd.extend hs' hmore.2⟩

/-! ## The whole parser -/

/-- **Every production reads what its goal is about**, within the steps of the goal. -/
theorem rules_reads (g : Goal) : Reads g.saves g.cost (g.least s) (rules g) s (Built s g) := by
  cases g with
  | program read => exact program_reads read
  | block read => exact block_reads read
  | declaration => exact declaration_reads
  | statement => exact statement_reads
  | expression => exact expression_reads
  | operation level => exact operation_reads level
  | operatorTail level left => exact operatorTail_reads level left
  | unary => exact unary_reads
  | calls callee => exact calls_reads callee
  | arguments read => exact arguments_reads read
  | parameters read => exact parameters_reads read

/-- **Every production stays within its budget.** -/
theorem rules_within : Routine.Within rules budget :=
  fun g _ hs => rules_reads g hs

/-- The parser begins with the end marked, whatever the list. -/
theorem sealed_ofTokens (tokens : List Token) : (State.ofTokens tokens).Sealed := by
  constructor
  · show ((tokens.find? (·.kind = .eof)).getD (State.suppliedEnd tokens)).kind = .eof
    rcases h : tokens.find? (·.kind = .eof) with _ | t
    · rw [h]
      rfl
    · rw [h]
      simpa using List.find?_some h
  · intro t ht
    simpa using List.all_eq_true.1 List.all_takeWhile t ht

/-- **The parser ends on every list of tokens**, within the steps that it is given, and as its
productions do. -/
theorem exists_outcome (tokens : List Token) : ∃ r s' us ds, outcome tokens = some (r, s') ∧
    Passed (State.ofTokens tokens) us ds s' ∧
      Ended 0 (Built (State.ofTokens tokens) (.program [])) r us ds s' := by
  have hreads := program_reads (s := State.ofTokens tokens) []
  obtain ⟨⟨r, s'⟩, _, hrun, _, us, ds, hpassed, hended⟩ :=
    rules_within.exists_run (hreads (sealed_ofTokens tokens))
  refine ⟨r, s', us, ds, Routine.run_mono rules ?_ hrun, hpassed, hended⟩
  have hlength : (State.ofTokens tokens).rest.length ≤ tokens.length :=
    (List.takeWhile_sublist _).length_le
  unfold enoughSteps
  omega

/-- **What the parser builds is derived**: unless there was a fatal complaint, the tokens before the
end are a program of the relaxed grammar, it stands for the statements that were read, and the
complaints are what is wrong with it. -/
theorem parse_derives (tokens : List Token) (h : Harmless (parse tokens).diagnostics.toList) :
    Derives (.declarations false) (tokens.takeWhile (·.kind ≠ .eof)) (parse tokens).program
      (parse tokens).diagnostics.toList := by
  obtain ⟨r, s', us, ds, houtcome, hpassed, hended⟩ := exists_outcome tokens
  have hdiagnostics : s'.diagnostics.toList = ds := by
    simp [hpassed.diagnostics, State.ofTokens]
  unfold parse at h ⊢
  rw [houtcome] at h ⊢
  rcases r with e | program
  · dsimp only at h
    rw [hdiagnostics] at h
    obtain ⟨_, ⟨⟩, -⟩ := hended.sound h
  · dsimp only at h ⊢
    rw [hdiagnostics] at h ⊢
    obtain ⟨_, ⟨⟩, hrest, hbuilt⟩ := hended.sound h
    have hus : (State.ofTokens tokens).rest = us := by rw [hpassed.rest, hrest, List.append_nil]
    have hall := hbuilt [] [] .noDeclarations
    rw [← hus] at hall
    exact hall

end Treewalk.Grammar
