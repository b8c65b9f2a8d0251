import Treewalk.Proofs.Grammar.Reading

/-!
# How phrases can go on

Some tokens *open* a phrase if there are tokens that complete them to one (`Opens`). What opens a part of a
phrase opens the whole, together with the parts before it: the part is completed, and the parts after it are
put there in the shortest form that they have. There is one lemma for every part that can be read with a
complaint. That a phrase is opened by its own beginning (`Opens.of_append`) gives the places between parts.

No phrase contains a token that marks the end (`Derives.kind_ne_eof`), and what is wrong with a phrase never
makes the parser give up (`Derives.harmless`).
-/

namespace Treewalk.Grammar

/-- The tokens are a phrase of the relaxed grammar. -/
def Phrase (x : Symbol) (us : List Token) : Prop :=
  ∃ r ds, Derives x us r ds

/-- The tokens can be completed to a phrase of the relaxed grammar. -/
def Opens (x : Symbol) (us : List Token) : Prop :=
  ∃ vs, Phrase x (us ++ vs)

variable {x y : Symbol} {us vs ws xs : List Token} {ds es fs : List Diagnostic} {b hanging : Bool}

/-! ## What phrases consist of -/

/-- No phrase contains a token that marks the end. -/
theorem Derives.kind_ne_eof {r : x.Tree} (h : Derives x us r ds) : ∀ t ∈ us, t.kind ≠ .eof := by
  induction h with
  | constant h =>
    have hkinds : ∀ kind ∈ primaryKinds, kind ≠ .eof := by decide
    simpa using hkinds _ (kind_mem_of_constant h)
  | unary hoperator _ ih =>
    have hkinds : ∀ kind ∈ [Kind.not, .minus], kind ≠ .eof := by decide
    exact List.forall_mem_cons.2 ⟨hkinds _ hoperator, ih⟩
  | @moreOperations level _ _ _ _ _ _ _ _ _ hrung _ hoperator _ ihl ihr =>
    obtain ⟨rfl, rfl⟩ := rung_mem_iff.1 hrung
    have hkinds : ∀ kind ∈ level.operators, kind ≠ .eof := by cases level <;> decide
    exact List.forall_mem_append.2 ⟨ihl, List.forall_mem_cons.2 ⟨hkinds _ hoperator, ihr⟩⟩
  | _ => simp_all [or_imp, forall_and]

/-- One complaint is harmless if it is not fatal. -/
theorem harmless_atToken {t : Token} {complaint : Complaint} (h : complaint.fatal = false) :
    Harmless [.atToken t complaint] := by
  intro d hd
  obtain rfl := List.mem_singleton.1 hd
  exact h

/-- Complaints about too many entries are harmless, if there are any. -/
theorem harmless_overLimit {before : Nat} {t : Token} {complaint : Complaint}
    (h : complaint.fatal = false) : Harmless (overLimit before t complaint) := by
  unfold overLimit
  split
  · exact harmless_atToken h
  · exact harmless_nil

/-- So are complaints about what is assigned to. -/
theorem harmless_badTarget (equals : Token) (target : Expr) : Harmless (badTarget equals target) := by
  unfold badTarget
  split
  · exact harmless_nil
  · exact harmless_atToken rfl

/-- So are complaints about a `return` outside function bodies. -/
theorem harmless_strayReturn (keyword : Token) (b : Bool) : Harmless (strayReturn keyword b) := by
  unfold strayReturn
  split
  · exact harmless_nil
  · exact harmless_atToken rfl

/-- What is wrong with a phrase never makes the parser give up. -/
theorem Derives.harmless {r : x.Tree} (h : Derives x us r ds) : Harmless ds := by
  induction h with
  | moreParameters _ _ _ ih => exact harmless_append.2 ⟨ih, harmless_overLimit rfl⟩
  | moreArguments _ _ _ ih ih' =>
    exact harmless_append.2 ⟨harmless_append.2 ⟨ih, harmless_overLimit rfl⟩, ih'⟩
  | assignment _ _ _ ih ih' => simp [ih, ih', harmless_badTarget]
  | «return» _ _ _ ih => simp [ih, harmless_strayReturn]
  | _ => simp_all

/-! ## Completing -/

/-- What is derived is a phrase. -/
theorem Derives.phrase {r : x.Tree} (h : Derives x us r ds) : Phrase x us :=
  ⟨r, ds, h⟩

/-- A phrase opens itself. -/
theorem Phrase.opens (h : Phrase x us) : Opens x us :=
  ⟨[], by rwa [List.append_nil]⟩

/-- What is derived opens a phrase. -/
theorem Derives.opens {r : x.Tree} (h : Derives x us r ds) : Opens x us :=
  h.phrase.opens

/-- A beginning of what opens a phrase opens it. -/
theorem Opens.of_append (us : List Token) (h : Opens x (us ++ vs)) : Opens x us := by
  obtain ⟨ws, h⟩ := h
  exact ⟨vs ++ ws, by rwa [← List.append_assoc]⟩

/-- What completes a part, and then `post`, completes the whole. -/
theorem Opens.within (h : Opens x us) (post : List Token)
    (hwhole : ∀ vs r ds, Derives x (us ++ vs) r ds → Phrase y (ws ++ (vs ++ post))) : Opens y ws := by
  obtain ⟨vs, r, ds, h⟩ := h
  exact ⟨vs ++ post, hwhole vs r ds h⟩

/-- What opens a phrase opens one of another kind, if the phrases of the first kind are of the second. -/
theorem Opens.mono (h : Opens x us) (hxy : ∀ vs r ds, Derives x vs r ds → Phrase y vs) :
    Opens y us := by
  obtain ⟨vs, r, ds, h⟩ := h
  exact ⟨vs, hxy _ r ds h⟩

/-- A token that no text was read for. -/
def filler (kind : Kind) : Token :=
  Token.synthetic kind "" 1

/-- The shortest expressions are single tokens. -/
theorem derives_filler : Derives .expression [filler .kwNil] (.literal .nil) [] :=
  .expression_of_primary (.constant rfl)

/-- The shortest statement, which stands for a missing body. -/
theorem derives_fillers : Derives (.statement b false) [filler .kwNil, filler .semicolon]
    (.expression (.literal .nil)) [] :=
  .expressionStatement derives_filler rfl

/-- An expression can be begun with nothing. -/
theorem opens_expression : Opens .expression [] :=
  ⟨_, derives_filler.phrase⟩

/-- So can an initializer. -/
theorem opens_initializer : Opens .initializer [] :=
  ⟨[filler .semicolon], (Derives.noInitializer rfl).phrase⟩

/-! ## Expressions -/

section Expressions

variable {level : Level} {operator equals opening comma : Token} {left callee target : Expr}
  {args : List Expr}

/-- An expression in parentheses is opened by what opens the expression. -/
theorem Opens.grouping (h : Opens .expression us) (hopening : opening.kind = .leftParen) :
    Opens .primary (opening :: us) :=
  h.within [filler .rightParen] fun vs _ _ he => by
    simpa using (Derives.grouping hopening he rfl).phrase

/-- A call is opened by its callee and what opens the arguments. -/
theorem Opens.call_arguments (h : Opens .argumentList vs) (hcallee : Derives .call us callee ds)
    (hopening : opening.kind = .leftParen) : Opens .call (us ++ opening :: vs) :=
  h.within [filler .rightParen] fun vs _ _ hargs => by
    simpa using (Derives.call hcallee hopening hargs rfl).phrase

/-- An argument list is opened by its first arguments and what opens the next one. The next one then has
a first token that may be complained about. -/
theorem Opens.moreArguments (h : Opens .expression vs) (hargs : Derives .arguments us args ds)
    (hcomma : comma.kind = .comma) : Opens .arguments (us ++ comma :: vs) := by
  refine h.within [] fun ws _ _ he => ?_
  rcases he.begins with ⟨⟨⟩, -⟩ | ⟨t, xs, hsplit, -⟩
  rw [hsplit] at he
  simpa [hsplit] using (Derives.moreArguments hargs hcomma he).phrase

/-- A unary expression is opened by its operator and what opens its operand. -/
theorem Opens.unary (h : Opens .unary us) (hoperator : operator.kind ∈ [.not, .minus]) :
    Opens .unary (operator :: us) :=
  h.within [] fun vs _ _ he => by simpa using (Derives.unary hoperator he).phrase

/-- An operation is opened by its left side, its operator and what opens the right side. -/
theorem Opens.moreOperations (h : Opens (.operand level) vs) (hleft : Derives (.operation level) us left ds)
    (hoperator : operator.kind ∈ level.operators) : Opens (.operation level) (us ++ operator :: vs) :=
  h.within [] fun vs _ _ hright => by
    simpa using (hleft.operation_of_join hoperator hright).phrase

/-- An assignment is opened by its target and what opens the value. -/
theorem Opens.assigned (h : Opens .expression vs) (htarget : Derives (.operation .or) us target ds)
    (hequals : equals.kind = .assign) : Opens .expression (us ++ equals :: vs) :=
  h.within [] fun vs _ _ hvalue => by
    simpa using (Derives.assignment htarget hequals hvalue).phrase

end Expressions

/-! ## Statements -/

section Statements

variable {keyword opening middle closing other : Token} {e : Expr} {init : Option Stmt}
  {condition increment : Option Expr} {s : Stmt}

/-- A `print` statement is opened by its keyword and what opens the expression. -/
theorem Opens.print (h : Opens .expression us) (hkeyword : keyword.kind = .kwPrint) :
    Opens (.statement b false) (keyword :: us) :=
  h.within [filler .semicolon] fun vs _ _ he => by
    simpa using (Derives.print hkeyword he rfl).phrase

/-- A `return` is opened by its keyword and what opens the clause. -/
theorem Opens.returned (h : Opens .clause us) (hkeyword : keyword.kind = .kwReturn) :
    Opens (.statement b false) (keyword :: us) :=
  h.within [filler .semicolon] fun vs _ _ he => by
    simpa using (Derives.return hkeyword he rfl).phrase

/-- A block is opened by its brace and what opens the declarations. -/
theorem Opens.block (h : Opens (.declarations b) us) (hopening : opening.kind = .leftBrace) :
    Opens (.statement b false) (opening :: us) :=
  h.within [filler .rightBrace] fun vs _ _ hss => by
    simpa using (Derives.block hopening hss rfl).phrase

/-- An expression statement is opened by what opens the expression. -/
theorem Opens.expressionStatement (h : Opens .expression us) : Opens (.statement b false) us :=
  h.within [filler .semicolon] fun vs _ _ he => by
    simpa using (Derives.expressionStatement he rfl).phrase

/-- A `while` loop is opened in its condition. -/
theorem Opens.while_condition (h : Opens .expression us) (hkeyword : keyword.kind = .kwWhile)
    (hopening : opening.kind = .leftParen) : Opens (.statement b false) (keyword :: opening :: us) :=
  h.within [filler .rightParen, filler .kwNil, filler .semicolon] fun vs _ _ he => by
    simpa using (Derives.while hkeyword hopening he rfl derives_fillers).phrase

/-- A `while` loop is opened in its body. -/
theorem Opens.while_body (h : Opens (.statement b hanging) vs) (hkeyword : keyword.kind = .kwWhile)
    (hopening : opening.kind = .leftParen) (he : Derives .expression us e ds)
    (hclosing : closing.kind = .rightParen) :
    Opens (.statement b hanging) (keyword :: opening :: us ++ closing :: vs) :=
  h.within [] fun vs _ _ hs => by
    simpa using (Derives.while hkeyword hopening he hclosing hs).phrase

/-- A conditional is opened in its condition. -/
theorem Opens.if_condition (h : Opens .expression us) (hkeyword : keyword.kind = .kwIf)
    (hopening : opening.kind = .leftParen) : Opens (.statement b true) (keyword :: opening :: us) :=
  h.within [filler .rightParen, filler .kwNil, filler .semicolon] fun vs _ _ he => by
    simpa using (Derives.ifThen hkeyword hopening he rfl derives_fillers).phrase

/-- A conditional is opened in what is done if the condition holds. -/
theorem Opens.consequent (h : Opens (.statement b hanging) vs) (hkeyword : keyword.kind = .kwIf)
    (hopening : opening.kind = .leftParen) (he : Derives .expression us e ds)
    (hclosing : closing.kind = .rightParen) :
    Opens (.statement b true) (keyword :: opening :: us ++ closing :: vs) :=
  h.within [] fun vs _ _ hs => by
    simpa using (Derives.ifThen hkeyword hopening he hclosing hs).phrase

/-- A conditional is opened in what is done otherwise. -/
theorem Opens.alternative (h : Opens (.statement b hanging) ws) (hkeyword : keyword.kind = .kwIf)
    (hopening : opening.kind = .leftParen) (he : Derives .expression us e ds)
    (hclosing : closing.kind = .rightParen) (hs : Derives (.statement b false) vs s es)
    (hother : other.kind = .kwElse) :
    Opens (.statement b hanging) (keyword :: opening :: us ++ closing :: vs ++ other :: ws) :=
  h.within [] fun vs _ _ hs' => by
    simpa using (Derives.ifElse hkeyword hopening he hclosing hs hother hs').phrase

/-- An initializer is opened by what opens a variable, after its keyword. -/
theorem Opens.varInitializer (h : Opens .variable us) (hkeyword : keyword.kind = .kwVar) :
    Opens .initializer (keyword :: us) :=
  h.within [] fun vs _ _ hs => by
    simpa using (Derives.varInitializer hkeyword hs).phrase

/-- An initializer is opened by what opens an expression. -/
theorem Opens.expressionInitializer (h : Opens .expression us) : Opens .initializer us :=
  h.within [filler .semicolon] fun vs _ _ he => by
    simpa using (Derives.expressionInitializer he rfl).phrase

/-- A `for` loop is opened in its initializer. -/
theorem Opens.for_initializer (h : Opens .initializer us) (hkeyword : keyword.kind = .kwFor)
    (hopening : opening.kind = .leftParen) : Opens (.statement b false) (keyword :: opening :: us) :=
  h.within [filler .semicolon, filler .rightParen, filler .kwNil, filler .semicolon]
    fun vs _ _ hinit => by
      simpa using
        (Derives.for hkeyword hopening hinit .noClause rfl .noClause rfl derives_fillers).phrase

/-- A `for` loop is opened in its condition. -/
theorem Opens.for_condition (h : Opens .clause vs) (hkeyword : keyword.kind = .kwFor)
    (hopening : opening.kind = .leftParen) (hinit : Derives .initializer us init ds) :
    Opens (.statement b false) (keyword :: opening :: us ++ vs) :=
  h.within [filler .semicolon, filler .rightParen, filler .kwNil, filler .semicolon]
    fun vs _ _ hcondition => by
      simpa using
        (Derives.for hkeyword hopening hinit hcondition rfl .noClause rfl derives_fillers).phrase

/-- A `for` loop is opened in its increment. -/
theorem Opens.for_increment (h : Opens .clause ws) (hkeyword : keyword.kind = .kwFor)
    (hopening : opening.kind = .leftParen) (hinit : Derives .initializer us init ds)
    (hcondition : Derives .clause vs condition es) (hmiddle : middle.kind = .semicolon) :
    Opens (.statement b false) (keyword :: opening :: us ++ vs ++ middle :: ws) :=
  h.within [filler .rightParen, filler .kwNil, filler .semicolon] fun vs _ _ hincrement => by
    simpa using
      (Derives.for hkeyword hopening hinit hcondition hmiddle hincrement rfl derives_fillers).phrase

/-- A `for` loop is opened in its body. -/
theorem Opens.for_body (h : Opens (.statement b hanging) xs) (hkeyword : keyword.kind = .kwFor)
    (hopening : opening.kind = .leftParen) (hinit : Derives .initializer us init ds)
    (hcondition : Derives .clause vs condition es) (hmiddle : middle.kind = .semicolon)
    (hincrement : Derives .clause ws increment fs) (hclosing : closing.kind = .rightParen) :
    Opens (.statement b hanging)
      (keyword :: opening :: us ++ vs ++ middle :: ws ++ closing :: xs) :=
  h.within [] fun vs _ _ hs => by
    simpa using
      (Derives.for hkeyword hopening hinit hcondition hmiddle hincrement hclosing hs).phrase

end Statements

/-! ## Declarations -/

section Declarations

variable {keyword name equals opening closing brace : Token} {params : List Token}

/-- A variable is opened in its initial value. -/
theorem Opens.initialValue (h : Opens .expression us) (hname : name.kind = .identifier)
    (hequals : equals.kind = .assign) : Opens .variable (name :: equals :: us) :=
  h.within [filler .semicolon] fun vs _ _ he => by
    simpa using (Derives.initializedVariable hname hequals he rfl).phrase

/-- The declaration of a variable is opened by its keyword and what opens the variable. -/
theorem Opens.varDeclaration (h : Opens .variable us) (hkeyword : keyword.kind = .kwVar) :
    Opens (.declaration b) (keyword :: us) :=
  h.within [] fun vs _ _ hs => by
    simpa using (Derives.varDeclaration hkeyword hs).phrase

/-- The declaration of a function is opened in its parameter list. -/
theorem Opens.function_parameters (h : Opens .parameterList us) (hkeyword : keyword.kind = .kwFun)
    (hname : name.kind = .identifier) (hopening : opening.kind = .leftParen) :
    Opens (.declaration b) (keyword :: name :: opening :: us) :=
  h.within [filler .rightParen, filler .leftBrace, filler .rightBrace] fun vs _ _ hparams => by
    simpa using
      (Derives.function hkeyword hname hopening hparams rfl rfl .noDeclarations rfl).phrase

/-- The declaration of a function is opened in its body. -/
theorem Opens.function_body (h : Opens (.declarations true) vs) (hkeyword : keyword.kind = .kwFun)
    (hname : name.kind = .identifier) (hopening : opening.kind = .leftParen)
    (hparams : Derives .parameterList us params ds) (hclosing : closing.kind = .rightParen)
    (hbrace : brace.kind = .leftBrace) :
    Opens (.declaration b) (keyword :: name :: opening :: us ++ closing :: brace :: vs) :=
  h.within [filler .rightBrace] fun vs _ _ hbody => by
    simpa using
      (Derives.function hkeyword hname hopening hparams hclosing hbrace hbody rfl).phrase

/-- A declaration is opened by what opens a statement. -/
theorem Opens.statementDeclaration (h : Opens (.statement b hanging) us) :
    Opens (.declaration b) us :=
  h.mono fun _ _ _ hs => (Derives.statementDeclaration hs).phrase

/-- Declarations are opened by the first of them and what opens the next. -/
theorem Opens.moreDeclarations (h : Opens (.declaration b) vs) {ss : List Stmt}
    (hss : Derives (.declarations b) us ss ds) : Opens (.declarations b) (us ++ vs) :=
  h.within [] fun vs _ _ hs => by
    simpa using (Derives.moreDeclarations hss hs).phrase

end Declarations

end Treewalk.Grammar
