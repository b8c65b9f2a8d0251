import Treewalk.Proofs.Grammar.Acceptance
import Treewalk.Proofs.Token.Lexeme
import Treewalk.Proofs.Tree.Erase
import Treewalk.Tree.Text

/-!
# The text of a program is a program

`Written x text r` says that a text spells a phrase of the kind `x` that stands for the tree `r`, up
to parentheses and positions, wherever the text is put in front of a delimiter. By induction on the
derivation that a tree comes from, its text is written in this sense (`Derives.spelled`). The text of
an expression has parentheses of its own, so it is a primary expression, whatever it came from. The
text of a statement can be followed by an `else` whenever the statement itself could, so that an
`else` in a text belongs to the `if` that it belongs to in the tree.

Of the tokens of the derivation it is only asked that they are lexemes and that their numbers are
finite (`Readable`); a number that is too large to be written has no digits to be read back.
-/

namespace Treewalk

/-- A token that can be written so that it is read again. -/
structure Token.Readable (t : Token) : Prop where
  genuine : t.Genuine
  finite : ∀ x, t.literal = some (.number x) → x.isFinite

/-- Where a token stands does not matter once its place is erased. -/
@[simp] theorem Token.erase_movedTo (t : Token) (p : Position) : (t.movedTo p).erase = t.erase := rfl

/-- Moving a token keeps its kind. -/
@[simp] theorem Token.kind_movedTo (t : Token) (p : Position) : (t.movedTo p).kind = t.kind := rfl

namespace Grammar

open Token

/-- The tree of a phrase without parentheses and positions. -/
def Symbol.erase : (x : Symbol) → x.Tree → x.Tree
  | declarations _ => Stmt.eraseAll
  | declaration _ => Stmt.erase
  | .variable => Stmt.erase
  | parameterList => List.map Token.erase
  | parameters => List.map Token.erase
  | statement _ _ => Stmt.erase
  | initializer => Option.map Stmt.erase
  | clause => Option.map Expr.erase
  | expression => Expr.erase
  | operation _ => Expr.erase
  | operand _ => Expr.erase
  | unary => Expr.erase
  | call => Expr.erase
  | argumentList => Expr.eraseAll
  | arguments => Expr.eraseAll
  | primary => Expr.erase

/-- What follows begins with a character that ends every token, or there is nothing more. -/
def Delimited (rest : List Char) : Prop :=
  ∀ c, rest.head? = some c → c ∈ [' ', '\n', '(', ')', ',', ';']

/-- A delimiter keeps every lexeme apart from what follows. -/
theorem Delimited.apart {rest : List Char} (h : Delimited rest) (kind : Kind) : Apart kind rest := by
  intro c hc
  have hmem := h c hc
  simp only [List.mem_cons, List.not_mem_nil, or_false] at hmem
  rcases hmem with rfl | rfl | rfl | rfl | rfl | rfl <;> cases kind <;> rfl

/-- What begins with a delimiter is delimited. -/
theorem delimited_cons {c : Char} (hc : c ∈ [' ', '\n', '(', ')', ',', ';']) (rest : List Char) :
    Delimited (c :: rest) := by
  rintro _ ⟨⟩
  exact hc

/-- A space keeps every lexeme apart from what follows. -/
theorem apart_space (kind : Kind) (rest : List Char) : Apart kind (' ' :: rest) :=
  (delimited_cons (by decide) rest).apart kind

/-- A space yields no token. -/
theorem Yields.space {p : Position} {cs : List Char} {vs : List Token} {r : Reader}
    (h : Yields ⟨p.advance ' ', cs⟩ vs r) : Yields ⟨p, ' ' :: cs⟩ vs r :=
  .blank rfl h

/-- In front of a delimiter, the text spells a phrase that stands for the tree, but for parentheses
and positions. -/
def Written (x : Symbol) (text : String) (r : x.Tree) : Prop :=
  ∀ p rest, Delimited rest → ∃ vs p' r', Yields ⟨p, text.toList ++ rest⟩ vs ⟨p', rest⟩ ∧
    Derives x vs r' [] ∧ x.erase r' = x.erase r

/-! ## Expressions -/

/-- The text of an expression is a primary expression that does not begin with `=`, and if the
expression is a bare name then the name is one that can be read. -/
structure Spelled (e : Expr) : Prop where
  written : Written .primary e.text e
  opens : ∃ c cs, e.text.toList = c :: cs ∧ c ≠ '='
  name : ∀ t, e = .variable t → t.Genuine ∧ t.kind = .identifier

/-- Only assignment signs and tests for sameness begin with an equals sign. -/
theorem opens_of_lexeme {kind : Kind} {cs : List Char} (h : IsLexeme kind cs)
    (hkind : kind ∉ [.assign, .equal]) : ∃ c cs', cs = c :: cs' ∧ c ≠ '=' := by
  obtain ⟨c, cs', hcs, -, -, hequal⟩ := h.lead
  refine ⟨c, cs', hcs, fun hc => hkind ?_⟩
  simpa using hequal hc

/-- A name spells itself. -/
theorem spelled_variable {t : Token} (ht : t.Genuine) (hk : t.kind = .identifier) :
    Spelled (.variable t) where
  written := by
    intro p rest hrest
    exact ⟨_, _, _, .again ht (hrest.apart _) .nil, .name (t := t.movedTo p) hk, rfl⟩
  opens := opens_of_lexeme ht.isLexeme (by simp [hk])
  name := by
    rintro _ ⟨⟩
    exact ⟨ht, hk⟩

/-- A constant whose text is its lexeme is spelled by it. -/
theorem spelled_lexeme {t : Token} {c : Constant} (ht : t.Genuine) (h : t.constant? = some c)
    (htext : c.text = t.lexeme) : Spelled (.literal c) where
  written := by
    intro p rest hrest
    have hy := Yields.again ht (p := p) (hrest.apart _) .nil
    rw [← htext] at hy
    exact ⟨_, _, _, hy, .constant (t := t.movedTo p) h, rfl⟩
  opens := by
    have hkind := kind_mem_of_constant h
    show ∃ c' cs, c.text.toList = c' :: cs ∧ c' ≠ '='
    rw [htext]
    refine opens_of_lexeme ht.isLexeme fun hbad => ?_
    simp only [List.mem_cons, List.not_mem_nil, or_false] at hbad
    rcases hbad with hbad | hbad <;> rw [hbad] at hkind <;> exact absurd hkind (by decide)
  name := fun _ => nofun

/-- A number is written with digits of its own choice. -/
theorem spelled_number {numeral : List Char} (h : (Number.ofNumeral numeral).isFinite) :
    Spelled (.literal (.number (Number.ofNumeral numeral))) := by
  obtain ⟨cs, htext, hnumeral, hvalue⟩ := Number.text_ofNumeral Number.treeStyle h
  have hlexeme : IsLexeme .number cs := .number hnumeral
  have htext' : (Expr.literal (.number (Number.ofNumeral numeral))).text = String.ofList cs := htext
  refine ⟨?_, ?_, fun _ => nofun⟩
  · intro p rest hrest
    have hy : Yields ⟨p, (Expr.literal (.number (Number.ofNumeral numeral))).text.toList ++ rest⟩
        [made .number p cs] ⟨p.past cs, rest⟩ := by
      rw [htext', String.toList_ofList]
      exact .token hlexeme (hrest.apart _) .nil
    have hconstant : (made .number p cs).constant? = some (.number (Number.ofNumeral cs)) := rfl
    rw [hvalue] at hconstant
    exact ⟨_, _, .literal (.number (Number.ofNumeral numeral)), hy, .constant hconstant, rfl⟩
  · rw [htext', String.toList_ofList]
    exact opens_of_lexeme hlexeme (by decide)

/-- A constant is spelled by its text, a number by its digits. -/
theorem spelled_constant {t : Token} {c : Constant} (ht : t.Readable) (h : t.constant? = some c) :
    Spelled (.literal c) := by
  have hagain := spelled_lexeme ht.genuine h
  have hliteral := ht.genuine.literal_eq
  have hlexeme := ht.genuine.isLexeme
  unfold Token.constant? at h
  split at h
  next hk =>
    cases h
    exact hagain (ht.genuine.lexeme_eq (by rw [hk]; rfl)).symm
  next hk =>
    cases h
    exact hagain (ht.genuine.lexeme_eq (by rw [hk]; rfl)).symm
  next hk =>
    cases h
    exact hagain (ht.genuine.lexeme_eq (by rw [hk]; rfl)).symm
  next hk =>
    rw [hk] at hliteral
    have hfinite := ht.finite _ hliteral
    rw [hliteral] at h
    cases h
    exact spelled_number hfinite
  next hk =>
    rw [hk] at hlexeme hliteral
    obtain ⟨value, hvalue, -⟩ := hlexeme.eq_quoted
    rw [hliteral, hvalue] at h
    cases h
    apply hagain
    apply String.toList_inj.1
    simp [Literal.constant, Constant.text, hvalue]
  next => cases h

/-- What stands in parentheses is a primary expression. -/
theorem spelled_of_parens {e : Expr} (text : String) (htext : e.text = "(" ++ text ++ ")")
    (hname : ∀ t, e ≠ .variable t) (h : Written .expression text e) : Spelled e where
  written := by
    intro p rest hrest
    have hshape : e.text.toList ++ rest = "(".toList ++ (text.toList ++ (")".toList ++ rest)) := by
      simp [htext]
    obtain ⟨us, p', e', hus, he', heq⟩ := h (p.past "(".toList) (")".toList ++ rest)
      (delimited_cons (by decide) _)
    have hy := Yields.fixed .leftParen rfl (fun _ _ => rfl)
      (hus.append (.fixed .rightParen rfl (hrest.apart _) .nil))
    rw [← hshape] at hy
    exact ⟨_, _, _, hy, .grouping rfl he' rfl, heq⟩
  opens := ⟨'(', text.toList ++ [')'], by simp [htext], by decide⟩
  name := fun t ht => absurd ht (hname t)

/-- What is spelled can stand where an expression can. -/
theorem Spelled.expression {e : Expr} (h : Spelled e) : Written .expression e.text e := by
  intro p rest hrest
  obtain ⟨us, p', e', hus, he', heq⟩ := h.written p rest hrest
  exact ⟨us, p', e', hus, he'.expression_of_primary, heq⟩

/-- A grouping is spelled by its text, the expression in parentheses. -/
theorem spelled_grouping {e : Expr} (he : Spelled e) : Spelled (.grouping e) :=
  spelled_of_parens e.text rfl (fun _ => nofun) he.expression

/-- An operator in front of its operand stands apart from it. -/
theorem spelled_unary {operator : Token} {e : Expr} (ho : operator.Genuine)
    (hk : operator.kind ∈ [.not, .minus]) (he : Spelled e) : Spelled (.unary operator e) := by
  have htext : (Expr.unary operator e).text = "(" ++ operator.lexeme ++ e.text ++ ")" := rfl
  refine spelled_of_parens (operator.lexeme ++ e.text)
    (by simp [htext, String.append_assoc]) (fun _ => nofun) ?_
  intro p rest hrest
  have hapart : Apart operator.kind (e.text.toList ++ rest) := by
    obtain ⟨c, cs, hcs, hc⟩ := he.opens
    rw [hcs]
    rintro _ ⟨⟩
    simp only [List.mem_cons, List.not_mem_nil, or_false] at hk
    rcases hk with hk | hk <;> rw [hk]
    · exact bne_iff_ne.2 hc
    · rfl
  obtain ⟨us, p', e', hus, he', heq⟩ := he.written (p.past operator.lexeme.toList) rest hrest
  have hy := Yields.again ho hapart hus
  rw [← List.append_assoc, ← String.toList_append] at hy
  have hderives : Derives .unary (operator.movedTo p :: us) _ [] := .unary hk he'.unary_of_primary
  exact ⟨_, _, _, hy, hderives.expression_of_unary, congrArg (Expr.unary operator.erase) heq⟩

/-- Erasing positions in an operation erases them in its sides and its operator. -/
theorem erase_join (level : Level) (left right : Expr) (operator : Token) :
    (level.join left operator right).erase = level.join left.erase operator.erase right.erase := by
  cases level <;> rfl

/-- The text of an operation is that of its sides with the operator between them, in parentheses. -/
theorem text_join (level : Level) (left right : Expr) (operator : Token) :
    (level.join left operator right).text =
      "(" ++ left.text ++ " " ++ operator.lexeme ++ " " ++ right.text ++ ")" := by
  cases level <;> rfl

/-- An operation is spelled by its text, whatever the levels of its sides: they are primary expressions
in it. -/
theorem spelled_join (level : Level) {left right : Expr} {operator : Token} (hl : Spelled left)
    (ho : operator.Genuine) (hk : operator.kind ∈ level.operators) (hr : Spelled right) :
    Spelled (level.join left operator right) := by
  refine spelled_of_parens (left.text ++ " " ++ operator.lexeme ++ " " ++ right.text)
    (by simp [text_join, String.append_assoc]) (fun t => by cases level <;> nofun) ?_
  intro p rest hrest
  have hshape : (left.text ++ " " ++ operator.lexeme ++ " " ++ right.text).toList ++ rest =
      left.text.toList ++ (' ' :: (operator.lexeme.toList ++ (' ' :: (right.text.toList ++ rest)))) := by
    simp
  obtain ⟨us, p₁, left', hus, hleft, heql⟩ := hl.written p
    (' ' :: (operator.lexeme.toList ++ (' ' :: (right.text.toList ++ rest))))
    (delimited_cons (by decide) _)
  obtain ⟨vs, p₂, right', hvs, hright, heqr⟩ := hr.written
    (((p₁.advance ' ').past operator.lexeme.toList).advance ' ') rest hrest
  have hy := hus.append (Yields.space (.again ho (apart_space _ _)
    (Yields.space hvs)))
  rw [← hshape] at hy
  have hderives : Derives (.operation level) (us ++ operator.movedTo (p₁.advance ' ') :: vs) _ [] :=
    .operation_of_join (.noOperation (hleft.unary_of_primary.operand_of_unary level)) hk
      (hright.unary_of_primary.operand_of_unary level)
  refine ⟨_, _, _, hy, hderives.expression_of_operation, ?_⟩
  show Expr.erase _ = Expr.erase _
  rw [erase_join, erase_join]
  exact congrArg₂ (fun l r => level.join l operator.erase r) heql heqr

/-- An assignment is spelled by its text. The name is delimited by a space, so that the equals sign is
read alone. -/
theorem spelled_assign {name : Token} {value : Expr} (hn : name.Genuine)
    (hk : name.kind = .identifier) (hv : Spelled value) : Spelled (.assign name value) := by
  have htext : (Expr.assign name value).text = "(" ++ name.lexeme ++ " = " ++ value.text ++ ")" := rfl
  refine spelled_of_parens (name.lexeme ++ " = " ++ value.text)
    (by simp [htext, String.append_assoc]) (fun _ => nofun) ?_
  intro p rest hrest
  have hshape : (name.lexeme ++ " = " ++ value.text).toList ++ rest =
      name.lexeme.toList ++ (' ' :: ("=".toList ++ (' ' :: (value.text.toList ++ rest)))) := by
    simp
  obtain ⟨us, p', value', hus, hvalue, heq⟩ := hv.written
    ((((p.past name.lexeme.toList).advance ' ').past "=".toList).advance ' ') rest hrest
  have hy := Yields.again hn (apart_space _ _) (Yields.space
    (.fixed .assign rfl (apart_space _ _) (Yields.space hus)))
  rw [← hshape] at hy
  have hname : Derives .primary [name.movedTo p] _ [] := .name hk
  have htarget := Derives.noOperation (hname.unary_of_primary.operand_of_unary .or)
  exact ⟨_, _, _, hy, .assignment htarget rfl hvalue.expression_of_primary,
    congrArg (Expr.assign name.erase) heq⟩

/-! ## Lists -/

/-- The texts of expressions in a list are their texts one by one. -/
theorem texts_eq_map (es : List Expr) : Expr.texts es = es.map Expr.text := by
  induction es with
  | nil => rfl
  | cons e es ih => rw [Expr.texts, ih, List.map_cons]

/-- One more text in a list stands behind one more separator. -/
theorem intercalate_concat {sep : String} {texts : List String} (h : texts ≠ []) (text : String) :
    sep.intercalate (texts ++ [text]) = sep.intercalate texts ++ sep ++ text := by
  rw [String.intercalate_append_of_ne_nil h (List.cons_ne_nil _ _), String.intercalate_singleton]

/-- A single argument is written without a comma. -/
theorem written_firstArgument {e : Expr} (he : Spelled e) :
    Written .arguments (", ".intercalate (Expr.texts [e])) [e] := by
  intro p rest hrest
  obtain ⟨us, p', e', hus, he', heq⟩ := he.expression p rest hrest
  rw [texts_eq_map, List.map_singleton, String.intercalate_singleton]
  exact ⟨us, p', [e'], hus, .firstArgument he', congrArg (fun e => [e]) heq⟩

/-- Lists that are the same without positions are equally long. -/
theorem length_eq_of_eraseAll {es es' : List Expr} (h : Expr.eraseAll es' = Expr.eraseAll es) :
    es'.length = es.length := by
  rw [Expr.eraseAll_eq_map, Expr.eraseAll_eq_map] at h
  simpa using congrArg List.length h

/-- A further argument is written behind a comma. The list it is added to is within the limit, so that
there is nothing to complain about. -/
theorem written_moreArguments {args : List Expr} {e : Expr}
    (hargs : Written .arguments (", ".intercalate (Expr.texts args)) args) (hne : args ≠ [])
    (hlimit : args.length < maxArguments) (he : Spelled e) :
    Written .arguments (", ".intercalate (Expr.texts (args ++ [e]))) (args ++ [e]) := by
  intro p rest hrest
  have hshape : (", ".intercalate (Expr.texts (args ++ [e]))).toList ++ rest =
      (", ".intercalate (Expr.texts args)).toList ++
        (",".toList ++ (' ' :: (e.text.toList ++ rest))) := by
    rw [texts_eq_map, texts_eq_map, List.map_append, List.map_singleton,
      intercalate_concat (by simpa using hne)]
    simp
  obtain ⟨us, p₁, args', hus, hargs', heqs⟩ := hargs p (",".toList ++ (' ' :: (e.text.toList ++ rest)))
    (delimited_cons (by decide) _)
  obtain ⟨vs, p₂, e', hvs, he', heq⟩ := he.expression ((p₁.past ",".toList).advance ' ') rest hrest
  have hy := hus.append (.fixed .comma rfl (fun _ _ => rfl) (Yields.space hvs))
  rw [← hshape] at hy
  obtain ⟨⟨⟩, -⟩ | ⟨t, vs, rfl, -⟩ := he'.begins
  have hover : overLimit args'.length t .tooManyArguments = [] := by
    apply if_neg
    rw [length_eq_of_eraseAll heqs]
    omega
  have hcomma : (made .comma p₁ ",".toList).kind = .comma := rfl
  have hderives := hargs'.moreArguments hcomma he'
  rw [hover] at hderives
  refine ⟨_, _, _, hy, hderives, ?_⟩
  show Expr.eraseAll (args' ++ [e']) = Expr.eraseAll (args ++ [e])
  have heqs' : Expr.eraseAll args' = Expr.eraseAll args := heqs
  rw [Expr.eraseAll_eq_map, Expr.eraseAll_eq_map] at heqs' ⊢
  rw [List.map_append, List.map_append, heqs', List.map_singleton, List.map_singleton]
  exact congrArg (fun e => args.map Expr.erase ++ [e]) heq

/-- A call is spelled by its text: the callee, and its arguments in parentheses. -/
theorem spelled_call {callee : Expr} {paren : Token} {args : List Expr} (hc : Spelled callee)
    (hp : paren.Genuine) (hk : paren.kind = .rightParen)
    (hargs : Written .argumentList (", ".intercalate (Expr.texts args)) args) :
    Spelled (.call callee paren args) := by
  have htext : (Expr.call callee paren args).text =
      "(" ++ callee.text ++ "(" ++ ", ".intercalate (Expr.texts args) ++ "))" := rfl
  refine spelled_of_parens (callee.text ++ "(" ++ ", ".intercalate (Expr.texts args) ++ ")")
    (by simp [htext, String.append_assoc]) (fun _ => nofun) ?_
  intro p rest hrest
  have hlexeme : paren.lexeme = ")" := hp.lexeme_eq (by rw [hk]; rfl)
  have hshape : (callee.text ++ "(" ++ ", ".intercalate (Expr.texts args) ++ ")").toList ++ rest =
      callee.text.toList ++ ("(".toList ++ ((", ".intercalate (Expr.texts args)).toList ++
        (paren.lexeme.toList ++ rest))) := by
    simp [hlexeme]
  obtain ⟨us, p₁, callee', hus, hcallee, heq⟩ := hc.written p
    ("(".toList ++ ((", ".intercalate (Expr.texts args)).toList ++ (paren.lexeme.toList ++ rest)))
    (delimited_cons (by decide) _)
  obtain ⟨vs, p₂, args', hvs, hargs', heqs⟩ := hargs (p₁.past "(".toList) (paren.lexeme.toList ++ rest)
    (by rw [hlexeme]; exact delimited_cons (by decide) _)
  have hy := hus.append (.fixed .leftParen rfl (fun _ _ => rfl)
    (hvs.append (.again hp (hrest.apart _) .nil)))
  rw [← hshape] at hy
  have hopening : (made .leftParen p₁ "(".toList).kind = .leftParen := rfl
  have hclosing : (paren.movedTo p₂).kind = .rightParen := hk
  have hderives := Derives.call (.noCall hcallee) hopening hargs' hclosing
  rw [List.append_assoc] at hderives
  exact ⟨_, _, _, hy, (Derives.noUnary hderives).expression_of_unary,
    congrArg₂ (fun c args => Expr.call c paren.erase args) heq heqs⟩

/-- A single parameter is written without a comma. -/
theorem written_firstParameter {name : Token} (hn : name.Genuine) (hk : name.kind = .identifier) :
    Written .parameters (", ".intercalate ([name].map Token.lexeme)) [name] := by
  intro p rest hrest
  have hname : (name.movedTo p).kind = .identifier := hk
  rw [List.map_singleton, String.intercalate_singleton]
  exact ⟨_, _, _, .again hn (hrest.apart _) .nil, .firstParameter hname, rfl⟩

/-- A further parameter is written behind a comma. -/
theorem written_moreParameters {params : List Token} {name : Token}
    (hparams : Written .parameters (", ".intercalate (params.map Token.lexeme)) params)
    (hne : params ≠ []) (hlimit : params.length < maxArguments) (hn : name.Genuine)
    (hk : name.kind = .identifier) :
    Written .parameters (", ".intercalate ((params ++ [name]).map Token.lexeme))
      (params ++ [name]) := by
  intro p rest hrest
  have hshape : (", ".intercalate ((params ++ [name]).map Token.lexeme)).toList ++ rest =
      (", ".intercalate (params.map Token.lexeme)).toList ++
        (",".toList ++ (' ' :: (name.lexeme.toList ++ rest))) := by
    rw [List.map_append, List.map_singleton, intercalate_concat (by simpa using hne)]
    simp
  obtain ⟨us, p₁, params', hus, hparams', heqs⟩ := hparams p
    (",".toList ++ (' ' :: (name.lexeme.toList ++ rest))) (delimited_cons (by decide) _)
  have hy := hus.append (.fixed .comma rfl (fun _ _ => rfl) (Yields.space
    (.again hn (hrest.apart _) .nil)))
  rw [← hshape] at hy
  have heqs' : params'.map Token.erase = params.map Token.erase := heqs
  have hlength : params'.length = params.length := by simpa using congrArg List.length heqs'
  have hover (t : Token) : overLimit params'.length t .tooManyParameters = [] := by
    apply if_neg
    omega
  have hcomma : (made .comma p₁ ",".toList).kind = .comma := rfl
  have hname : (name.movedTo ((p₁.past ",".toList).advance ' ')).kind = .identifier := hk
  have hderives := hparams'.moreParameters hcomma hname
  rw [hover] at hderives
  refine ⟨_, _, _, hy, hderives, ?_⟩
  show (params' ++ [_]).map Token.erase = (params ++ [name]).map Token.erase
  rw [List.map_append, List.map_append, heqs']
  rfl

/-- The texts of statements in a list are their texts one by one. -/
theorem stmtTexts_eq_map (ss : List Stmt) : Stmt.texts ss = ss.map Stmt.text := by
  induction ss with
  | nil => rfl
  | cons s ss ih => rw [Stmt.texts, ih, List.map_cons]

/-- No declarations are written as nothing. -/
theorem written_noDeclarations {b : Bool} (sep : String) :
    Written (.declarations b) (sep.intercalate (Stmt.texts [])) [] :=
  fun _ _ _ => ⟨[], _, [], .nil, .noDeclarations, rfl⟩

/-- Declarations one after the other, with a blank between them. -/
theorem written_moreDeclarations {b : Bool} {sep : String} (hsep : sep = " " ∨ sep = "\n")
    {ss : List Stmt} {s : Stmt}
    (hss : Written (.declarations b) (sep.intercalate (Stmt.texts ss)) ss)
    (hs : Written (.declaration b) s.text s) :
    Written (.declarations b) (sep.intercalate (Stmt.texts (ss ++ [s]))) (ss ++ [s]) := by
  have herase {ss' : List Stmt} {s' : Stmt} (heqs : Stmt.eraseAll ss' = Stmt.eraseAll ss)
      (heq : s'.erase = s.erase) : Stmt.eraseAll (ss' ++ [s']) = Stmt.eraseAll (ss ++ [s]) := by
    rw [Stmt.eraseAll_eq_map, Stmt.eraseAll_eq_map] at heqs ⊢
    rw [List.map_append, List.map_append, heqs, List.map_singleton, List.map_singleton, heq]
  obtain ⟨c, hblank, hdelimits, hc⟩ : ∃ c, CharClass.isBlank c = true ∧
      c ∈ [' ', '\n', '(', ')', ',', ';'] ∧ sep.toList = [c] := by
    rcases hsep with rfl | rfl
    · exact ⟨' ', by decide⟩
    · exact ⟨'\n', by decide⟩
  intro p rest hrest
  by_cases hne : ss = []
  · subst hne
    obtain ⟨vs, p', s', hvs, hs', heq⟩ := hs p rest hrest
    rw [List.nil_append, stmtTexts_eq_map, List.map_singleton, String.intercalate_singleton]
    exact ⟨vs, p', [s'], hvs, .moreDeclarations .noDeclarations hs', herase rfl heq⟩
  · have hshape : (sep.intercalate (Stmt.texts (ss ++ [s]))).toList ++ rest =
        (sep.intercalate (Stmt.texts ss)).toList ++ (c :: (s.text.toList ++ rest)) := by
      rw [stmtTexts_eq_map, stmtTexts_eq_map, List.map_append, List.map_singleton,
        intercalate_concat (by simpa using hne)]
      simp [hc]
    obtain ⟨us, p₁, ss', hus, hss', heqs⟩ := hss p (c :: (s.text.toList ++ rest))
      (delimited_cons hdelimits _)
    obtain ⟨vs, p₂, s', hvs, hs', heq⟩ := hs (p₁.advance c) rest hrest
    have hy := hus.append (.blank hblank hvs)
    rw [← hshape] at hy
    exact ⟨_, _, _, hy, .moreDeclarations hss' hs', herase heqs heq⟩

/-! ## Statements -/

/-- An expression statement is written as the expression with a semicolon. -/
theorem written_expression {b : Bool} {e : Expr} (he : Spelled e) :
    Written (.statement b false) (Stmt.expression e).text (.expression e) := by
  intro p rest hrest
  have htext : (Stmt.expression e).text = e.text ++ ";" := rfl
  have hshape : (Stmt.expression e).text.toList ++ rest = e.text.toList ++ (";".toList ++ rest) := by
    simp [htext]
  obtain ⟨us, p', e', hus, he', heq⟩ := he.expression p (";".toList ++ rest)
    (delimited_cons (by decide) _)
  have hy := hus.append (.fixed .semicolon rfl (fun _ _ => rfl) .nil)
  rw [← hshape] at hy
  exact ⟨_, _, _, hy, .expressionStatement he' rfl, congrArg Stmt.expression heq⟩

/-- A `print` statement is written with its keyword, the expression and a semicolon. -/
theorem written_print {b : Bool} {keyword : Token} {e : Expr} (hkeyword : keyword.Genuine)
    (hk : keyword.kind = .kwPrint) (he : Spelled e) :
    Written (.statement b false) (Stmt.print keyword e).text (.print keyword e) := by
  intro p rest hrest
  have hlexeme : keyword.lexeme = "print" := hkeyword.lexeme_eq (by rw [hk]; rfl)
  have htext : (Stmt.print keyword e).text = "print " ++ e.text ++ ";" := rfl
  have hshape : (Stmt.print keyword e).text.toList ++ rest =
      keyword.lexeme.toList ++ (' ' :: (e.text.toList ++ (";".toList ++ rest))) := by
    simp [htext, hlexeme]
  obtain ⟨us, p', e', hus, he', heq⟩ := he.expression ((p.past keyword.lexeme.toList).advance ' ')
    (";".toList ++ rest) (delimited_cons (by decide) _)
  have hy := Yields.again hkeyword (apart_space _ _) (Yields.space
    (hus.append (.fixed .semicolon rfl (fun _ _ => rfl) .nil)))
  rw [← hshape] at hy
  have hkeyword' : (keyword.movedTo p).kind = .kwPrint := hk
  exact ⟨_, _, _, hy, .print hkeyword' he' rfl, congrArg (Stmt.print keyword.erase) heq⟩

/-- A `return` is written with its keyword, its value, if any, and a semicolon. -/
theorem written_return {keyword : Token} {value : Option Expr} (hkeyword : keyword.Genuine)
    (hk : keyword.kind = .kwReturn) (hvalue : ∀ e, value = some e → Spelled e) :
    Written (.statement true false) (Stmt.return keyword value).text (.return keyword value) := by
  intro p rest hrest
  have hlexeme : keyword.lexeme = "return" := hkeyword.lexeme_eq (by rw [hk]; rfl)
  have hkeyword' : (keyword.movedTo p).kind = .kwReturn := hk
  cases value with
  | none =>
    have htext : (Stmt.return keyword none).text = "return;" := rfl
    have hshape : (Stmt.return keyword none).text.toList ++ rest =
        keyword.lexeme.toList ++ (";".toList ++ rest) := by
      simp [htext, hlexeme]
    have hapart : Apart keyword.kind (";".toList ++ rest) := (delimited_cons (by decide) _).apart _
    have hy := Yields.again hkeyword (p := p) hapart (.fixed .semicolon rfl (fun _ _ => rfl) .nil)
    rw [← hshape] at hy
    exact ⟨_, _, _, hy, .return hkeyword' .noClause rfl, rfl⟩
  | some e =>
    have htext : (Stmt.return keyword (some e)).text = "return " ++ e.text ++ ";" := rfl
    have hshape : (Stmt.return keyword (some e)).text.toList ++ rest =
        keyword.lexeme.toList ++ (' ' :: (e.text.toList ++ (";".toList ++ rest))) := by
      simp [htext, hlexeme]
    obtain ⟨us, p', e', hus, he', heq⟩ := (hvalue e rfl).expression
      ((p.past keyword.lexeme.toList).advance ' ') (";".toList ++ rest) (delimited_cons (by decide) _)
    have hy := Yields.again hkeyword (apart_space _ _) (Yields.space
      (hus.append (.fixed .semicolon rfl (fun _ _ => rfl) .nil)))
    rw [← hshape] at hy
    exact ⟨_, _, _, hy, .return hkeyword' (.someClause he') rfl,
      congrArg (fun e => Stmt.return keyword.erase (some e)) heq⟩

/-- The declaration of a variable is written with its name and its value, if any. -/
theorem written_var {b : Bool} {name : Token} {init : Option Expr} (hn : name.Genuine)
    (hk : name.kind = .identifier) (hinit : ∀ e, init = some e → Spelled e) :
    Written (.declaration b) (Stmt.var name init).text (.var name init) := by
  intro p rest hrest
  have hname (p : Position) : (name.movedTo p).kind = .identifier := hk
  cases init with
  | none =>
    have htext : (Stmt.var name none).text = "var " ++ name.lexeme ++ ";" := rfl
    have hshape : (Stmt.var name none).text.toList ++ rest =
        "var".toList ++ (' ' :: (name.lexeme.toList ++ (";".toList ++ rest))) := by
      simp [htext]
    have hapart : Apart name.kind (";".toList ++ rest) := (delimited_cons (by decide) _).apart _
    have hy := Yields.fixed .kwVar rfl (p := p) (apart_space _ _) (Yields.space
      (.again hn hapart (.fixed .semicolon rfl (fun _ _ => rfl) .nil)))
    rw [← hshape] at hy
    exact ⟨_, _, _, hy, .varDeclaration rfl (.bareVariable (hname _) rfl), rfl⟩
  | some e =>
    have htext : (Stmt.var name (some e)).text =
        "var " ++ name.lexeme ++ " = " ++ e.text ++ ";" := rfl
    have hshape : (Stmt.var name (some e)).text.toList ++ rest = "var".toList ++ (' ' ::
        (name.lexeme.toList ++ (' ' :: ("=".toList ++ (' ' ::
          (e.text.toList ++ (";".toList ++ rest))))))) := by
      simp [htext]
    obtain ⟨us, p', e', hus, he', heq⟩ := (hinit e rfl).expression
      ((((((p.past "var".toList).advance ' ').past name.lexeme.toList).advance ' ').past
        "=".toList).advance ' ') (";".toList ++ rest) (delimited_cons (by decide) _)
    have hy := Yields.fixed .kwVar rfl (apart_space _ _) (Yields.space
      (.again hn (apart_space _ _) (Yields.space
        (.fixed .assign rfl (apart_space _ _) (Yields.space
          (hus.append (.fixed .semicolon rfl (fun _ _ => rfl) .nil)))))))
    rw [← hshape] at hy
    exact ⟨_, _, _, hy, .varDeclaration rfl (.initializedVariable (hname _) rfl he' rfl),
      congrArg (fun e => Stmt.var name.erase (some e)) heq⟩

/-- A block is written with its declarations between braces. -/
theorem written_block {b : Bool} {ss : List Stmt}
    (hss : Written (.declarations b) (" ".intercalate (Stmt.texts ss)) ss) :
    Written (.statement b false) (Stmt.block ss).text (.block ss) := by
  intro p rest hrest
  have htext : (Stmt.block ss).text = "\x7b " ++ " ".intercalate (Stmt.texts ss) ++ " \x7d" := rfl
  have hshape : (Stmt.block ss).text.toList ++ rest = "\x7b".toList ++ (' ' ::
      ((" ".intercalate (Stmt.texts ss)).toList ++ (' ' :: ("\x7d".toList ++ rest)))) := by
    simp [htext]
  obtain ⟨us, p', ss', hus, hss', heqs⟩ := hss ((p.past "\x7b".toList).advance ' ')
    (' ' :: ("\x7d".toList ++ rest)) (delimited_cons (by decide) _)
  have hy := Yields.fixed .leftBrace rfl (fun _ _ => rfl) (Yields.space
    (hus.append (Yields.space (.fixed .rightBrace rfl (fun _ _ => rfl) .nil))))
  rw [← hshape] at hy
  exact ⟨_, _, _, hy, .block rfl hss' rfl, congrArg Stmt.block heqs⟩

/-- A conditional without an `else` is written with its condition in parentheses, and hangs. -/
theorem written_ifThen {b hanging : Bool} {e : Expr} {s : Stmt} (he : Spelled e)
    (hs : Written (.statement b hanging) s.text s) :
    Written (.statement b true) (Stmt.ifThen e s).text (.ifThen e s) := by
  intro p rest hrest
  have htext : (Stmt.ifThen e s).text = "if (" ++ e.text ++ ") " ++ s.text := rfl
  have hshape : (Stmt.ifThen e s).text.toList ++ rest = "if".toList ++ (' ' :: ("(".toList ++
      (e.text.toList ++ (")".toList ++ (' ' :: (s.text.toList ++ rest)))))) := by
    simp [htext]
  obtain ⟨us, p₁, e', hus, he', heq⟩ := he.expression
    (((p.past "if".toList).advance ' ').past "(".toList)
    (")".toList ++ (' ' :: (s.text.toList ++ rest))) (delimited_cons (by decide) _)
  obtain ⟨vs, p₂, s', hvs, hs', heqs⟩ := hs ((p₁.past ")".toList).advance ' ') rest hrest
  have hy := Yields.fixed .kwIf rfl (apart_space _ _) (Yields.space
    (.fixed .leftParen rfl (fun _ _ => rfl) (hus.append
      (.fixed .rightParen rfl (fun _ _ => rfl) (Yields.space hvs)))))
  rw [← hshape] at hy
  exact ⟨_, _, _, hy, .ifThen rfl rfl he' rfl hs', congrArg₂ Stmt.ifThen heq heqs⟩

/-- A `while` loop is written with its condition in parentheses, and hangs if its body does. -/
theorem written_while {b hanging : Bool} {e : Expr} {s : Stmt} (he : Spelled e)
    (hs : Written (.statement b hanging) s.text s) :
    Written (.statement b hanging) (Stmt.while e s).text (.while e s) := by
  intro p rest hrest
  have htext : (Stmt.while e s).text = "while (" ++ e.text ++ ") " ++ s.text := rfl
  have hshape : (Stmt.while e s).text.toList ++ rest = "while".toList ++ (' ' :: ("(".toList ++
      (e.text.toList ++ (")".toList ++ (' ' :: (s.text.toList ++ rest)))))) := by
    simp [htext]
  obtain ⟨us, p₁, e', hus, he', heq⟩ := he.expression
    (((p.past "while".toList).advance ' ').past "(".toList)
    (")".toList ++ (' ' :: (s.text.toList ++ rest))) (delimited_cons (by decide) _)
  obtain ⟨vs, p₂, s', hvs, hs', heqs⟩ := hs ((p₁.past ")".toList).advance ' ') rest hrest
  have hy := Yields.fixed .kwWhile rfl (apart_space _ _) (Yields.space
    (.fixed .leftParen rfl (fun _ _ => rfl) (hus.append
      (.fixed .rightParen rfl (fun _ _ => rfl) (Yields.space hvs)))))
  rw [← hshape] at hy
  exact ⟨_, _, _, hy, .while rfl rfl he' rfl hs', congrArg₂ Stmt.while heq heqs⟩

/-- The statement before the `else` is not one that would take the `else` for itself. -/
theorem written_ifElse {b hanging : Bool} {e : Expr} {s t : Stmt} (he : Spelled e)
    (hs : Written (.statement b false) s.text s) (ht : Written (.statement b hanging) t.text t) :
    Written (.statement b hanging) (Stmt.ifElse e s t).text (.ifElse e s t) := by
  intro p rest hrest
  have htext : (Stmt.ifElse e s t).text =
      "if (" ++ e.text ++ ") " ++ s.text ++ " else " ++ t.text := rfl
  have hshape : (Stmt.ifElse e s t).text.toList ++ rest = "if".toList ++ (' ' :: ("(".toList ++
      (e.text.toList ++ (")".toList ++ (' ' :: (s.text.toList ++ (' ' :: ("else".toList ++
        (' ' :: (t.text.toList ++ rest)))))))))) := by
    simp [htext]
  obtain ⟨us, p₁, e', hus, he', heq⟩ := he.expression
    (((p.past "if".toList).advance ' ').past "(".toList)
    (")".toList ++ (' ' :: (s.text.toList ++ (' ' :: ("else".toList ++
      (' ' :: (t.text.toList ++ rest))))))) (delimited_cons (by decide) _)
  obtain ⟨vs, p₂, s', hvs, hs', heqs⟩ := hs ((p₁.past ")".toList).advance ' ')
    (' ' :: ("else".toList ++ (' ' :: (t.text.toList ++ rest)))) (delimited_cons (by decide) _)
  obtain ⟨ws, p₃, t', hws, ht', heqt⟩ := ht (((p₂.advance ' ').past "else".toList).advance ' ') rest
    hrest
  have hy := Yields.fixed .kwIf rfl (apart_space _ _) (Yields.space
    (.fixed .leftParen rfl (fun _ _ => rfl) (hus.append
      (.fixed .rightParen rfl (fun _ _ => rfl) (Yields.space (hvs.append (Yields.space
        (.fixed .kwElse rfl (apart_space _ _) (Yields.space hws)))))))))
  rw [← hshape] at hy
  have hderives : Derives (.statement b hanging) (made .kwIf p "if".toList ::
      made .leftParen ((p.past "if".toList).advance ' ') "(".toList :: us ++
        made .rightParen p₁ ")".toList :: vs ++ made .kwElse (p₂.advance ' ') "else".toList :: ws)
      (.ifElse e' s' t') [] :=
    .ifElse rfl rfl he' rfl hs' rfl ht'
  rw [List.append_assoc] at hderives
  refine ⟨_, _, _, hy, hderives, ?_⟩
  show Stmt.ifElse (Symbol.expression.erase e') (Symbol.erase (.statement b false) s')
    (Symbol.erase (.statement b hanging) t') = _
  rw [heq, heqs, heqt]
  rfl

/-- The declaration of a function is written with its name, its parameters and its body. -/
theorem written_function {b : Bool} {name : Token} {params : List Token} {body : List Stmt}
    (hn : name.Genuine) (hk : name.kind = .identifier)
    (hparams : Written .parameterList (", ".intercalate (params.map Token.lexeme)) params)
    (hbody : Written (.declarations true) (" ".intercalate (Stmt.texts body)) body) :
    Written (.declaration b) (Stmt.function name params body).text (.function name params body) := by
  intro p rest hrest
  have htext : (Stmt.function name params body).text = "fun " ++ name.lexeme ++ "(" ++
      ", ".intercalate (params.map Token.lexeme) ++ ") \x7b " ++ " ".intercalate (Stmt.texts body) ++
      " \x7d" := rfl
  have hshape : (Stmt.function name params body).text.toList ++ rest = "fun".toList ++ (' ' ::
      (name.lexeme.toList ++ ("(".toList ++ ((", ".intercalate (params.map Token.lexeme)).toList ++
        (")".toList ++ (' ' :: ("\x7b".toList ++ (' ' ::
          ((" ".intercalate (Stmt.texts body)).toList ++ (' ' ::
            ("\x7d".toList ++ rest))))))))))) := by
    simp [htext]
  have hapart : Apart name.kind ("(".toList ++ ((", ".intercalate (params.map Token.lexeme)).toList ++
      (")".toList ++ (' ' :: ("\x7b".toList ++ (' ' ::
        ((" ".intercalate (Stmt.texts body)).toList ++ (' ' :: ("\x7d".toList ++ rest))))))))) :=
    (delimited_cons (by decide) _).apart _
  obtain ⟨us, p₁, params', hus, hparams', heqs⟩ := hparams
    ((((p.past "fun".toList).advance ' ').past name.lexeme.toList).past "(".toList)
    (")".toList ++ (' ' :: ("\x7b".toList ++ (' ' ::
      ((" ".intercalate (Stmt.texts body)).toList ++ (' ' :: ("\x7d".toList ++ rest)))))))
    (delimited_cons (by decide) _)
  obtain ⟨vs, p₂, body', hvs, hbody', heqb⟩ := hbody
    ((((p₁.past ")".toList).advance ' ').past "\x7b".toList).advance ' ')
    (' ' :: ("\x7d".toList ++ rest)) (delimited_cons (by decide) _)
  have hy := Yields.fixed .kwFun rfl (apart_space _ _) (Yields.space (.again hn hapart
    (.fixed .leftParen rfl (fun _ _ => rfl) (hus.append
      (.fixed .rightParen rfl (fun _ _ => rfl) (Yields.space
        (.fixed .leftBrace rfl (fun _ _ => rfl) (Yields.space (hvs.append (Yields.space
          (.fixed .rightBrace rfl (fun _ _ => rfl) .nil)))))))))))
  rw [← hshape] at hy
  have hname (p : Position) : (name.movedTo p).kind = .identifier := hk
  have hderives : Derives (.declaration b) (made .kwFun p "fun".toList ::
      name.movedTo ((p.past "fun".toList).advance ' ') ::
      made .leftParen (((p.past "fun".toList).advance ' ').past name.lexeme.toList) "(".toList ::
      us ++ made .rightParen p₁ ")".toList ::
        made .leftBrace ((p₁.past ")".toList).advance ' ') "\x7b".toList :: vs ++
      [made .rightBrace (p₂.advance ' ') "\x7d".toList]) (.function _ params' body') [] :=
    .function rfl (hname _) rfl hparams' rfl rfl hbody' rfl
  rw [List.append_assoc] at hderives
  exact ⟨_, _, _, hy, hderives, congrArg₂ (Stmt.function name.erase) heqs heqb⟩

/-- A statement is a declaration. -/
theorem Written.declaration {b hanging : Bool} {s : Stmt}
    (h : Written (.statement b hanging) s.text s) : Written (.declaration b) s.text s := by
  intro p rest hrest
  obtain ⟨us, p', s', hus, hs', heq⟩ := h p rest hrest
  exact ⟨us, p', s', hus, .statementDeclaration hs', heq⟩

/-- A loop in a block, with what comes before it if there is something. -/
theorem written_loop {b : Bool} {init : Option Stmt} {loop : Stmt}
    (hinit : ∀ s, init = some s → Written (.declaration b) s.text s)
    (hloop : Written (.declaration b) loop.text loop) :
    Written (.statement b false) (Stmt.block (init.toList ++ [loop])).text
      (.block (init.toList ++ [loop])) := by
  have hempty := written_noDeclarations (b := b) " "
  cases init with
  | none => exact written_block (written_moreDeclarations (.inl rfl) hempty hloop)
  | some first =>
    have hfirst := written_moreDeclarations (.inl rfl) hempty (hinit first rfl)
    exact written_block (written_moreDeclarations (.inl rfl) hfirst hloop)

/-- A `for` loop is written as the loop that it stands for. -/
theorem written_forLoop {b hanging : Bool} {init : Option Stmt} {condition : Expr}
    {increment : Option Expr} {s : Stmt}
    (hinit : ∀ s, init = some s → Written (.declaration b) s.text s) (hcondition : Spelled condition)
    (hincrement : ∀ e, increment = some e → Spelled e)
    (hs : Written (.statement b hanging) s.text s) :
    Written (.statement b false) (forLoop init condition increment s).text
      (forLoop init condition increment s) := by
  cases increment with
  | none => exact written_loop hinit (written_while hcondition hs).declaration
  | some e =>
    have hempty := written_noDeclarations (b := b) " "
    have hbody := written_moreDeclarations (.inl rfl)
      (written_moreDeclarations (.inl rfl) hempty hs.declaration)
      (written_expression (hincrement e rfl)).declaration
    exact written_loop hinit (written_while hcondition (written_block hbody)).declaration

/-! ## Every derivation -/

/-- What is known of the text of a tree, depending on what kind of phrase it is. -/
def Symbol.Spelled : (x : Symbol) → x.Tree → Prop
  | declarations b => fun ss => ∀ sep, sep = " " ∨ sep = "\n" →
      Written (.declarations b) (sep.intercalate (Stmt.texts ss)) ss
  | declaration b => fun s => Written (.declaration b) s.text s
  | .variable => fun s => ∀ b, Written (.declaration b) s.text s
  | parameterList => fun params =>
      Written .parameterList (", ".intercalate (params.map Token.lexeme)) params
  | parameters => fun params =>
      Written .parameters (", ".intercalate (params.map Token.lexeme)) params ∧ params ≠ []
  | statement b hanging => fun s =>
      ∃ hanging', (hanging = false → hanging' = false) ∧ Written (.statement b hanging') s.text s
  | initializer => fun init => ∀ s, init = some s → ∀ b, Written (.declaration b) s.text s
  | clause => fun e => ∀ e', e = some e' → Grammar.Spelled e'
  | argumentList => fun args => Written .argumentList (", ".intercalate (Expr.texts args)) args
  | arguments => fun args =>
      Written .arguments (", ".intercalate (Expr.texts args)) args ∧ args ≠ []
  | expression => Grammar.Spelled
  | operation _ => Grammar.Spelled
  | operand _ => Grammar.Spelled
  | unary => Grammar.Spelled
  | call => Grammar.Spelled
  | primary => Grammar.Spelled

/-- Where no entry is complained about, there are fewer than the limit before it. -/
theorem lt_of_overLimit {before : Nat} {t : Token} {complaint : Complaint}
    (h : overLimit before t complaint = []) : before < maxArguments := by
  unfold overLimit at h
  split at h
  · cases h
  · omega

/-- A condition that was left out is written as one that holds. -/
theorem spelled_condition {condition : Option Expr} (h : ∀ e, condition = some e → Spelled e) :
    Spelled (condition.getD (.literal (.boolean true))) := by
  cases condition with
  | some e => exact h e rfl
  | none =>
    have hgenuine : (made .kwTrue .start "true".toList).Genuine := genuine_made (isLexeme_spelling rfl) _
    exact spelled_lexeme hgenuine rfl rfl

/-- **The text of a tree that was read can be read again.** -/
theorem Derives.spelled {x : Symbol} {us : List Token} {r : x.Tree} {ds : List Diagnostic}
    (h : Derives x us r ds) (hds : ds = []) (hus : ∀ t ∈ us, t.Readable) : x.Spelled r := by
  induction h with
  | noDeclarations => exact fun sep _ => written_noDeclarations sep
  | moreDeclarations _ _ ihss ihs =>
    obtain ⟨hds, hes⟩ := List.append_eq_nil_iff.1 hds
    obtain ⟨hus, hvs⟩ := List.forall_mem_append.1 hus
    exact fun sep hsep => written_moreDeclarations hsep (ihss hds hus sep hsep) (ihs hes hvs)
  | function hkeyword hname hopening _ hclosing hbrace _ hending ihparams ihbody =>
    obtain ⟨hds, hes⟩ := List.append_eq_nil_iff.1 hds
    simp only [List.forall_mem_append, List.forall_mem_cons] at hus
    exact written_function hus.1.1.2.1.genuine hname (ihparams hds hus.1.1.2.2.2)
      (ihbody hes hus.1.2.2.2 " " (.inl rfl))
  | varDeclaration _ _ ih => exact ih hds (List.forall_mem_cons.1 hus).2 _
  | statementDeclaration _ ih =>
    obtain ⟨_, -, hs⟩ := ih hds hus
    exact hs.declaration
  | bareVariable hname =>
    exact fun b => written_var (hus _ (by simp)).genuine hname fun e => nofun
  | initializedVariable hname hequals _ hending ih =>
    simp only [List.forall_mem_append, List.forall_mem_cons] at hus
    refine fun b => written_var hus.1.1.genuine hname ?_
    rintro _ ⟨⟩
    exact ih hds hus.1.2.2
  | noParameters => exact fun _ _ _ => ⟨[], _, [], .nil, .noParameters, rfl⟩
  | someParameters _ ih =>
    intro p rest hrest
    obtain ⟨vs, p', params', hvs, hparams', heqs⟩ := (ih hds hus).1 p rest hrest
    exact ⟨vs, p', params', hvs, .someParameters hparams', heqs⟩
  | firstParameter hname =>
    exact ⟨written_firstParameter (hus _ (by simp)).genuine hname, List.cons_ne_nil _ _⟩
  | moreParameters _ hcomma hname ih =>
    obtain ⟨hds, hlimit⟩ := List.append_eq_nil_iff.1 hds
    obtain ⟨hus, hvs⟩ := List.forall_mem_append.1 hus
    obtain ⟨hparams, hne⟩ := ih hds hus
    exact ⟨written_moreParameters hparams hne (lt_of_overLimit hlimit) (hvs _ (by simp)).genuine hname,
      List.append_ne_nil_of_left_ne_nil hne _⟩
  | print hkeyword _ hending ih =>
    simp only [List.forall_mem_append, List.forall_mem_cons] at hus
    exact ⟨false, fun _ => rfl, written_print hus.1.1.genuine hkeyword (ih hds hus.1.2)⟩
  | ifThen hkeyword hopening _ hclosing _ ihe ihs =>
    obtain ⟨hds, hes⟩ := List.append_eq_nil_iff.1 hds
    simp only [List.forall_mem_append, List.forall_mem_cons] at hus
    obtain ⟨_, -, hs⟩ := ihs hes hus.2.2
    exact ⟨true, nofun, written_ifThen (ihe hds hus.1.2.2) hs⟩
  | ifElse hkeyword hopening _ hclosing _ hother _ ihe ihs iht =>
    simp only [List.append_eq_nil_iff] at hds
    simp only [List.forall_mem_append, List.forall_mem_cons] at hus
    obtain ⟨_, hclosed, hs⟩ := ihs hds.1.2 hus.1.2.2
    obtain ⟨hanging', himp, ht⟩ := iht hds.2 hus.2.2
    obtain rfl := hclosed rfl
    exact ⟨hanging', himp, written_ifElse (ihe hds.1.1 hus.1.1.2.2) hs ht⟩
  | «while» hkeyword hopening _ hclosing _ ihe ihs =>
    obtain ⟨hds, hes⟩ := List.append_eq_nil_iff.1 hds
    simp only [List.forall_mem_append, List.forall_mem_cons] at hus
    obtain ⟨hanging', himp, hs⟩ := ihs hes hus.2.2
    exact ⟨hanging', himp, written_while (ihe hds hus.1.2.2) hs⟩
  | «for» hkeyword hopening _ _ hmiddle _ hclosing _ ihinit ihcondition ihincrement ihs =>
    simp only [List.append_eq_nil_iff] at hds
    simp only [List.forall_mem_append, List.forall_mem_cons] at hus
    obtain ⟨_, -, hs⟩ := ihs hds.2 hus.2.2
    exact ⟨false, fun _ => rfl, written_forLoop (fun s hs => ihinit hds.1.1.1 hus.1.1.1.2.2 s hs _)
      (spelled_condition (ihcondition hds.1.1.2 hus.1.1.2)) (ihincrement hds.1.2 hus.1.2.2) hs⟩
  | @«return» b _ _ _ _ _ hkeyword _ hending ih =>
    obtain ⟨hstray, hds⟩ := List.append_eq_nil_iff.1 hds
    simp only [List.forall_mem_append, List.forall_mem_cons] at hus
    cases b with
    | false => cases hstray
    | true => exact ⟨false, fun _ => rfl, written_return hus.1.1.genuine hkeyword (ih hds hus.1.2)⟩
  | block hopening _ hclosing ih =>
    simp only [List.forall_mem_append, List.forall_mem_cons] at hus
    exact ⟨false, fun _ => rfl, written_block (ih hds hus.1.2 " " (.inl rfl))⟩
  | expressionStatement _ hending ih =>
    exact ⟨false, fun _ => rfl, written_expression (ih hds (List.forall_mem_append.1 hus).1)⟩
  | noInitializer => exact fun s => nofun
  | varInitializer _ _ ih =>
    rintro _ ⟨⟩
    exact ih hds (List.forall_mem_cons.1 hus).2
  | expressionInitializer _ hending ih =>
    rintro _ ⟨⟩ b
    exact (written_expression (ih hds (List.forall_mem_append.1 hus).1)).declaration
  | noClause => exact fun e => nofun
  | someClause _ ih =>
    rintro _ ⟨⟩
    exact ih hds hus
  | noAssignment _ ih | noOperation _ ih | tighterOperand _ _ ih | unaryOperand _ _ ih | noUnary _ ih
  | noCall _ ih => exact ih hds hus
  | assignment _ hequals _ iht ihv =>
    simp only [List.append_eq_nil_iff] at hds
    simp only [List.forall_mem_append, List.forall_mem_cons] at hus
    obtain ⟨name, rfl⟩ := exists_variable_of_badTarget hds.2
    obtain ⟨hname, hkind⟩ := (iht hds.1.1 hus.1).name name rfl
    exact spelled_assign hname hkind (ihv hds.1.2 hus.2.2)
  | moreOperations hrung _ hoperator _ ihl ihr =>
    obtain ⟨rfl, rfl⟩ := rung_mem_iff.1 hrung
    obtain ⟨hds, hes⟩ := List.append_eq_nil_iff.1 hds
    simp only [List.forall_mem_append, List.forall_mem_cons] at hus
    exact spelled_join _ (ihl hds hus.1) hus.2.1.genuine hoperator (ihr hes hus.2.2)
  | unary hoperator _ ih =>
    obtain ⟨hop, hus⟩ := List.forall_mem_cons.1 hus
    exact spelled_unary hop.genuine hoperator (ih hds hus)
  | call _ hopening _ hclosing ihc ihargs =>
    obtain ⟨hds, hes⟩ := List.append_eq_nil_iff.1 hds
    simp only [List.forall_mem_append, List.forall_mem_cons] at hus
    exact spelled_call (ihc hds hus.1.1) hus.2.1.genuine hclosing (ihargs hes hus.1.2.2)
  | noArguments => exact fun _ _ _ => ⟨[], _, [], .nil, .noArguments, rfl⟩
  | someArguments _ ih =>
    intro p rest hrest
    obtain ⟨vs, p', args', hvs, hargs', heqs⟩ := (ih hds hus).1 p rest hrest
    exact ⟨vs, p', args', hvs, .someArguments hargs', heqs⟩
  | firstArgument _ ih => exact ⟨written_firstArgument (ih hds hus), List.cons_ne_nil _ _⟩
  | moreArguments _ hcomma _ ihargs ihe =>
    simp only [List.append_eq_nil_iff] at hds
    obtain ⟨hus, hvs⟩ := List.forall_mem_append.1 hus
    obtain ⟨hargs, hne⟩ := ihargs hds.1.1 hus
    exact ⟨written_moreArguments hargs hne (lt_of_overLimit hds.1.2)
      (ihe hds.2 (List.forall_mem_cons.1 hvs).2), List.append_ne_nil_of_left_ne_nil hne _⟩
  | constant h => exact spelled_constant (hus _ (by simp)) h
  | name h => exact spelled_variable (hus _ (by simp)).genuine h
  | grouping hopening _ hclosing ih =>
    simp only [List.forall_mem_append, List.forall_mem_cons] at hus
    exact spelled_grouping (ih hds hus.1.2)

end Grammar

end Treewalk
