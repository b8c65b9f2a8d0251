import Treewalk.Proofs.Token.Lexeme
import Treewalk.Proofs.Tree.Erase
import Treewalk.Proofs.Tree.Places
import Treewalk.Proofs.Tree.Relabel

/-!
# Trees as forms

A `Form` is a token or a list of forms. Every expression and every statement has a form, which is what its
outline shows: the parts of the tree are parts of the form, behind the tokens that tell what kind of tree it is.
A form has tokens without their places.

A tree can be read back from its form but for the places of its tokens (`Expr.expr_form`, `Stmt.stmt_form`).
It is asked for that its tokens fit where they stand (`Expr.Fits`, `Stmt.Fits`), since what a list begins with
can be an operator of the tree, and then this decides what kind of tree it is.
-/

namespace Treewalk

/-- A tree of tokens, which is written with parentheses. -/
inductive Form where
  | atom (t : Token)
  | list (forms : List Form)

namespace Token

/-- A token of a kind with a given text, without a place. -/
def glyph (kind : Kind) (text : String) : Token :=
  ⟨kind, text, literalOf kind text.toList, .start, .start⟩

/-- Without its place, a token that is made is a glyph. -/
theorem erase_made (kind : Kind) (p : Position) (cs : List Char) :
    (made kind p cs).erase = glyph kind (String.ofList cs) := by
  simp [made, erase, glyph]

/-- Without its place, a genuine token is the glyph of its kind and lexeme. -/
theorem Genuine.erase_eq {t : Token} (h : t.Genuine) : t.erase = glyph t.kind t.lexeme := by
  simp [erase, glyph, h.literal_eq]

/-- The token is a lexeme of one of some kinds. -/
def Fits (kinds : List Kind) (t : Token) : Prop :=
  t.kind ∈ kinds ∧ t.Genuine

end Token

open Token

/-- The token of a constant, without a place. -/
def Constant.token : Constant → Token
  | .nil => .glyph .kwNil "nil"
  | .boolean true => .glyph .kwTrue "true"
  | .boolean false => .glyph .kwFalse "false"
  | .number value => ⟨.number, Number.valueStyle.text value, some (.number value), .start, .start⟩
  | .string value => ⟨.string, "\"" ++ value ++ "\"", some (.string value), .start, .start⟩

/-- The token denotes the constant. -/
theorem Constant.constant?_token : (c : Constant) → c.token.constant? = some c
  | .nil | .boolean true | .boolean false | .number _ | .string _ => rfl

/-! ## The form of a tree -/

namespace Form

/-- A token of a kind with a given text. -/
def glyph (kind : Kind) (text : String) : Form :=
  .atom (Token.glyph kind text)

/-- A token of a tree, without its place. -/
def ofToken (t : Token) : Form :=
  .atom t.erase

/-- The token of an atom. A list has none but its parenthesis. -/
def token : Form → Token
  | .atom t => t
  | .list _ => Token.glyph .leftParen "("

/-- The tokens of a list of atoms. -/
def tokens : Form → List Token
  | .atom _ => []
  | .list forms => forms.map token

end Form

open Form (ofToken)

mutual

/-- The form of an expression. -/
def Expr.form : Expr → Form
  | .literal value => .atom value.token
  | .grouping inner => .list [.glyph .identifier "group", inner.form]
  | .unary operator right => .list [ofToken operator, right.form]
  | .binary left operator right => .list [ofToken operator, left.form, right.form]
  | .logical left operator right => .list [ofToken operator, left.form, right.form]
  | .variable name => ofToken name
  | .assign name value => .list [.glyph .assign "=", ofToken name, value.form]
  | .call callee _ args => .list (.glyph .identifier "call" :: callee.form :: Expr.forms args)

/-- The forms of some expressions. -/
def Expr.forms : List Expr → List Form
  | [] => []
  | e :: es => e.form :: Expr.forms es

end

mutual

/-- The form of a statement. -/
def Stmt.form : Stmt → Form
  | .expression e => .list [.glyph .semicolon ";", e.form]
  | .print _ e => .list [.glyph .kwPrint "print", e.form]
  | .var name init => .list (.glyph .kwVar "var" :: ofToken name :: init.toList.map Expr.form)
  | .return _ value => .list (.glyph .kwReturn "return" :: value.toList.map Expr.form)
  | .block body => .list (.glyph .identifier "block" :: Stmt.forms body)
  | .ifThen condition consequent => .list [.glyph .kwIf "if", condition.form, consequent.form]
  | .ifElse condition consequent alternative =>
    .list [.glyph .kwIf "if", .glyph .minus "-", .glyph .kwElse "else", condition.form, consequent.form,
      alternative.form]
  | .while condition body => .list [.glyph .kwWhile "while", condition.form, body.form]
  | .function name params body =>
    .list (.glyph .kwFun "fun" :: ofToken name :: .list (params.map ofToken) :: Stmt.forms body)

/-- The forms of some statements. -/
def Stmt.forms : List Stmt → List Form
  | [] => []
  | s :: ss => s.form :: Stmt.forms ss

end

/-! ## Tokens that fit -/

/-- The tokens at the places of an expression fit there. -/
def Expr.Fits (e : Expr) : Prop :=
  ∀ q ∈ e.places, q.2.Fits q.1

/-- The tokens at the places of a statement fit there. -/
def Stmt.Fits (s : Stmt) : Prop :=
  ∀ q ∈ s.places, q.2.Fits q.1

/-- In an expression whose tokens fit, the tokens of the parts fit. -/
theorem Expr.Fits.part {e part : Expr} (h : e.Fits) (hpart : part ∈ e.parts) : part.Fits :=
  fun q hq => h q (Expr.mem_places_of_part hpart hq)

/-- In a statement whose tokens fit, the tokens of its expressions fit. -/
theorem Stmt.Fits.expr {s : Stmt} {e : Expr} (h : s.Fits) (he : e ∈ s.exprs) : e.Fits :=
  fun q hq => h q (Stmt.mem_places_of_expr he hq)

/-- In a statement whose tokens fit, the tokens of the statements in it fit. -/
theorem Stmt.Fits.part {s part : Stmt} (h : s.Fits) (hpart : part ∈ s.parts) : part.Fits :=
  fun q hq => h q (Stmt.mem_places_of_part hpart hq)

/-- A token of a kind with only one text is known from its kind. -/
theorem Token.Fits.erase_eq {kind : Kind} {text : String} {t : Token} (h : t.Fits [kind])
    (htext : kind.spelling? = some text) : t.erase = Token.glyph kind text := by
  obtain rfl : t.kind = kind := by simpa using h.1
  rw [h.2.erase_eq, h.2.lexeme_eq htext]

/-! ## Reading an expression -/

/-- The expression that an operator or a word makes of its operands. -/
def Expr.assemble (sign : Token) (operands : List Expr) : Expr :=
  match sign.kind, operands with
  | .identifier, e :: es =>
    if sign.lexeme = "group" then .grouping e else .call e (Token.glyph .rightParen ")") es
  | .assign, [.variable name, value] => .assign name value
  | .kwAnd, [left, right] | .kwOr, [left, right] => .logical left sign right
  | _, [right] => .unary sign right
  | _, [left, right] => .binary left sign right
  | _, _ => .variable sign

mutual

/-- The expression of a form. -/
def Form.expr : Form → Expr
  | .atom t => (t.constant?.map Expr.literal).getD (.variable t)
  | .list [] => .variable (Token.glyph .leftParen "(")
  | .list (f :: fs) => Expr.assemble f.token (Form.exprs fs)

/-- The expressions of some forms. -/
def Form.exprs : List Form → List Expr
  | [] => []
  | f :: fs => f.expr :: Form.exprs fs

end

section Assemble

variable {sign : Token} (e e' : Expr)

/-- A sign that is a unary operator, with one operand, makes a unary expression. -/
theorem Expr.assemble_unary (h : sign.kind ∈ Kind.unaryOperators) :
    Expr.assemble sign [e] = .unary sign e := by
  simp only [Kind.unaryOperators, List.mem_cons, List.not_mem_nil, or_false] at h
  rcases h with h | h <;> simp [Expr.assemble, h]

/-- A sign that is a binary operator, with two operands, makes a binary expression. -/
theorem Expr.assemble_binary (h : sign.kind ∈ Kind.binaryOperators) :
    Expr.assemble sign [e, e'] = .binary e sign e' := by
  simp only [Kind.binaryOperators, List.mem_cons, List.not_mem_nil, or_false] at h
  rcases h with h | h | h | h | h | h | h | h | h | h <;> simp [Expr.assemble, h]

/-- A sign that is a logical operator, with two operands, makes a logical expression. -/
theorem Expr.assemble_logical (h : sign.kind ∈ Kind.logicalOperators) :
    Expr.assemble sign [e, e'] = .logical e sign e' := by
  simp only [Kind.logicalOperators, List.mem_cons, List.not_mem_nil, or_false] at h
  rcases h with h | h <;> simp [Expr.assemble, h]

end Assemble

/-- The form of a name is read as a variable. -/
theorem Form.expr_ofToken {name : Token} (h : name.Fits [.identifier]) :
    (ofToken name).expr = .variable name.erase := by
  have hkind : name.kind = .identifier := by simpa using h.1
  simp [ofToken, Form.expr, Token.constant?, Token.erase, hkind]

mutual

/-- **An expression is read back from its form**, but for the places of its tokens. -/
theorem Expr.expr_form : (e : Expr) → e.Fits → e.form.expr = e.relabel Token.erase
  | .literal c, _ => by simp [Expr.form, Form.expr, c.constant?_token, Expr.relabel]
  | .grouping e, h => by
    have he := Expr.expr_form e (h.part List.mem_cons_self)
    simp only [Expr.form, Form.expr, Form.exprs, he]
    rfl
  | .unary operator e, h => by
    have hoperator : operator.Fits Kind.unaryOperators := h _ List.mem_cons_self
    have he := Expr.expr_form e (h.part List.mem_cons_self)
    simp only [Expr.form, Form.expr, Form.exprs, he]
    exact Expr.assemble_unary _ hoperator.1
  | .binary e operator e', h => by
    have hoperator : operator.Fits Kind.binaryOperators :=
      h _ (List.mem_append_right _ List.mem_cons_self)
    have he := Expr.expr_form e (h.part List.mem_cons_self)
    have he' := Expr.expr_form e' (h.part (by simp [Expr.parts]))
    simp only [Expr.form, Form.expr, Form.exprs, he, he']
    exact Expr.assemble_binary _ _ hoperator.1
  | .logical e operator e', h => by
    have hoperator : operator.Fits Kind.logicalOperators :=
      h _ (List.mem_append_right _ List.mem_cons_self)
    have he := Expr.expr_form e (h.part List.mem_cons_self)
    have he' := Expr.expr_form e' (h.part (by simp [Expr.parts]))
    simp only [Expr.form, Form.expr, Form.exprs, he, he']
    exact Expr.assemble_logical _ _ hoperator.1
  | .variable name, h => Form.expr_ofToken (h _ List.mem_cons_self)
  | .assign name e, h => by
    have hname := Form.expr_ofToken (h _ List.mem_cons_self)
    have he := Expr.expr_form e (h.part List.mem_cons_self)
    simp only [Expr.form, Form.expr, Form.exprs, hname, he]
    rfl
  | .call callee paren args, h => by
    have hparen : paren.Fits [.rightParen] := h (_, paren) (by simp [Expr.places])
    have hcallee := Expr.expr_form callee (h.part List.mem_cons_self)
    have hargs := Expr.exprs_forms args fun e he => h.part (List.mem_cons_of_mem _ he)
    simp only [Expr.form, Form.expr, Form.exprs, hcallee, hargs, Expr.relabel, hparen.erase_eq rfl]
    rfl

/-- Expressions are read back from their forms, one by one. -/
theorem Expr.exprs_forms :
    (es : List Expr) → (∀ e ∈ es, e.Fits) → Form.exprs (Expr.forms es) = Expr.relabelAll Token.erase es
  | [], _ => rfl
  | e :: es, h => by
    obtain ⟨he, hes⟩ := List.forall_mem_cons.1 h
    simp only [Expr.forms, Form.exprs, Expr.relabelAll, Expr.expr_form e he, Expr.exprs_forms es hes]

end

/-! ## Reading a statement -/

/-- The statement that a word makes of what stands behind it, which is read as statements too. -/
def Stmt.assemble (sign : Token) (operands : List Form) (statements : List Stmt) : Stmt :=
  match sign.kind, operands, statements with
  | .semicolon, [e], _ => .expression e.expr
  | .kwPrint, [e], _ => .print (Token.glyph .kwPrint "print") e.expr
  | .kwVar, name :: init, _ => .var name.token (init.head?.map Form.expr)
  | .kwReturn, value, _ => .return (Token.glyph .kwReturn "return") (value.head?.map Form.expr)
  | .kwIf, [condition, _], [_, consequent] => .ifThen condition.expr consequent
  | .kwIf, [_, _, condition, _, _], [_, _, _, consequent, alternative] =>
    .ifElse condition.expr consequent alternative
  | .kwWhile, [condition, _], [_, body] => .while condition.expr body
  | .kwFun, name :: params :: _, _ :: _ :: body => .function name.token params.tokens body
  | _, _, body => .block body

mutual

/-- The statement of a form. -/
def Form.stmt : Form → Stmt
  | .atom _ => .block []
  | .list [] => .block []
  | .list (f :: fs) => Stmt.assemble f.token fs (Form.stmts fs)

/-- The statements of some forms. -/
def Form.stmts : List Form → List Stmt
  | [] => []
  | f :: fs => f.stmt :: Form.stmts fs

end

/-- An expression that may be missing is read back from the forms that it may have. -/
theorem Form.expr_head? {o : Option Expr} (h : ∀ e ∈ o.toList, e.Fits) :
    (o.toList.map Expr.form).head?.map Form.expr = o.map (Expr.relabel Token.erase) := by
  cases o with
  | none => rfl
  | some e => exact congrArg some (e.expr_form (h e List.mem_cons_self))

mutual

/-- **A statement is read back from its form**, but for the places of its tokens. -/
theorem Stmt.stmt_form : (s : Stmt) → s.Fits → s.form.stmt = s.relabel Token.erase
  | .expression e, h => by
    have he := e.expr_form (h.expr List.mem_cons_self)
    simp only [Stmt.form, Form.stmt, Stmt.relabel, ← he]
    rfl
  | .print keyword e, h => by
    have hkeyword : keyword.Fits [.kwPrint] := h _ List.mem_cons_self
    have he := e.expr_form (h.expr List.mem_cons_self)
    simp only [Stmt.form, Form.stmt, Stmt.relabel, ← he, hkeyword.erase_eq rfl]
    rfl
  | .var name init, h => by
    have hinit := Form.expr_head? fun e he => Stmt.Fits.expr (s := .var name init) h he
    simp only [Stmt.form, Form.stmt, Stmt.relabel, ← hinit]
    rfl
  | .return keyword value, h => by
    have hkeyword : keyword.Fits [.kwReturn] := h _ List.mem_cons_self
    have hvalue := Form.expr_head? fun e he => Stmt.Fits.expr (s := .return keyword value) h he
    simp only [Stmt.form, Form.stmt, Stmt.relabel, ← hvalue, hkeyword.erase_eq rfl]
    rfl
  | .block body, h => by
    have hbody := Stmt.stmts_forms body fun s hs => h.part hs
    simp only [Stmt.form, Form.stmt, Stmt.relabel, hbody]
    rfl
  | .ifThen condition consequent, h => by
    have hcondition := condition.expr_form (h.expr List.mem_cons_self)
    have hconsequent := Stmt.stmt_form consequent (h.part List.mem_cons_self)
    simp only [Stmt.form, Form.stmt, Form.stmts, Stmt.relabel, ← hcondition, hconsequent]
    rfl
  | .ifElse condition consequent alternative, h => by
    have hcondition := condition.expr_form (h.expr List.mem_cons_self)
    have hconsequent := Stmt.stmt_form consequent (h.part List.mem_cons_self)
    have halternative := Stmt.stmt_form alternative (h.part (by simp [Stmt.parts]))
    simp only [Stmt.form, Form.stmt, Form.stmts, Stmt.relabel, ← hcondition, hconsequent, halternative]
    rfl
  | .while condition body, h => by
    have hcondition := condition.expr_form (h.expr List.mem_cons_self)
    have hbody := Stmt.stmt_form body (h.part List.mem_cons_self)
    simp only [Stmt.form, Form.stmt, Form.stmts, Stmt.relabel, ← hcondition, hbody]
    rfl
  | .function name params body, h => by
    have hbody := Stmt.stmts_forms body fun s hs => h.part hs
    have hparams : (Form.list (params.map Form.ofToken)).tokens = params.map Token.erase := by
      simp only [Form.tokens, List.map_map]
      rfl
    have hstmt : (Stmt.function name params body).form.stmt = .function name.erase
        (Form.list (params.map Form.ofToken)).tokens (Form.stmts (Stmt.forms body)) := rfl
    rw [hstmt, hparams, hbody, Stmt.relabel]

/-- Statements are read back from their forms, one by one. -/
theorem Stmt.stmts_forms :
    (ss : List Stmt) → (∀ s ∈ ss, s.Fits) → Form.stmts (Stmt.forms ss) = Stmt.relabelAll Token.erase ss
  | [], _ => rfl
  | s :: ss, h => by
    obtain ⟨hs, hss⟩ := List.forall_mem_cons.1 h
    simp only [Stmt.forms, Form.stmts, Stmt.relabelAll, Stmt.stmt_form s hs, Stmt.stmts_forms ss hss]

end

end Treewalk
