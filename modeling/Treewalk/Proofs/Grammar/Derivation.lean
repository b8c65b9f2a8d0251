import Treewalk.Grammar.Statement

/-!
# The grammar of programs

`Derives x us r ds` says that the tokens `us` are a phrase of the kind `x`, that the phrase stands
for the tree `r`, and that `ds` is what is wrong with it. The rules know nothing of a parser: they
look at no token ahead, binary operations and lists are left-recursive, and a phrase is the
concatenation of its parts, so that every token of it is used exactly once.

The grammar is *relaxed*: it lets anything be assigned to, lists be of any length, and `return` stand
anywhere. A phrase that breaks one of these three side conditions is charged with a complaint in
`ds`, at the place where it does. So the phrases with `ds = []` are the sentences of the strict
grammar (`Sentence`), and those with any `ds` the sentences of the relaxed one.

Two attributes of the symbols keep the grammar unambiguous and the side conditions local. `inBody`
tells whether the phrase stands in a function body. A statement is `hanging` if an `else` right after
it would belong to an `if` inside it; what stands between an `if` and its `else` is not, so that an
`else` belongs to the nearest `if`.
-/

namespace Treewalk

/-- The value of a string or number token as a constant of a program. -/
def Literal.constant : Literal → Constant
  | number value => .number value
  | string value => .string value

/-- A token with a value, if its kind is one that has values. -/
def Token.Valued (t : Token) : Prop :=
  t.kind = .number ∨ t.kind = .string → t.literal ≠ none

/-- The constant that a token alone denotes. -/
def Token.constant? (t : Token) : Option Constant :=
  match t.kind with
  | .kwFalse => some (.boolean false)
  | .kwTrue => some (.boolean true)
  | .kwNil => some .nil
  | .number | .string => t.literal.map Literal.constant
  | _ => none

namespace Grammar

/-- The kinds of phrases. -/
inductive Symbol where
  | declarations (inBody : Bool)
  | declaration (inBody : Bool)
  /-- A variable declaration after its keyword. -/
  | variable
  | parameterList
  /-- A parameter list that is not empty. -/
  | parameters
  | statement (inBody hanging : Bool)
  /-- The first clause of a `for` loop, with its semicolon. -/
  | initializer
  /-- An expression that may be left out. -/
  | clause
  | expression
  | operation (level : Level)
  | operand (level : Level)
  | unary
  | call
  | argumentList
  /-- An argument list that is not empty. -/
  | arguments
  | primary

/-- What a phrase stands for. -/
@[reducible] def Symbol.Tree : Symbol → Type
  | declarations _ => List Stmt
  | declaration _ => Stmt
  | .variable => Stmt
  | parameterList => List Token
  | parameters => List Token
  | statement _ _ => Stmt
  | initializer => Option Stmt
  | clause => Option Expr
  | expression => Expr
  | operation _ => Expr
  | operand _ => Expr
  | unary => Expr
  | call => Expr
  | argumentList => List Expr
  | arguments => List Expr
  | primary => Expr

/-! ## The three side conditions -/

/-- A complaint about a list entry that begins with `t`, if as many entries as a list may have stand
before it. -/
def overLimit (before : Nat) (t : Token) (complaint : Complaint) : List Diagnostic :=
  if maxArguments ≤ before then [.atToken t complaint] else []

/-- A complaint about an assignment to anything but a bare name. -/
def badTarget (equals : Token) : Expr → List Diagnostic
  | .variable _ => []
  | _ => [.atToken equals .invalidAssignmentTarget]

/-- A complaint about a `return` outside function bodies. -/
def strayReturn (keyword : Token) (inBody : Bool) : List Diagnostic :=
  if inBody then [] else [.atToken keyword .returnOutsideFunction]

/-- An assignment. What is assigned to anything but a bare name is dropped. -/
def assignment : Expr → Expr → Expr
  | .variable name, value => .assign name value
  | target, _ => target

/-! ## The ladder of binary operators -/

/-- A rung of the ladder: its name, the operators on it, and the tree that stands for an operation with
one of them. -/
structure Rung where
  level : Level
  operators : List Kind
  tree : Expr → Token → Expr → Expr

/-- The binary operators, those that bind loosest first. -/
def ladder : List Rung :=
  [⟨.or, [.kwOr], .logical⟩,
    ⟨.and, [.kwAnd], .logical⟩,
    ⟨.equality, [.notEqual, .equal], .binary⟩,
    ⟨.comparison, [.greater, .greaterEqual, .less, .lessEqual], .binary⟩,
    ⟨.addition, [.minus, .plus], .binary⟩,
    ⟨.multiplication, [.slash, .star], .binary⟩]

/-- The names of the rungs, the loosest first. -/
def levels : List Level :=
  ladder.map Rung.level

/-- The second level is the one right below the first: what it binds are the operands of the first. -/
def Tighter (level tighter : Level) : Prop :=
  (level, tighter) ∈ levels.zip levels.tail

/-- No level is below this one: its operands are unary expressions. -/
def Tightest (level : Level) : Prop :=
  levels.getLast? = some level

/-! ## The rules -/

/-- The phrases of the grammar, what they stand for and what is wrong with them. -/
inductive Derives : (x : Symbol) → List Token → x.Tree → List Diagnostic → Prop
  | noDeclarations {b : Bool} : Derives (.declarations b) [] [] []
  | moreDeclarations {b : Bool} {us vs : List Token} {ss : List Stmt} {s : Stmt}
      {ds es : List Diagnostic} (hss : Derives (.declarations b) us ss ds)
      (hs : Derives (.declaration b) vs s es) :
      Derives (.declarations b) (us ++ vs) (ss ++ [s]) (ds ++ es)
  /-- `"fun" IDENTIFIER "(" parameters? ")" "{" declaration* "}"` -/
  | function {b : Bool} {keyword name opening closing brace ending : Token} {us vs : List Token}
      {params : List Token} {body : List Stmt} {ds es : List Diagnostic}
      (hkeyword : keyword.kind = .kwFun) (hname : name.kind = .identifier)
      (hopening : opening.kind = .leftParen) (hparams : Derives .parameterList us params ds)
      (hclosing : closing.kind = .rightParen) (hbrace : brace.kind = .leftBrace)
      (hbody : Derives (.declarations true) vs body es) (hending : ending.kind = .rightBrace) :
      Derives (.declaration b) (keyword :: name :: opening :: us ++ closing :: brace :: vs ++ [ending])
        (.function name params body) (ds ++ es)
  /-- `"var" variable` -/
  | varDeclaration {b : Bool} {keyword : Token} {us : List Token} {s : Stmt}
      {ds : List Diagnostic} (hkeyword : keyword.kind = .kwVar) (hs : Derives .variable us s ds) :
      Derives (.declaration b) (keyword :: us) s ds
  | statementDeclaration {b hanging : Bool} {us : List Token} {s : Stmt} {ds : List Diagnostic}
      (hs : Derives (.statement b hanging) us s ds) : Derives (.declaration b) us s ds
  /-- `IDENTIFIER ";"` -/
  | bareVariable {name ending : Token} (hname : name.kind = .identifier)
      (hending : ending.kind = .semicolon) : Derives .variable [name, ending] (.var name none) []
  /-- `IDENTIFIER "=" expression ";"` -/
  | initializedVariable {name equals ending : Token} {us : List Token} {e : Expr}
      {ds : List Diagnostic} (hname : name.kind = .identifier) (hequals : equals.kind = .assign)
      (he : Derives .expression us e ds) (hending : ending.kind = .semicolon) :
      Derives .variable (name :: equals :: us ++ [ending]) (.var name (some e)) ds
  | noParameters : Derives .parameterList [] [] []
  | someParameters {us : List Token} {ps : List Token} {ds : List Diagnostic}
      (h : Derives .parameters us ps ds) : Derives .parameterList us ps ds
  | firstParameter {name : Token} (hname : name.kind = .identifier) :
      Derives .parameters [name] [name] []
  /-- `parameters "," IDENTIFIER` -/
  | moreParameters {comma name : Token} {us : List Token} {ps : List Token} {ds : List Diagnostic}
      (h : Derives .parameters us ps ds) (hcomma : comma.kind = .comma)
      (hname : name.kind = .identifier) :
      Derives .parameters (us ++ [comma, name]) (ps ++ [name])
        (ds ++ overLimit ps.length name .tooManyParameters)
  /-- `"print" expression ";"` -/
  | print {b : Bool} {keyword ending : Token} {us : List Token} {e : Expr} {ds : List Diagnostic}
      (hkeyword : keyword.kind = .kwPrint) (he : Derives .expression us e ds)
      (hending : ending.kind = .semicolon) :
      Derives (.statement b false) (keyword :: us ++ [ending]) (.print keyword e) ds
  /-- `"if" "(" expression ")" statement` -/
  | ifThen {b hanging : Bool} {keyword opening closing : Token} {us vs : List Token} {e : Expr}
      {s : Stmt} {ds es : List Diagnostic} (hkeyword : keyword.kind = .kwIf)
      (hopening : opening.kind = .leftParen) (he : Derives .expression us e ds)
      (hclosing : closing.kind = .rightParen) (hs : Derives (.statement b hanging) vs s es) :
      Derives (.statement b true) (keyword :: opening :: us ++ closing :: vs) (.ifThen e s) (ds ++ es)
  /-- `"if" "(" expression ")" statement "else" statement` -/
  | ifElse {b hanging : Bool} {keyword opening closing other : Token} {us vs ws : List Token}
      {e : Expr} {s s' : Stmt} {ds es fs : List Diagnostic} (hkeyword : keyword.kind = .kwIf)
      (hopening : opening.kind = .leftParen) (he : Derives .expression us e ds)
      (hclosing : closing.kind = .rightParen) (hs : Derives (.statement b false) vs s es)
      (hother : other.kind = .kwElse) (hs' : Derives (.statement b hanging) ws s' fs) :
      Derives (.statement b hanging) (keyword :: opening :: us ++ closing :: vs ++ other :: ws)
        (.ifElse e s s') (ds ++ es ++ fs)
  /-- `"while" "(" expression ")" statement` -/
  | while {b hanging : Bool} {keyword opening closing : Token} {us vs : List Token} {e : Expr}
      {s : Stmt} {ds es : List Diagnostic} (hkeyword : keyword.kind = .kwWhile)
      (hopening : opening.kind = .leftParen) (he : Derives .expression us e ds)
      (hclosing : closing.kind = .rightParen) (hs : Derives (.statement b hanging) vs s es) :
      Derives (.statement b hanging) (keyword :: opening :: us ++ closing :: vs) (.while e s) (ds ++ es)
  /-- `"for" "(" initializer expression? ";" expression? ")" statement` -/
  | for {b hanging : Bool} {keyword opening middle closing : Token} {us vs ws xs : List Token}
      {init : Option Stmt} {condition increment : Option Expr} {s : Stmt}
      {ds es fs gs : List Diagnostic} (hkeyword : keyword.kind = .kwFor)
      (hopening : opening.kind = .leftParen) (hinit : Derives .initializer us init ds)
      (hcondition : Derives .clause vs condition es) (hmiddle : middle.kind = .semicolon)
      (hincrement : Derives .clause ws increment fs) (hclosing : closing.kind = .rightParen)
      (hs : Derives (.statement b hanging) xs s gs) :
      Derives (.statement b hanging)
        (keyword :: opening :: us ++ vs ++ middle :: ws ++ closing :: xs)
        (forLoop init (condition.getD (.literal (.boolean true))) increment s)
        (ds ++ es ++ fs ++ gs)
  /-- `"return" expression? ";"` -/
  | return {b : Bool} {keyword ending : Token} {us : List Token} {e : Option Expr}
      {ds : List Diagnostic} (hkeyword : keyword.kind = .kwReturn) (he : Derives .clause us e ds)
      (hending : ending.kind = .semicolon) :
      Derives (.statement b false) (keyword :: us ++ [ending]) (.return keyword e)
        (strayReturn keyword b ++ ds)
  /-- `"{" declaration* "}"` -/
  | block {b : Bool} {opening closing : Token} {us : List Token} {ss : List Stmt}
      {ds : List Diagnostic} (hopening : opening.kind = .leftBrace)
      (hss : Derives (.declarations b) us ss ds) (hclosing : closing.kind = .rightBrace) :
      Derives (.statement b false) (opening :: us ++ [closing]) (.block ss) ds
  /-- `expression ";"` -/
  | expressionStatement {b : Bool} {ending : Token} {us : List Token} {e : Expr}
      {ds : List Diagnostic} (he : Derives .expression us e ds) (hending : ending.kind = .semicolon) :
      Derives (.statement b false) (us ++ [ending]) (.expression e) ds
  | noInitializer {ending : Token} (hending : ending.kind = .semicolon) :
      Derives .initializer [ending] none []
  | varInitializer {keyword : Token} {us : List Token} {s : Stmt} {ds : List Diagnostic}
      (hkeyword : keyword.kind = .kwVar) (hs : Derives .variable us s ds) :
      Derives .initializer (keyword :: us) (some s) ds
  | expressionInitializer {ending : Token} {us : List Token} {e : Expr} {ds : List Diagnostic}
      (he : Derives .expression us e ds) (hending : ending.kind = .semicolon) :
      Derives .initializer (us ++ [ending]) (some (.expression e)) ds
  | noClause : Derives .clause [] none []
  | someClause {us : List Token} {e : Expr} {ds : List Diagnostic}
      (he : Derives .expression us e ds) : Derives .clause us (some e) ds
  | noAssignment {us : List Token} {e : Expr} {ds : List Diagnostic}
      (he : Derives (.operation .or) us e ds) : Derives .expression us e ds
  /-- `operation(or) "=" expression` -/
  | assignment {equals : Token} {us vs : List Token} {target value : Expr} {ds es : List Diagnostic}
      (htarget : Derives (.operation .or) us target ds) (hequals : equals.kind = .assign)
      (hvalue : Derives .expression vs value es) :
      Derives .expression (us ++ equals :: vs) (assignment target value)
        (ds ++ es ++ badTarget equals target)
  | noOperation {level : Level} {us : List Token} {e : Expr} {ds : List Diagnostic}
      (he : Derives (.operand level) us e ds) : Derives (.operation level) us e ds
  /-- `operation(l) operator(l) operand(l)` -/
  | moreOperations {level : Level} {operators : List Kind} {tree : Expr → Token → Expr → Expr}
      {operator : Token} {us vs : List Token} {left right : Expr} {ds es : List Diagnostic}
      (hrung : ⟨level, operators, tree⟩ ∈ ladder) (hleft : Derives (.operation level) us left ds)
      (hoperator : operator.kind ∈ operators) (hright : Derives (.operand level) vs right es) :
      Derives (.operation level) (us ++ operator :: vs) (tree left operator right) (ds ++ es)
  /-- `operation(l + 1)` -/
  | tighterOperand {level tighter : Level} {us : List Token} {e : Expr} {ds : List Diagnostic}
      (hnext : Tighter level tighter) (he : Derives (.operation tighter) us e ds) :
      Derives (.operand level) us e ds
  | unaryOperand {level : Level} {us : List Token} {e : Expr} {ds : List Diagnostic}
      (hlast : Tightest level) (he : Derives .unary us e ds) : Derives (.operand level) us e ds
  | unary {operator : Token} {us : List Token} {e : Expr} {ds : List Diagnostic}
      (hoperator : operator.kind ∈ [.not, .minus]) (he : Derives .unary us e ds) :
      Derives .unary (operator :: us) (.unary operator e) ds
  | noUnary {us : List Token} {e : Expr} {ds : List Diagnostic} (he : Derives .call us e ds) :
      Derives .unary us e ds
  | noCall {us : List Token} {e : Expr} {ds : List Diagnostic} (he : Derives .primary us e ds) :
      Derives .call us e ds
  /-- `call "(" arguments? ")"` -/
  | call {opening closing : Token} {us vs : List Token} {callee : Expr} {args : List Expr}
      {ds es : List Diagnostic} (hcallee : Derives .call us callee ds)
      (hopening : opening.kind = .leftParen) (hargs : Derives .argumentList vs args es)
      (hclosing : closing.kind = .rightParen) :
      Derives .call (us ++ opening :: vs ++ [closing]) (.call callee closing args) (ds ++ es)
  | noArguments : Derives .argumentList [] [] []
  | someArguments {us : List Token} {args : List Expr} {ds : List Diagnostic}
      (h : Derives .arguments us args ds) : Derives .argumentList us args ds
  | firstArgument {us : List Token} {e : Expr} {ds : List Diagnostic}
      (he : Derives .expression us e ds) : Derives .arguments us [e] ds
  /-- `arguments "," expression` -/
  | moreArguments {comma t : Token} {us vs : List Token} {args : List Expr} {e : Expr}
      {ds es : List Diagnostic} (h : Derives .arguments us args ds) (hcomma : comma.kind = .comma)
      (he : Derives .expression (t :: vs) e es) :
      Derives .arguments (us ++ comma :: t :: vs) (args ++ [e])
        (ds ++ overLimit args.length t .tooManyArguments ++ es)
  | constant {t : Token} {c : Constant} (h : t.constant? = some c) :
      Derives .primary [t] (.literal c) []
  | name {t : Token} (h : t.kind = .identifier) : Derives .primary [t] (.variable t) []
  /-- `"(" expression ")"` -/
  | grouping {opening closing : Token} {us : List Token} {e : Expr} {ds : List Diagnostic}
      (hopening : opening.kind = .leftParen) (he : Derives .expression us e ds)
      (hclosing : closing.kind = .rightParen) :
      Derives .primary (opening :: us ++ [closing]) (.grouping e) ds

/-- The tokens are a program of the strict grammar, and this is the program. -/
def Sentence (us : List Token) (program : List Stmt) : Prop :=
  Derives (.declarations false) us program []

/-! ## The parser's tables

What the parser looks up level by level is what the ladder says of the rung. -/

/-- **The operators of a level and the trees of its operations are those of the ladder.** -/
theorem rung_mem_iff {level : Level} {operators : List Kind} {tree : Expr → Token → Expr → Expr} :
    ⟨level, operators, tree⟩ ∈ ladder ↔ operators = level.operators ∧ tree = level.join := by
  cases level <;> simp [ladder, Level.operators, funext_iff, Level.join]

/-- **The level of the operands is the next one down the ladder.** -/
theorem tighter_iff {level tighter : Level} : Tighter level tighter ↔ level.next? = some tighter := by
  cases level <;> simp [Tighter, levels, ladder, Level.next?, eq_comm]

/-- **Unary expressions are the operands of the last level of the ladder.** -/
theorem tightest_iff {level : Level} : Tightest level ↔ level.next? = none := by
  cases level <;> simp [Tightest, levels, ladder, Level.next?]

/-- Each level is a rung, as the parser knows it. -/
theorem Level.rung_mem (level : Level) : ⟨level, level.operators, level.join⟩ ∈ ladder :=
  rung_mem_iff.2 ⟨rfl, rfl⟩

/-! ## How phrases begin -/

/-- The kinds of tokens that a primary expression can begin with. -/
def primaryKinds : List Kind :=
  [.kwFalse, .kwTrue, .kwNil, .number, .string, .identifier, .leftParen]

/-- The kinds of tokens that an expression can begin with. -/
def expressionKinds : List Kind :=
  [.not, .minus] ++ primaryKinds

/-- The kinds of tokens that a statement can begin with. -/
def statementKinds : List Kind :=
  [.kwPrint, .kwIf, .kwWhile, .kwFor, .kwReturn, .leftBrace] ++ expressionKinds

/-- The kinds of tokens that a declaration can begin with. -/
def declarationKinds : List Kind :=
  [.kwFun, .kwVar] ++ statementKinds

/-- The kinds of tokens that a phrase can begin with, if it is not empty. -/
def Symbol.firsts : Symbol → List Kind
  | declarations _ => declarationKinds
  | declaration _ => declarationKinds
  | .variable => [.identifier]
  | parameterList => [.identifier]
  | parameters => [.identifier]
  | statement _ _ => statementKinds
  | initializer => [.semicolon, .kwVar] ++ expressionKinds
  | clause => expressionKinds
  | expression => expressionKinds
  | operation _ => expressionKinds
  | operand _ => expressionKinds
  | unary => expressionKinds
  | call => primaryKinds
  | argumentList => expressionKinds
  | arguments => expressionKinds
  | primary => primaryKinds

/-- The kinds of phrases that may be empty. -/
def Symbol.nullable : Symbol → Bool
  | declarations _ => true
  | parameterList => true
  | clause => true
  | argumentList => true
  | _ => false

/-- A list of tokens that begins with a token of one of some kinds. -/
def Begins (kinds : List Kind) (us : List Token) : Prop :=
  ∃ t vs, us = t :: vs ∧ t.kind ∈ kinds

/-- How a list begins does not depend on what follows it. -/
theorem Begins.append {kinds : List Kind} {us : List Token} (h : Begins kinds us)
    (vs : List Token) : Begins kinds (us ++ vs) := by
  obtain ⟨t, us, rfl, ht⟩ := h
  exact ⟨t, us ++ vs, rfl, ht⟩

/-- A list that begins with one of some kinds begins with one of more kinds. -/
theorem Begins.mono {kinds kinds' : List Kind} {us : List Token} (h : Begins kinds us)
    (hsub : kinds ⊆ kinds') : Begins kinds' us := by
  obtain ⟨t, us, rfl, ht⟩ := h
  exact ⟨t, us, rfl, hsub ht⟩

/-- A token that denotes a constant can begin a primary expression. -/
theorem kind_mem_of_constant {t : Token} {c : Constant} (h : t.constant? = some c) :
    t.kind ∈ primaryKinds := by
  unfold Token.constant? at h
  split at h <;> simp_all [primaryKinds]

/-- A phrase begins as its symbol says, or it is empty and its symbol allows for that. -/
theorem Derives.begins {x : Symbol} {us : List Token} {r : x.Tree} {ds : List Diagnostic}
    (h : Derives x us r ds) : (x.nullable = true ∧ us = []) ∨ Begins x.firsts us := by
  induction h with
  | noDeclarations | noParameters | noClause | noArguments => exact .inl ⟨rfl, rfl⟩
  | function h | varDeclaration h | bareVariable h | initializedVariable h | firstParameter h
  | print h | ifThen h | ifElse h | «while» h | «for» h | «return» h | block h
  | noInitializer h | varInitializer h | name h | grouping h =>
    exact .inr ⟨_, _, rfl, by simp [h, Symbol.firsts, declarationKinds, statementKinds, primaryKinds]⟩
  | unary h => exact .inr ⟨_, _, rfl, List.mem_append_left _ h⟩
  | constant h => exact .inr ⟨_, _, rfl, kind_mem_of_constant h⟩
  | moreDeclarations hss hs ihs ih =>
    rcases ihs with ⟨-, rfl⟩ | ihs
    · rcases ih with ⟨⟨⟩, -⟩ | ih
      exact .inr ih
    · exact .inr (ihs.append _)
  | statementDeclaration h ih =>
    rcases ih with ⟨⟨⟩, -⟩ | ih
    exact .inr (ih.mono (List.subset_append_right _ _))
  | expressionStatement h _ ih | expressionInitializer h _ ih =>
    rcases ih with ⟨⟨⟩, -⟩ | ih
    exact .inr ((ih.append _).mono (List.subset_append_right _ _))
  | noUnary h ih =>
    rcases ih with ⟨⟨⟩, -⟩ | ih
    exact .inr (ih.mono (List.subset_append_right _ _))
  | someParameters h ih | someArguments h ih | someClause h ih | noAssignment h ih | noOperation h ih
  | tighterOperand _ h ih | unaryOperand _ h ih | noCall h ih | firstArgument h ih =>
    rcases ih with ⟨⟨⟩, -⟩ | ih
    exact .inr ih
  | moreParameters h _ _ ih | assignment h _ _ ih | moreOperations _ h _ _ ih
  | moreArguments h _ _ ih =>
    rcases ih with ⟨⟨⟩, -⟩ | ih
    exact .inr (ih.append _)
  | call h _ _ _ ih =>
    rcases ih with ⟨⟨⟩, -⟩ | ih
    exact .inr ((ih.append _).append _)

/-! ## Tighter expressions can stand for looser ones -/

namespace Derives

variable {us : List Token} {e : Expr} {ds : List Diagnostic}

/-- The rule for operands, for the level that the parser reads next. -/
theorem operand_of_operation {level tighter : Level} (hnext : level.next? = some tighter)
    (h : Derives (.operation tighter) us e ds) : Derives (.operand level) us e ds :=
  .tighterOperand (tighter_iff.2 hnext) h

/-- A unary expression is an operand of every level, by way of the tighter ones. -/
theorem operand_of_unary (h : Derives .unary us e ds) (level : Level) :
    Derives (.operand level) us e ds := by
  have hmultiplication : Derives (.operand .multiplication) us e ds := .unaryOperand rfl h
  have haddition : Derives (.operand .addition) us e ds :=
    operand_of_operation rfl (.noOperation hmultiplication)
  have hcomparison : Derives (.operand .comparison) us e ds :=
    operand_of_operation rfl (.noOperation haddition)
  have hequality : Derives (.operand .equality) us e ds :=
    operand_of_operation rfl (.noOperation hcomparison)
  have hand : Derives (.operand .and) us e ds := operand_of_operation rfl (.noOperation hequality)
  cases level
  case or => exact operand_of_operation rfl (.noOperation hand)
  all_goals assumption

/-- A unary expression is an expression. -/
theorem expression_of_unary (h : Derives .unary us e ds) : Derives .expression us e ds :=
  .noAssignment (.noOperation (h.operand_of_unary .or))

/-- An operation is an operation of the level above, without an operator of that level. -/
theorem loosen {level looser : Level} (hnext : looser.next? = some level)
    (h : Derives (.operation level) us e ds) : Derives (.operation looser) us e ds :=
  .noOperation (operand_of_operation hnext h)

/-- An operation of any level is an expression: it is loosened up to the first one. -/
theorem expression_of_operation {level : Level} (h : Derives (.operation level) us e ds) :
    Derives .expression us e ds := by
  have hand (h : Derives (.operation .and) us e ds) : Derives .expression us e ds :=
    .noAssignment (loosen rfl h)
  have hequality (h : Derives (.operation .equality) us e ds) := hand (loosen rfl h)
  have hcomparison (h : Derives (.operation .comparison) us e ds) := hequality (loosen rfl h)
  have haddition (h : Derives (.operation .addition) us e ds) := hcomparison (loosen rfl h)
  cases level with
  | or => exact .noAssignment h
  | and => exact hand h
  | equality => exact hequality h
  | comparison => exact hcomparison h
  | addition => exact haddition h
  | multiplication => exact haddition (loosen rfl h)

/-- A primary expression is a call of nothing, behind no sign. -/
theorem unary_of_primary (h : Derives .primary us e ds) : Derives .unary us e ds :=
  .noUnary (.noCall h)

/-- A primary expression is an expression. -/
theorem expression_of_primary (h : Derives .primary us e ds) : Derives .expression us e ds :=
  h.unary_of_primary.expression_of_unary

/-- The rule for operations, with what the parser looks up for the level. -/
theorem operation_of_join {level : Level} {operator : Token} {vs : List Token} {left right : Expr}
    {es : List Diagnostic} (hleft : Derives (.operation level) us left ds)
    (hoperator : operator.kind ∈ level.operators) (hright : Derives (.operand level) vs right es) :
    Derives (.operation level) (us ++ operator :: vs) (level.join left operator right) (ds ++ es) :=
  .moreOperations level.rung_mem hleft hoperator hright

end Derives

end Grammar

end Treewalk
