import Treewalk.Proofs.Grammar.Completeness
import Treewalk.Proofs.Grammar.Soundness

/-!
# The parser accepts exactly its grammar

The two directions of `Treewalk.Proofs.Grammar.Soundness` and `Treewalk.Proofs.Grammar.Completeness`
put together. For the relaxed grammar, the parser gives the tree and the complaints of the derivation
that there is (`parse_of_derives`), and there is one unless a complaint is fatal. For the strict
grammar this says that the lists of tokens without complaint are the sentences, and that a sentence
has one derivation, whose tree is the one that is built (`parse_accepts_exactly`).

A tree does not keep all tokens that it was built from: punctuation is gone, and of a constant only
the value is left. Of the kinds of tokens that it does keep, it has exactly those of the text
(`Derives.countP_tokens`); a `for` loop only has them in another order.
-/

namespace Treewalk

/-! ## The tokens in a tree -/

mutual

/-- The tokens that an expression keeps. -/
def Expr.tokens : Expr → List Token
  | .literal _ => []
  | .grouping inner => inner.tokens
  | .unary operator right => operator :: right.tokens
  | .binary left operator right => left.tokens ++ operator :: right.tokens
  | .logical left operator right => left.tokens ++ operator :: right.tokens
  | .variable name => [name]
  | .assign name value => name :: value.tokens
  | .call callee paren args => callee.tokens ++ Expr.tokensAll args ++ [paren]

/-- The tokens that some expressions keep. -/
def Expr.tokensAll : List Expr → List Token
  | [] => []
  | e :: es => e.tokens ++ Expr.tokensAll es

end

/-- The tokens that an expression keeps, if there is one. -/
def Expr.tokens? : Option Expr → List Token
  | none => []
  | some e => e.tokens

mutual

/-- The tokens that a statement keeps. -/
def Stmt.tokens : Stmt → List Token
  | .expression e => e.tokens
  | .print keyword e => keyword :: e.tokens
  | .var name init => name :: Expr.tokens? init
  | .block body => Stmt.tokensAll body
  | .ifThen condition consequent => condition.tokens ++ consequent.tokens
  | .ifElse condition consequent alternative =>
    condition.tokens ++ consequent.tokens ++ alternative.tokens
  | .while condition body => condition.tokens ++ body.tokens
  | .function name params body => name :: params ++ Stmt.tokensAll body
  | .return keyword value => keyword :: Expr.tokens? value

/-- The tokens that some statements keep. -/
def Stmt.tokensAll : List Stmt → List Token
  | [] => []
  | s :: ss => s.tokens ++ Stmt.tokensAll ss

end

/-- The tokens of two lists of expressions are those of the one and then those of the other. -/
theorem Expr.tokensAll_append (es fs : List Expr) :
    Expr.tokensAll (es ++ fs) = Expr.tokensAll es ++ Expr.tokensAll fs := by
  induction es with
  | nil => rfl
  | cons e es ih => simp [Expr.tokensAll, ih]

/-- So for two lists of statements. -/
theorem Stmt.tokensAll_append (ss ts : List Stmt) :
    Stmt.tokensAll (ss ++ ts) = Stmt.tokensAll ss ++ Stmt.tokensAll ts := by
  induction ss with
  | nil => rfl
  | cons s ss ih => simp [Stmt.tokensAll, ih]

namespace Grammar

/-- The tokens that the tree of a phrase keeps. -/
def Symbol.tokens : (x : Symbol) → x.Tree → List Token
  | declarations _ => Stmt.tokensAll
  | declaration _ => Stmt.tokens
  | .variable => Stmt.tokens
  | parameterList => id
  | parameters => id
  | statement _ _ => Stmt.tokens
  | initializer => fun init => Stmt.tokensAll init.toList
  | clause => Expr.tokens?
  | expression => Expr.tokens
  | operation _ => Expr.tokens
  | operand _ => Expr.tokens
  | unary => Expr.tokens
  | call => Expr.tokens
  | argumentList => Expr.tokensAll
  | arguments => Expr.tokensAll
  | primary => Expr.tokens

/-- The kinds of tokens that a tree always keeps: names, operators, `print` and `return`. -/
def keptKinds : List Kind :=
  [.identifier, .not, .minus, .plus, .slash, .star, .notEqual, .equal, .greater, .greaterEqual, .less,
    .lessEqual, .kwAnd, .kwOr, .kwPrint, .kwReturn]

/-- Whether a token is of a kind that is kept, and has the property `p`. -/
def keptWith (p : Token → Bool) (t : Token) : Bool :=
  decide (t.kind ∈ keptKinds) && p t

/-- Punctuation and the like is not counted, whatever the property. -/
theorem keptWith_of_not_mem {p : Token → Bool} {t : Token} (h : t.kind ∉ keptKinds) :
    keptWith p t = false := by
  simp [keptWith, h]

/-- The token of a constant is not counted, because the tree keeps its value only. -/
theorem keptWith_of_constant {p : Token → Bool} {t : Token} {c : Constant}
    (h : t.constant? = some c) : keptWith p t = false := by
  apply keptWith_of_not_mem
  unfold Token.constant? at h
  split at h <;> simp_all [keptKinds]

/-- An operation keeps the tokens of its sides and the operator between them. -/
theorem tokens_join (level : Level) (left right : Expr) (operator : Token) :
    (level.join left operator right).tokens = left.tokens ++ operator :: right.tokens := by
  cases level <;> rfl

/-- The condition that is supplied where a loop has none brings no token. -/
theorem tokens_condition (condition : Option Expr) :
    (condition.getD (.literal (.boolean true))).tokens = Expr.tokens? condition := by
  cases condition <;> rfl

/-- The increment of a loop comes after its body in the tree, before it in the text. -/
theorem countP_tokens_forLoop (p : Token → Bool) (init : Option Stmt) (condition : Expr)
    (increment : Option Expr) (body : Stmt) :
    (forLoop init condition increment body).tokens.countP p =
      (Stmt.tokensAll init.toList).countP p + condition.tokens.countP p
        + (Expr.tokens? increment).countP p + body.tokens.countP p := by
  cases increment <;>
    simp [forLoop, Stmt.tokens, Stmt.tokensAll, Stmt.tokensAll_append, Expr.tokens?] <;> omega

/-- What can be assigned to without a complaint is a bare name. -/
theorem exists_variable_of_badTarget {equals : Token} {target : Expr}
    (h : badTarget equals target = []) : ∃ name, target = .variable name := by
  cases target with
  | «variable» name => exact ⟨name, rfl⟩
  | _ => cases h

attribute [local simp] Symbol.tokens Expr.tokens Stmt.tokens Expr.tokens? Expr.tokensAll
  Stmt.tokensAll Expr.tokensAll_append Stmt.tokensAll_append

/-- **No token is lost or duplicated**: of the tokens of the kinds that are kept, a tree has as many
with any property as the phrase that it stands for. -/
theorem Derives.countP_tokens {x : Symbol} {us : List Token} {r : x.Tree} {ds : List Diagnostic}
    (h : Derives x us r ds) (hds : ds = []) (p : Token → Bool) :
    (x.tokens r).countP (keptWith p) = us.countP (keptWith p) := by
  induction h with
  | «for» =>
    simp_all [countP_tokens_forLoop, tokens_condition, keptWith_of_not_mem, keptKinds]
    omega
  | assignment htarget hequals hvalue iht ihv =>
    simp only [List.append_eq_nil_iff] at hds
    obtain ⟨name, rfl⟩ := exists_variable_of_badTarget hds.2
    simp_all [Grammar.assignment, keptWith_of_not_mem, keptKinds]
    rw [List.countP_cons]
    omega
  | moreOperations hrung =>
    obtain ⟨rfl, rfl⟩ := rung_mem_iff.1 hrung
    simp_all [tokens_join, List.countP_cons]
  | constant h => simp [keptWith_of_constant h]
  | _ => simp_all [List.countP_cons, keptWith_of_not_mem, keptKinds]

/-! ## Acceptance -/

/-- The tokens before the one that marks the end. -/
def beforeEnd (tokens : List Token) : List Token :=
  tokens.takeWhile (·.kind ≠ .eof)

/-- **A program of the relaxed grammar is read as what it stands for**, and what is wrong with it is
what is complained about. -/
theorem parse_of_derives {tokens : List Token} {program : List Stmt} {ds : List Diagnostic}
    (h : Derives (.declarations false) (beforeEnd tokens) program ds) :
    parse tokens = ⟨program, ds.toArray, !ds.isEmpty⟩ := by
  obtain ⟨r, s', us, es, houtcome, -⟩ := exists_outcome tokens
  have hvalue := Routine.value_of_run rules houtcome
  have hread := value_program_of_derives (sealed_ofTokens tokens) h
  have hall := hvalue.symm.trans hread
  simp only [Option.some.injEq, Prod.mk.injEq] at hall
  obtain ⟨rfl, rfl⟩ := hall
  unfold parse
  rw [houtcome]
  simp [State.beyond, State.ofTokens]

/-- What is accepted without complaint is a sentence. -/
theorem sentence_of_parse {tokens : List Token} (h : (parse tokens).diagnostics = #[]) :
    Sentence (beforeEnd tokens) (parse tokens).program := by
  have hderives := parse_derives tokens (by simp [h])
  rwa [h] at hderives

/-- **The parser accepts exactly its grammar.** It has nothing to complain about exactly if the tokens
before the end are a sentence; then the sentence stands for one program, which is the one that is
built, and this has every token of the kinds that trees keep as often as the text has it. -/
theorem parse_accepts_exactly (tokens : List Token) :
    ((parse tokens).diagnostics = #[] ↔ ∃ program, Sentence (beforeEnd tokens) program) ∧
      ∀ program, Sentence (beforeEnd tokens) program → (parse tokens).program = program ∧
        ∀ p : Token → Bool, (Stmt.tokensAll program).countP (keptWith p) =
          (beforeEnd tokens).countP (keptWith p) := by
  refine ⟨⟨fun h => ⟨_, sentence_of_parse h⟩, ?_⟩, fun program h => ⟨?_, h.countP_tokens rfl⟩⟩
  · rintro ⟨program, h⟩
    rw [parse_of_derives h]
  · rw [parse_of_derives h]

end Grammar

end Treewalk
