import Treewalk.Proofs.Evaluation.Operators
import Treewalk.Proofs.Grammar.Derivation

/-!
# What stands everywhere in a tree

A property of expressions holds everywhere in what a phrase stands for, if it holds of whatever a production
builds of tokens and of expressions (`Builds`, `Derives.everywhere`).

The grammar puts a token before an operand, or between two, only if it is an operator for such a place. So
what a phrase stands for has operators of the language only, in the functions that are declared in it too
(`Derives.operable`). This does not depend on the phrase being without complaints.
-/

namespace Treewalk.Grammar

variable {ok : Token → Prop} {p : Expr → Prop}

/-- A property holds everywhere in what a phrase stands for. -/
def Symbol.Everywhere (p : Expr → Prop) : (x : Symbol) → x.Tree → Prop
  | declarations _ => fun ss => ∀ s ∈ ss, s.Everywhere p
  | declaration _ => Stmt.Everywhere p
  | .variable => Stmt.Everywhere p
  | parameterList => fun _ => True
  | parameters => fun _ => True
  | statement _ _ => Stmt.Everywhere p
  | initializer => fun init => ∀ s ∈ init.toList, s.Everywhere p
  | clause => fun e => ∀ d ∈ e.toList, d.Everywhere p
  | expression => Expr.Everywhere p
  | operation _ => Expr.Everywhere p
  | operand _ => Expr.Everywhere p
  | unary => Expr.Everywhere p
  | call => Expr.Everywhere p
  | argumentList => fun es => ∀ e ∈ es, e.Everywhere p
  | arguments => fun es => ∀ e ∈ es, e.Everywhere p
  | primary => Expr.Everywhere p

/-- The productions build expressions with the property `p` from tokens with the property `ok`, whatever
other expressions they build them from. -/
structure Builds (ok : Token → Prop) (p : Expr → Prop) : Prop where
  literal {t : Token} {c : Constant} : ok t → t.constant? = some c → p (.literal c)
  /-- The condition of a loop that has none. -/
  truth : p (.literal (.boolean true))
  name {t : Token} : ok t → t.kind = .identifier → p (.variable t)
  grouping (e : Expr) : p (.grouping e)
  unary {operator : Token} (e : Expr) :
    ok operator → operator.kind ∈ Kind.unaryOperators → p (.unary operator e)
  join {level : Level} {operator : Token} (left right : Expr) :
    ok operator → operator.kind ∈ level.operators → p (level.join left operator right)
  assign {name : Token} (value : Expr) : p (.variable name) → p (.assign name value)
  call {paren : Token} (callee : Expr) (args : List Expr) :
    ok paren → paren.kind = .rightParen → p (.call callee paren args)

/-! ## What the productions make of their parts -/

/-- The parts of an operation are its two sides. -/
theorem parts_join (level : Level) (left right : Expr) (operator : Token) :
    (level.join left operator right).parts = [left, right] := by
  cases level <;> rfl

/-- The property holds everywhere in a condition, also in the one that is supplied where a loop has none. -/
theorem Builds.everywhere_condition (hp : Builds ok p) {condition : Option Expr}
    (h : ∀ e ∈ condition.toList, e.Everywhere p) :
    (condition.getD (.literal (.boolean true))).Everywhere p := by
  cases condition with
  | none => exact Expr.everywhere_iff.2 ⟨hp.truth, List.forall_mem_nil _⟩
  | some e => exact h e List.mem_cons_self

/-- It holds everywhere in a lowered loop, if it does in its clauses and in its body. -/
theorem everywhere_forLoop {init : Option Stmt} {condition : Expr} {increment : Option Expr}
    {body : Stmt} (hinit : ∀ s ∈ init.toList, s.Everywhere p) (hcondition : condition.Everywhere p)
    (hincrement : ∀ e ∈ increment.toList, e.Everywhere p) (hbody : body.Everywhere p) :
    (forLoop init condition increment body).Everywhere p := by
  have hloop (s : Stmt) (hs : s.Everywhere p) : (Stmt.while condition s).Everywhere p :=
    Stmt.everywhere_iff.2 ⟨List.forall_mem_singleton.2 hcondition, List.forall_mem_singleton.2 hs⟩
  refine Stmt.everywhere_iff.2 ⟨List.forall_mem_nil _, List.forall_mem_append.2 ⟨hinit, ?_⟩⟩
  refine List.forall_mem_singleton.2 (hloop _ ?_)
  cases increment with
  | none => exact hbody
  | some e =>
    have hlast : (Stmt.expression e).Everywhere p :=
      Stmt.everywhere_iff.2 ⟨hincrement, List.forall_mem_nil _⟩
    refine Stmt.everywhere_iff.2 ⟨List.forall_mem_nil _, ?_⟩
    exact List.forall_mem_cons.2 ⟨hbody, List.forall_mem_singleton.2 hlast⟩

/-- It holds everywhere in an assignment, also in one whose value is dropped. -/
theorem Builds.everywhere_assignment (hp : Builds ok p) {target value : Expr}
    (htarget : target.Everywhere p) (hvalue : value.Everywhere p) :
    (assignment target value).Everywhere p := by
  cases target with
  | «variable» name =>
    have hname := (Expr.everywhere_iff.1 htarget).1
    exact Expr.everywhere_iff.2 ⟨hp.assign value hname, List.forall_mem_singleton.2 hvalue⟩
  | _ => exact htarget

/-- **A property of what the productions build holds everywhere.** -/
theorem Derives.everywhere {x : Symbol} {us : List Token} {r : x.Tree} {ds : List Diagnostic}
    (h : Derives x us r ds) (hp : Builds ok p) (hus : ∀ t ∈ us, ok t) : x.Everywhere p r := by
  induction h with
  -- phrases that stand for nothing, or for what a part of them stands for
  | noDeclarations | noInitializer | noClause | noArguments => exact List.forall_mem_nil _
  | noParameters | someParameters | firstParameter | moreParameters => trivial
  | statementDeclaration _ ih | noAssignment _ ih | noOperation _ ih | tighterOperand _ _ ih
  | unaryOperand _ _ ih | noUnary _ ih | noCall _ ih | someArguments _ ih => exact ih hus
  | varDeclaration _ _ ih => exact ih (List.forall_mem_cons.1 hus).2
  | someClause _ ih | firstArgument _ ih => exact List.forall_mem_singleton.2 (ih hus)
  | varInitializer _ _ ih => exact List.forall_mem_singleton.2 (ih (List.forall_mem_cons.1 hus).2)
  | moreDeclarations _ _ ihs ih =>
    obtain ⟨hus, hvs⟩ := List.forall_mem_append.1 hus
    exact List.forall_mem_append.2 ⟨ihs hus, List.forall_mem_singleton.2 (ih hvs)⟩
  | moreArguments _ _ _ ihs ih =>
    obtain ⟨hus, hvs⟩ := List.forall_mem_append.1 hus
    exact List.forall_mem_append.2
      ⟨ihs hus, List.forall_mem_singleton.2 (ih (List.forall_mem_cons.1 hvs).2)⟩
  -- statements
  | function _ _ _ _ _ _ _ _ _ ih =>
    simp only [List.forall_mem_append, List.forall_mem_cons] at hus
    exact Stmt.everywhere_iff.2 ⟨List.forall_mem_nil _, ih hus.1.2.2.2⟩
  | block _ _ _ ih =>
    simp only [List.forall_mem_append, List.forall_mem_cons] at hus
    exact Stmt.everywhere_iff.2 ⟨List.forall_mem_nil _, ih hus.1.2⟩
  | bareVariable => exact Stmt.everywhere_iff.2 ⟨List.forall_mem_nil _, List.forall_mem_nil _⟩
  | initializedVariable _ _ _ _ ih =>
    simp only [List.forall_mem_append, List.forall_mem_cons] at hus
    exact Stmt.everywhere_iff.2 ⟨List.forall_mem_singleton.2 (ih hus.1.2.2), List.forall_mem_nil _⟩
  | print _ _ _ ih =>
    simp only [List.forall_mem_append, List.forall_mem_cons] at hus
    exact Stmt.everywhere_iff.2 ⟨List.forall_mem_singleton.2 (ih hus.1.2), List.forall_mem_nil _⟩
  | expressionStatement _ _ ih =>
    have he := ih (List.forall_mem_append.1 hus).1
    exact Stmt.everywhere_iff.2 ⟨List.forall_mem_singleton.2 he, List.forall_mem_nil _⟩
  | «return» _ _ _ ih =>
    simp only [List.forall_mem_append, List.forall_mem_cons] at hus
    exact Stmt.everywhere_iff.2 ⟨ih hus.1.2, List.forall_mem_nil _⟩
  | expressionInitializer _ _ ih =>
    have he := ih (List.forall_mem_append.1 hus).1
    refine List.forall_mem_singleton.2 (Stmt.everywhere_iff.2 ⟨?_, List.forall_mem_nil _⟩)
    exact List.forall_mem_singleton.2 he
  | ifThen _ _ _ _ _ ih ihs | «while» _ _ _ _ _ ih ihs =>
    simp only [List.forall_mem_append, List.forall_mem_cons] at hus
    exact Stmt.everywhere_iff.2
      ⟨List.forall_mem_singleton.2 (ih hus.1.2.2), List.forall_mem_singleton.2 (ihs hus.2.2)⟩
  | ifElse _ _ _ _ _ _ _ ih ihs ihs' =>
    simp only [List.forall_mem_append, List.forall_mem_cons] at hus
    refine Stmt.everywhere_iff.2 ⟨List.forall_mem_singleton.2 (ih hus.1.1.2.2), ?_⟩
    exact List.forall_mem_cons.2 ⟨ihs hus.1.2.2, List.forall_mem_singleton.2 (ihs' hus.2.2)⟩
  | «for» _ _ _ _ _ _ _ _ ihinit ihcondition ihincrement ih =>
    simp only [List.forall_mem_append, List.forall_mem_cons] at hus
    exact everywhere_forLoop (ihinit hus.1.1.1.2.2) (hp.everywhere_condition (ihcondition hus.1.1.2))
      (ihincrement hus.1.2.2) (ih hus.2.2)
  -- expressions
  | constant hc =>
    exact Expr.everywhere_iff.2 ⟨hp.literal (hus _ List.mem_cons_self) hc, List.forall_mem_nil _⟩
  | name hname =>
    exact Expr.everywhere_iff.2 ⟨hp.name (hus _ List.mem_cons_self) hname, List.forall_mem_nil _⟩
  | grouping _ _ _ ih =>
    simp only [List.forall_mem_append, List.forall_mem_cons] at hus
    exact Expr.everywhere_iff.2 ⟨hp.grouping _, List.forall_mem_singleton.2 (ih hus.1.2)⟩
  | assignment _ _ _ iht ihv =>
    simp only [List.forall_mem_append, List.forall_mem_cons] at hus
    exact hp.everywhere_assignment (iht hus.1) (ihv hus.2.2)
  | call _ _ _ hclosing ih ihs =>
    simp only [List.forall_mem_append, List.forall_mem_cons] at hus
    exact Expr.everywhere_iff.2
      ⟨hp.call _ _ hus.2.1 hclosing, List.forall_mem_cons.2 ⟨ih hus.1.1, ihs hus.1.2.2⟩⟩
  | unary hoperator _ ih =>
    have hkinds : ∀ k ∈ [Kind.not, .minus], k ∈ Kind.unaryOperators := by decide
    obtain ⟨hok, hus⟩ := List.forall_mem_cons.1 hus
    exact Expr.everywhere_iff.2
      ⟨hp.unary _ hok (hkinds _ hoperator), List.forall_mem_singleton.2 (ih hus)⟩
  | moreOperations hrung _ hoperator _ ih ih' =>
    obtain ⟨rfl, rfl⟩ := rung_mem_iff.1 hrung
    simp only [List.forall_mem_append, List.forall_mem_cons] at hus
    refine Expr.everywhere_iff.2 ⟨hp.join _ _ hus.2.1 hoperator, ?_⟩
    rw [parts_join]
    exact List.forall_mem_cons.2 ⟨ih hus.1, List.forall_mem_singleton.2 (ih' hus.2.2)⟩

/-! ## Operators -/

/-- An operation has an operator for its place, if the operator is of its level. -/
theorem operable_join {level : Level} {operator : Token} (h : operator.kind ∈ level.operators)
    (left right : Expr) : (level.join left operator right).Operable := by
  have hkind (kinds : List Kind) (hkinds : ∀ k ∈ level.operators, k ∈ kinds) :
      operator.kind ∈ kinds :=
    hkinds _ h
  cases level with
  | or | and => exact hkind Kind.logicalOperators (by decide)
  | _ => exact hkind Kind.binaryOperators (by decide)

/-- What productions build has operators for their places. -/
theorem builds_operable : Builds (fun _ => True) Expr.Operable where
  literal _ _ := trivial
  truth := trivial
  name _ _ := trivial
  grouping _ := trivial
  unary _ _ hoperator := hoperator
  join left right _ hoperator := operable_join hoperator left right
  assign _ _ := trivial
  call _ _ _ _ := trivial

/-- **What a phrase stands for has operators of the language only.** -/
theorem Derives.operable {x : Symbol} {us : List Token} {r : x.Tree} {ds : List Diagnostic}
    (h : Derives x us r ds) : x.Everywhere Expr.Operable r :=
  h.everywhere builds_operable fun _ _ => trivial

end Treewalk.Grammar
