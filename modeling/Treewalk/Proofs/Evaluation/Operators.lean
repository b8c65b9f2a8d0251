import Treewalk.Proofs.Evaluation.Heritage

/-!
# Operators that the evaluator knows

The evaluator finds out what to do from the kind of an operator token, and has an answer ready for kinds
that are no operators. That answer is not given for a program whose operators are those of the language
(`Expr.Operable`), in its functions too: the faults of such a program are of other kinds
(`Heritage.operable`). Nor is it given for a function of such a program that is called later, since what
an interpreter holds after a run comes from the program or was held before.
-/

namespace Treewalk

/-! ## Everywhere in a tree -/

/-- An expression that stands in an expression: it is that one, or stands in one of its parts. -/
inductive Expr.Has : Expr → Expr → Prop where
  | self (e : Expr) : Has e e
  | part {e part d : Expr} (hpart : part ∈ e.parts) (h : Has part d) : Has e d

/-- An expression that stands in a statement, be it in a function that is declared there. -/
inductive Stmt.Has : Stmt → Expr → Prop where
  | expr {s : Stmt} {e d : Expr} (he : e ∈ s.exprs) (h : e.Has d) : Has s d
  | part {s part : Stmt} {d : Expr} (hpart : part ∈ s.parts) (h : Has part d) : Has s d

/-- All expressions that stand in an expression have a property. -/
def Expr.Everywhere (p : Expr → Prop) (e : Expr) : Prop :=
  ∀ d, e.Has d → p d

/-- All expressions that stand in a statement have a property. -/
def Stmt.Everywhere (p : Expr → Prop) (s : Stmt) : Prop :=
  ∀ d, s.Has d → p d

variable {p : Expr → Prop}

/-- A property holds everywhere in an expression if it holds of the expression and everywhere in its
parts. -/
theorem Expr.everywhere_iff {e : Expr} :
    e.Everywhere p ↔ p e ∧ ∀ part ∈ e.parts, part.Everywhere p := by
  constructor
  · intro h
    exact ⟨h e (.self e), fun part hpart d hd => h d (.part hpart hd)⟩
  · rintro ⟨he, hparts⟩ d (_ | ⟨hpart, hd⟩)
    · exact he
    · exact hparts _ hpart d hd

/-- A property holds everywhere in a statement if it holds everywhere in its expressions and in its
parts. -/
theorem Stmt.everywhere_iff {s : Stmt} :
    s.Everywhere p ↔
      (∀ e ∈ s.exprs, e.Everywhere p) ∧ ∀ part ∈ s.parts, part.Everywhere p := by
  constructor
  · intro h
    exact ⟨fun e he d hd => h d (.expr he hd), fun part hpart d hd => h d (.part hpart hd)⟩
  · rintro ⟨hexprs, hparts⟩ d (⟨he, hd⟩ | ⟨hpart, hd⟩)
    · exact hexprs _ he d hd
    · exact hparts _ hpart d hd

/-! ## The operators of the language -/

/-- The operators before an operand. -/
def Kind.unaryOperators : List Kind :=
  [.minus, .not]

/-- The operators that need not look at their right side. -/
def Kind.logicalOperators : List Kind :=
  [.kwAnd, .kwOr]

/-- The operators of arithmetic, comparison and equality. -/
def Kind.binaryOperators : List Kind :=
  [.minus, .plus, .slash, .star, .greater, .greaterEqual, .less, .lessEqual, .equal, .notEqual]

/-- The operator of an expression, if it has one, is an operator of the language for such expressions. -/
def Expr.Operable : Expr → Prop
  | .unary operator _ => operator.kind ∈ Kind.unaryOperators
  | .logical _ operator _ => operator.kind ∈ Kind.logicalOperators
  | .binary _ operator _ => operator.kind ∈ Kind.binaryOperators
  | _ => True

/-- A fault that does not say that an operator is unknown. -/
def Fault.Operable : Fault → Prop
  | .typeMismatch _ mismatch => mismatch ≠ .unknownUnary ∧ mismatch ≠ .unknownBinary
  | _ => True

/-! ## Words -/

/-- Texts that begin differently are different. -/
theorem Text.append_ne {start rest text : String} (h : ¬start.toList <+: text.toList) :
    start ++ rest ≠ text := by
  rintro rfl
  rw [String.toList_append] at h
  exact h (List.prefix_append _ _)

/-- No two kinds of mismatch have the same message. -/
theorem Mismatch.message_injective : Function.Injective Mismatch.message := by
  intro m m'
  cases m <;> cases m' <;> decide

/-- The words for a mismatch are said of nothing else. -/
theorem Fault.exists_of_message {f : Fault} {m : Mismatch} (h : f.message = m.message) :
    ∃ o, f = .typeMismatch o m := by
  cases f with
  | typeMismatch o m' =>
    obtain rfl := Mismatch.message_injective h
    exact ⟨o, rfl⟩
  | undefinedVariable | arityMismatch =>
    refine absurd h ?_
    unfold Fault.message
    simp only [String.append_assoc]
    apply Text.append_ne
    cases m <;> decide
  | output =>
    refine absurd h (Text.append_ne ?_)
    cases m <;> decide
  | notCallable =>
    have hwords : "Can only call functions." ≠ m.message := by cases m <;> decide
    exact absurd h hwords
  | stackOverflow =>
    have hwords : "Stack overflow." ≠ m.message := by cases m <;> decide
    exact absurd h hwords

/-- Hence a fault that is not about an unknown operator has none of the two messages that are. -/
theorem Fault.Operable.message_ne {f : Fault} (h : f.Operable) :
    f.message ≠ "Unknown unary operator." ∧ f.message ≠ "Unknown binary operator." := by
  constructor
  · intro hf
    obtain ⟨o, rfl⟩ := Fault.exists_of_message (m := .unknownUnary) hf
    exact h.1 rfl
  · intro hf
    obtain ⟨o, rfl⟩ := Fault.exists_of_message (m := .unknownBinary) hf
    exact h.2 rfl

/-! ## The faults of operators -/

namespace Evaluation

variable {o : Token} {v w : Value} {f : Fault}

/-- A unary operator of the language can only fail because its operand is no number. -/
theorem eq_of_unary_error (ho : o.kind ∈ Kind.unaryOperators) (h : unary o v = .error f) :
    f = .typeMismatch o .operandNotNumber := by
  unfold unary at h
  split at h
  · cases h
  · cases h
    rfl
  · cases h
  · simp_all [Kind.unaryOperators]

/-- The operators that are left after sameness and addition are known to arithmetic. -/
theorem exists_arithmetic (ho : o.kind ∈ Kind.binaryOperators) (hequal : o.kind ≠ .equal)
    (hnotEqual : o.kind ≠ .notEqual) (hplus : o.kind ≠ .plus) (x y : Float) :
    ∃ v, arithmetic o x y = .ok v := by
  unfold arithmetic
  split
  case h_8 => simp_all [Kind.binaryOperators]
  all_goals exact ⟨_, rfl⟩

/-- A binary operator of the language can only fail because its operands are not alike or are no numbers. -/
theorem eq_of_binary_error (ho : o.kind ∈ Kind.binaryOperators) (h : binary o v w = .error f) :
    f = .typeMismatch o .operandsNotAlike ∨ f = .typeMismatch o .operandsNotNumbers := by
  unfold binary at h
  split at h
  · cases h
  · cases h
  · split at h
    · cases h
    · cases h
    · cases h
      exact .inl rfl
  · next hequal hnotEqual hplus =>
    split at h
    · next x y =>
      obtain ⟨z, hz⟩ := exists_arithmetic ho hequal hnotEqual hplus x y
      rw [hz] at h
      cases h
    · cases h
      exact .inr rfl

/-- Trees with operators of the language only: no operator in them is unknown. -/
def Heritage.operable : Heritage where
  expr := Expr.Everywhere Expr.Operable
  stmt := Stmt.Everywhere Expr.Operable
  fault := Fault.Operable
  expr_parts h := (Expr.everywhere_iff.1 h).2
  stmt_exprs h := (Stmt.everywhere_iff.1 h).1
  stmt_parts h := (Stmt.everywhere_iff.1 h).2
  expr_raises := by
    intro e f he hraises
    have ho := (Expr.everywhere_iff.1 he).1
    cases hraises with
    | unary h =>
      obtain rfl := eq_of_unary_error ho h
      exact ⟨nofun, nofun⟩
    | binary h =>
      rcases eq_of_binary_error ho h with rfl | rfl
      · exact ⟨nofun, nofun⟩
      · exact ⟨nofun, nofun⟩
    | _ => trivial
  stmt_raises := by
    rintro s f - ⟨⟩
    trivial

end Evaluation

end Treewalk
