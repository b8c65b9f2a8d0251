import Treewalk.Proofs.Grammar.Acceptance
import Treewalk.Proofs.Grammar.Operators

/-!
# The places of tokens in a tree

A tree keeps tokens for a purpose: a name, an operator, the parenthesis or the keyword that a failure is
reported at. Each of these places can be filled with tokens of few kinds only. `Expr.places` and
`Stmt.places` list the tokens of a tree with the kinds that can stand where they stand; the tokens alone are
`Expr.tokens` and `Stmt.tokens` (`Expr.map_places`, `Stmt.map_places`), and a tree has the places of its
parts. What a phrase of the grammar stands for has tokens of the phrase only, each at a place for its kind
(`Derives.places`).
-/

namespace Treewalk

mutual

/-- The tokens that an expression keeps, each with the kinds of tokens that can stand there. -/
def Expr.places : Expr → List (List Kind × Token)
  | .literal _ => []
  | .grouping inner => inner.places
  | .unary operator right => (Kind.unaryOperators, operator) :: right.places
  | .binary left operator right => left.places ++ (Kind.binaryOperators, operator) :: right.places
  | .logical left operator right => left.places ++ (Kind.logicalOperators, operator) :: right.places
  | .variable name => [([.identifier], name)]
  | .assign name value => ([.identifier], name) :: value.places
  | .call callee paren args => callee.places ++ Expr.placesAll args ++ [([.rightParen], paren)]

/-- The tokens that some expressions keep, with the kinds that can stand there. -/
def Expr.placesAll : List Expr → List (List Kind × Token)
  | [] => []
  | e :: es => e.places ++ Expr.placesAll es

end

/-- The tokens that an expression keeps, if there is one, with the kinds that can stand there. -/
def Expr.places? : Option Expr → List (List Kind × Token)
  | none => []
  | some e => e.places

mutual

/-- The tokens that a statement keeps, each with the kinds of tokens that can stand there. -/
def Stmt.places : Stmt → List (List Kind × Token)
  | .expression e => e.places
  | .print keyword e => ([.kwPrint], keyword) :: e.places
  | .var name init => ([.identifier], name) :: Expr.places? init
  | .block body => Stmt.placesAll body
  | .ifThen condition consequent => condition.places ++ consequent.places
  | .ifElse condition consequent alternative =>
    condition.places ++ consequent.places ++ alternative.places
  | .while condition body => condition.places ++ body.places
  | .function name params body =>
    ([.identifier], name) :: params.map ([.identifier], ·) ++ Stmt.placesAll body
  | .return keyword value => ([.kwReturn], keyword) :: Expr.places? value

/-- The tokens that some statements keep, with the kinds that can stand there. -/
def Stmt.placesAll : List Stmt → List (List Kind × Token)
  | [] => []
  | s :: ss => s.places ++ Stmt.placesAll ss

end

/-! ## The tokens at the places -/

mutual

/-- The tokens at the places of an expression are its tokens. -/
theorem Expr.map_places : (e : Expr) → e.places.map Prod.snd = e.tokens
  | .literal _ => rfl
  | .grouping e => Expr.map_places e
  | .unary _ e => by simp [Expr.places, Expr.tokens, Expr.map_places e]
  | .binary e _ f => by simp [Expr.places, Expr.tokens, Expr.map_places e, Expr.map_places f]
  | .logical e _ f => by simp [Expr.places, Expr.tokens, Expr.map_places e, Expr.map_places f]
  | .variable _ => rfl
  | .assign _ e => by simp [Expr.places, Expr.tokens, Expr.map_places e]
  | .call e _ es => by simp [Expr.places, Expr.tokens, Expr.map_places e, Expr.map_placesAll es]

/-- The tokens at the places of some expressions are their tokens. -/
theorem Expr.map_placesAll : (es : List Expr) → (Expr.placesAll es).map Prod.snd = Expr.tokensAll es
  | [] => rfl
  | e :: es => by simp [Expr.placesAll, Expr.tokensAll, Expr.map_places e, Expr.map_placesAll es]

end

/-- The tokens at the places of an expression that may be missing are its tokens. -/
theorem Expr.map_places? (o : Option Expr) : (Expr.places? o).map Prod.snd = Expr.tokens? o := by
  cases o with
  | none => rfl
  | some e => exact e.map_places

mutual

/-- The tokens at the places of a statement are its tokens. -/
theorem Stmt.map_places : (s : Stmt) → s.places.map Prod.snd = s.tokens
  | .expression e => e.map_places
  | .print _ e => by simp [Stmt.places, Stmt.tokens, e.map_places]
  | .var _ i => by simp [Stmt.places, Stmt.tokens, Expr.map_places? i]
  | .block b => Stmt.map_placesAll b
  | .ifThen c s => by simp [Stmt.places, Stmt.tokens, c.map_places, Stmt.map_places s]
  | .ifElse c s t => by
    simp [Stmt.places, Stmt.tokens, c.map_places, Stmt.map_places s, Stmt.map_places t]
  | .while c s => by simp [Stmt.places, Stmt.tokens, c.map_places, Stmt.map_places s]
  | .function _ _ b => by simp [Stmt.places, Stmt.tokens, Stmt.map_placesAll b, Function.comp_def]
  | .return _ v => by simp [Stmt.places, Stmt.tokens, Expr.map_places? v]

/-- The tokens at the places of some statements are their tokens. -/
theorem Stmt.map_placesAll : (ss : List Stmt) → (Stmt.placesAll ss).map Prod.snd = Stmt.tokensAll ss
  | [] => rfl
  | s :: ss => by simp [Stmt.placesAll, Stmt.tokensAll, Stmt.map_places s, Stmt.map_placesAll ss]

end

/-! ## Parts have no other places -/

variable {p : List Kind × Token}

/-- A place in some expressions is a place in one of them. -/
theorem Expr.mem_placesAll {es : List Expr} : p ∈ Expr.placesAll es ↔ ∃ e ∈ es, p ∈ e.places := by
  induction es with
  | nil => simp [Expr.placesAll]
  | cons e es ih => simp [Expr.placesAll, ih]

/-- A place in some statements is a place in one of them. -/
theorem Stmt.mem_placesAll {ss : List Stmt} : p ∈ Stmt.placesAll ss ↔ ∃ s ∈ ss, p ∈ s.places := by
  induction ss with
  | nil => simp [Stmt.placesAll]
  | cons s ss ih => simp [Stmt.placesAll, ih]

/-- A place in an expression that may be missing is a place in the expression that is there. -/
theorem Expr.mem_places? {o : Option Expr} : p ∈ Expr.places? o ↔ ∃ e ∈ o.toList, p ∈ e.places := by
  cases o <;> simp [Expr.places?]

/-- The places of a part are places of the expression. -/
theorem Expr.mem_places_of_part {e part : Expr} (hpart : part ∈ e.parts) (hp : p ∈ part.places) :
    p ∈ e.places := by
  cases e with
  | literal | «variable» => cases hpart
  | grouping | unary | assign =>
    obtain rfl := List.mem_singleton.1 hpart
    simp [Expr.places, hp]
  | binary | logical =>
    simp only [Expr.parts, List.mem_cons, List.not_mem_nil, or_false] at hpart
    rcases hpart with rfl | rfl <;> simp [Expr.places, hp]
  | call callee paren args =>
    simp only [Expr.places, List.mem_append, Expr.mem_placesAll]
    rcases List.mem_cons.1 hpart with rfl | hpart
    · exact .inl (.inl hp)
    · exact .inl (.inr ⟨part, hpart, hp⟩)

/-- The places of an expression in a statement are places of the statement. -/
theorem Stmt.mem_places_of_expr {s : Stmt} {e : Expr} (he : e ∈ s.exprs) (hp : p ∈ e.places) :
    p ∈ s.places := by
  cases s with
  | block | function => cases he
  | var | «return» => exact List.mem_cons_of_mem _ (Expr.mem_places?.2 ⟨e, he, hp⟩)
  | _ =>
    obtain rfl := List.mem_singleton.1 he
    simp [Stmt.places, hp]

/-- The places of a part are places of the statement. -/
theorem Stmt.mem_places_of_part {s part : Stmt} (hpart : part ∈ s.parts) (hp : p ∈ part.places) :
    p ∈ s.places := by
  cases s with
  | expression | print | var | «return» => cases hpart
  | block body => exact Stmt.mem_placesAll.2 ⟨part, hpart, hp⟩
  | function _ _ body => exact List.mem_append_right _ (Stmt.mem_placesAll.2 ⟨part, hpart, hp⟩)
  | ifThen | «while» =>
    obtain rfl := List.mem_singleton.1 hpart
    simp [Stmt.places, hp]
  | ifElse =>
    simp only [Stmt.parts, List.mem_cons, List.not_mem_nil, or_false] at hpart
    rcases hpart with rfl | rfl <;> simp [Stmt.places, hp]

/-! ## The places of a phrase -/

namespace Grammar

/-- The tokens that the tree of a phrase keeps, with the kinds that can stand there. -/
def Symbol.places : (x : Symbol) → x.Tree → List (List Kind × Token)
  | declarations _ => Stmt.placesAll
  | declaration _ => Stmt.places
  | .variable => Stmt.places
  | parameterList => List.map ([.identifier], ·)
  | parameters => List.map ([.identifier], ·)
  | statement _ _ => Stmt.places
  | initializer => fun init => Stmt.placesAll init.toList
  | clause => Expr.places?
  | expression => Expr.places
  | operation _ => Expr.places
  | operand _ => Expr.places
  | unary => Expr.places
  | call => Expr.places
  | argumentList => Expr.placesAll
  | arguments => Expr.placesAll
  | primary => Expr.places

/-- Joining two operands adds one place, for an operator that suits the level. -/
theorem exists_places_join (level : Level) (left right : Expr) (operator : Token) :
    ∃ kinds, (level.join left operator right).places = left.places ++ (kinds, operator) :: right.places ∧
      ((level.join left operator right).Operable → operator.kind ∈ kinds) := by
  cases level <;> exact ⟨_, rfl, id⟩

/-- A condition that is supplied has no places. -/
theorem mem_places_condition {condition : Option Expr} :
    p ∈ (condition.getD (.literal (.boolean true))).places ↔ p ∈ Expr.places? condition := by
  cases condition with
  | none => simp [Expr.places, Expr.places?]
  | some e => rfl

/-- The places of a `for` are those of its clauses and of its body, however it is lowered. -/
theorem mem_places_forLoop {init : Option Stmt} {condition : Expr} {increment : Option Expr}
    {body : Stmt} : p ∈ (forLoop init condition increment body).places ↔
      p ∈ Stmt.placesAll init.toList ∨ p ∈ condition.places ∨ p ∈ body.places ∨
        p ∈ Expr.places? increment := by
  cases init <;> cases increment <;> simp [forLoop, Stmt.places, Stmt.placesAll, Expr.places?]

/-- An assignment has no places but those of its target and its value. -/
theorem mem_places_assignment {target value : Expr} (hp : p ∈ (assignment target value).places) :
    p ∈ target.places ∨ p ∈ value.places := by
  cases target with
  | «variable» =>
    rcases List.mem_cons.1 hp with rfl | hp
    · exact .inl List.mem_cons_self
    · exact .inr hp
  | _ => exact .inl hp

attribute [local simp] Symbol.places Expr.places Stmt.places Expr.places? Expr.placesAll Stmt.placesAll
  Expr.mem_placesAll Stmt.mem_placesAll mem_places_forLoop mem_places_condition

/-- **A phrase stands for a tree with tokens of the phrase only, each at a place for its kind.** -/
theorem Derives.places {x : Symbol} {us : List Token} {r : x.Tree} {ds : List Diagnostic}
    (h : Derives x us r ds) : ∀ p ∈ x.places r, p.2.kind ∈ p.1 ∧ p.2 ∈ us := by
  intro p
  induction h with
  | assignment _ _ _ iht ihv =>
    intro hp
    rcases mem_places_assignment hp with hp | hp
    · exact ⟨(iht hp).1, List.mem_append_left _ (iht hp).2⟩
    · exact ⟨(ihv hp).1, List.mem_append_right _ (List.mem_cons_of_mem _ (ihv hp).2)⟩
  | @moreOperations level _ _ operator _ _ left right _ _ hrung _ hoperator _ ih ih' =>
    obtain ⟨rfl, rfl⟩ := rung_mem_iff.1 hrung
    obtain ⟨kinds, hplaces, hkinds⟩ := exists_places_join level left right operator
    have hkind := hkinds (operable_join hoperator left right)
    simp only [Symbol.places, hplaces] at ih ih' ⊢
    grind
  | unary hoperator =>
    simp_all
    grind [Kind.unaryOperators]
  | _ => simp_all <;> grind

end Grammar

end Treewalk
