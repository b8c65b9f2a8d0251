import Treewalk.Proofs.Tree.Places
import Treewalk.Proofs.Tree.Relabel

/-!
# Where functions and faults come from

Every function that an interpreter holds after a run was declared in the program that was run, or was
held before; and the token that a fault is reported at stands in the program, or in a function held
before (`origin_of_value`). Functions that are declared inside of others count as held with these.

Which of its tokens a tree fails at depends on the kind of fault. If the tokens of a program stand at places
for their kinds, then a fault is reported at a token of a kind that such faults are for
(`Heritage.pointing`).
-/

namespace Treewalk

/-! ## Parts have no other tokens and functions -/

/-- The tokens of a list of expressions are those of its entries, one after the other. -/
theorem Expr.tokensAll_eq_flatMap (es : List Expr) : Expr.tokensAll es = es.flatMap Expr.tokens := by
  induction es with
  | nil => rfl
  | cons e es ih => rw [Expr.tokensAll, ih, List.flatMap_cons]

/-- So for a list of statements. -/
theorem Stmt.tokensAll_eq_flatMap (ss : List Stmt) : Stmt.tokensAll ss = ss.flatMap Stmt.tokens := by
  induction ss with
  | nil => rfl
  | cons s ss ih => rw [Stmt.tokensAll, ih, List.flatMap_cons]

/-- The functions declared in a list of statements are those declared in its entries. -/
theorem Stmt.functionsAll_eq_flatMap (ss : List Stmt) :
    Stmt.functionsAll ss = ss.flatMap Stmt.functions := by
  induction ss with
  | nil => rfl
  | cons s ss ih => rw [Stmt.functionsAll, ih, List.flatMap_cons]

/-- The tokens of a part are tokens of the expression. -/
theorem Expr.mem_tokens_of_part {e part : Expr} (hpart : part ∈ e.parts) {t : Token}
    (ht : t ∈ part.tokens) : t ∈ e.tokens := by
  rw [← Expr.map_places] at ht ⊢
  exact List.map_subset _ (fun _ => Expr.mem_places_of_part hpart) ht

/-- The tokens of an expression are tokens of the statement that it stands in. -/
theorem Stmt.mem_tokens_of_expr {s : Stmt} {e : Expr} (he : e ∈ s.exprs) {t : Token}
    (ht : t ∈ e.tokens) : t ∈ s.tokens := by
  rw [← Expr.map_places] at ht
  rw [← Stmt.map_places]
  exact List.map_subset _ (fun _ => Stmt.mem_places_of_expr he) ht

/-- The tokens of a part are tokens of the statement. -/
theorem Stmt.mem_tokens_of_part {s part : Stmt} (hpart : part ∈ s.parts) {t : Token}
    (ht : t ∈ part.tokens) : t ∈ s.tokens := by
  rw [← Stmt.map_places] at ht ⊢
  exact List.map_subset _ (fun _ => Stmt.mem_places_of_part hpart) ht

/-- The functions declared in a part are declared in the statement. -/
theorem Stmt.mem_functions_of_part {s part : Stmt} (hpart : part ∈ s.parts) {f : Function}
    (hf : f ∈ part.functions) : f ∈ s.functions := by
  cases s with
  | expression | print | var | «return» => cases hpart
  | block body | function _ _ body =>
    have hbody : f ∈ Stmt.functionsAll body := by
      rw [Stmt.functionsAll_eq_flatMap, List.mem_flatMap]
      exact ⟨part, hpart, hf⟩
    simp [Stmt.functions, hbody]
  | ifThen | «while» =>
    obtain rfl := List.mem_singleton.1 hpart
    exact hf
  | ifElse =>
    simp only [Stmt.parts, List.mem_cons, List.not_mem_nil, or_false] at hpart
    rcases hpart with rfl | rfl <;> simp [Stmt.functions, hf]

/-! ## Where a tree fails -/

/-- The operators that have no meaning for some values. -/
def Kind.partialOperators : List Kind :=
  [.minus, .plus, .slash, .star, .greater, .greaterEqual, .less, .lessEqual]

/-- The kinds of tokens that a fault can be reported at. -/
def Fault.kinds : Fault → List Kind
  | typeMismatch _ _ => Kind.partialOperators
  | undefinedVariable _ => [.identifier]
  | notCallable _ => [.rightParen]
  | arityMismatch _ _ _ => [.rightParen]
  | stackOverflow _ => [.rightParen]
  | output _ => [.kwPrint]

namespace Evaluation

/-- An operator with a meaning for all values does not fail. -/
theorem kind_of_unary_error {o : Token} {v : Value} {f : Fault} (h : unary o v = .error f)
    (ho : o.kind ∈ Kind.unaryOperators) : o.kind ∈ f.kinds := by
  obtain ⟨m, rfl⟩ := exists_of_unary_error h
  have hkinds : ∀ k ∈ Kind.unaryOperators, k = .not ∨ k ∈ Kind.partialOperators := by decide
  rcases hkinds _ ho with hnot | hkind
  · simp [unary, hnot] at h
  · exact hkind

/-- Where a binary operator of the language fails, it is one of those that can. -/
theorem kind_of_binary_error {o : Token} {v w : Value} {f : Fault} (h : binary o v w = .error f)
    (ho : o.kind ∈ Kind.binaryOperators) : o.kind ∈ f.kinds := by
  obtain ⟨m, rfl⟩ := exists_of_binary_error h
  have hkinds : ∀ k ∈ Kind.binaryOperators,
      k = .equal ∨ k = .notEqual ∨ k ∈ Kind.partialOperators := by decide
  rcases hkinds _ ho with hequal | hnotEqual | hkind
  · simp [binary, hequal] at h
  · simp [binary, hnotEqual] at h
  · exact hkind

/-- A tree fails at one of its own tokens, which is of a kind for such a fault if it is of a kind for its
place. -/
theorem ExprRaises.exists_place {e : Expr} {f : Fault} (h : ExprRaises e f) :
    ∃ p ∈ e.places, p.2 = f.token ∧ (p.2.kind ∈ p.1 → p.2.kind ∈ f.kinds) := by
  cases h with
  | unary h =>
    refine ⟨_, List.mem_cons_self, ?_, kind_of_unary_error h⟩
    obtain ⟨m, rfl⟩ := exists_of_unary_error h
    rfl
  | binary h =>
    refine ⟨_, List.mem_append_right _ List.mem_cons_self, ?_, kind_of_binary_error h⟩
    obtain ⟨m, rfl⟩ := exists_of_binary_error h
    rfl
  | «variable» | assign => exact ⟨_, List.mem_cons_self, rfl, id⟩
  | notCallable | arity | overflow =>
    exact ⟨_, List.mem_append_right _ List.mem_cons_self, rfl, id⟩

/-- A statement fails at a token that stands in it at a place for such faults. -/
theorem StmtRaises.exists_place {s : Stmt} {f : Fault} (h : StmtRaises s f) :
    ∃ p ∈ s.places, p.2 = f.token ∧ (p.2.kind ∈ p.1 → p.2.kind ∈ f.kinds) := by
  cases h
  exact ⟨_, List.mem_cons_self, rfl, id⟩

/-- An expression fails at one of its tokens. -/
theorem ExprRaises.token_mem {e : Expr} {f : Fault} (h : ExprRaises e f) : f.token ∈ e.tokens := by
  obtain ⟨p, hp, htoken, -⟩ := h.exists_place
  rw [← Expr.map_places, ← htoken]
  exact List.mem_map_of_mem hp

/-- A statement fails at one of its tokens. -/
theorem StmtRaises.token_mem {s : Stmt} {f : Fault} (h : StmtRaises s f) : f.token ∈ s.tokens := by
  obtain ⟨p, hp, htoken, -⟩ := h.exists_place
  rw [← Stmt.map_places, ← htoken]
  exact List.mem_map_of_mem hp

/-- Trees with given tokens only, each at a place for its kind: they fail at given tokens of the right
kind. -/
def Heritage.pointing (tokens : Token → Prop) : Heritage where
  expr e := ∀ p ∈ e.places, p.2.kind ∈ p.1 ∧ tokens p.2
  stmt s := ∀ p ∈ s.places, p.2.kind ∈ p.1 ∧ tokens p.2
  fault f := f.token.kind ∈ f.kinds ∧ tokens f.token
  expr_parts h _ hpart p hp := h p (Expr.mem_places_of_part hpart hp)
  stmt_exprs h _ he p hp := h p (Stmt.mem_places_of_expr he hp)
  stmt_parts h _ hpart p hp := h p (Stmt.mem_places_of_part hpart hp)
  expr_raises h hraises := by
    obtain ⟨p, hp, htoken, hkind⟩ := hraises.exists_place
    rw [← htoken]
    exact ⟨hkind (h p hp).1, (h p hp).2⟩
  stmt_raises h hraises := by
    obtain ⟨p, hp, htoken, hkind⟩ := hraises.exists_place
    rw [← htoken]
    exact ⟨hkind (h p hp).1, (h p hp).2⟩

/-- Trees with given tokens and functions only: they fail at given tokens only. -/
def Heritage.within (tokens : Token → Prop) (functions : Function → Prop) : Heritage where
  expr e := ∀ t ∈ e.tokens, tokens t
  stmt s := (∀ t ∈ s.tokens, tokens t) ∧ ∀ f ∈ s.functions, functions f
  fault f := tokens f.token
  expr_parts h _ hpart t ht := h t (Expr.mem_tokens_of_part hpart ht)
  stmt_exprs h _ he t ht := h.1 t (Stmt.mem_tokens_of_expr he ht)
  stmt_parts h _ hpart := ⟨fun t ht => h.1 t (Stmt.mem_tokens_of_part hpart ht),
    fun f hf => h.2 f (Stmt.mem_functions_of_part hpart hf)⟩
  expr_raises h hraises := h _ hraises.token_mem
  stmt_raises h hraises := h.1 _ hraises.token_mem

end Evaluation

/-! ## What an interpreter holds -/

/-- A function that is the value of a variable, or is declared inside of one. -/
def Store.Declares (s : Store) (f : Function) : Prop :=
  ∃ c, s.Binds (.function c) ∧ f ∈ c.declaration.toStmt.functions

/-- A token of a function that is the value of a variable. -/
def Store.Mentions (s : Store) (t : Token) : Prop :=
  ∃ c, s.Binds (.function c) ∧ t ∈ c.declaration.toStmt.tokens

namespace Evaluation

/-- What a store mentions and declares is a heritage that everything in it belongs to. -/
theorem Heritage.holdsAll_within {tokens : Token → Prop} {functions : Function → Prop} {s : Store}
    (htokens : ∀ t, s.Mentions t → tokens t) (hfunctions : ∀ f, s.Declares f → functions f) :
    (Heritage.within tokens functions).HoldsAll s := by
  intro v hv
  cases v with
  | function c =>
    exact ⟨fun t ht => htokens t ⟨c, hv, ht⟩, fun f hf => hfunctions f ⟨c, hv, hf⟩⟩
  | _ => trivial

/-- **Functions and faults come from the program or from what was held before.** -/
theorem origin_of_value {program : List Stmt} {s t : State} {result : Except Fault Flow}
    (h : Routine.value rules (execAll program) s = some (result, t)) :
    (∀ f, result = .error f →
      s.store.Mentions f.token ∨ f.token ∈ Stmt.tokensAll program) ∧
    ∀ f, t.store.Declares f → s.store.Declares f ∨ f ∈ Stmt.functionsAll program := by
  let H := Heritage.within (fun t => s.store.Mentions t ∨ t ∈ Stmt.tokensAll program)
    fun f => s.store.Declares f ∨ f ∈ Stmt.functionsAll program
  have hprogram : ∀ st ∈ program, H.stmt st := by
    intro st hst
    constructor
    · intro t ht
      rw [Stmt.tokensAll_eq_flatMap, List.mem_flatMap]
      exact .inr ⟨st, hst, ht⟩
    · intro f hf
      rw [Stmt.functionsAll_eq_flatMap, List.mem_flatMap]
      exact .inr ⟨st, hst, hf⟩
  have hs : H.HoldsAll s.store := Heritage.holdsAll_within (fun _ => .inl) fun _ => .inl
  obtain ⟨hresult, ht⟩ := Heritage.outcome_of_value (Heritage.handsDown_execAll hprogram) hs h
  constructor
  · rintro f rfl
    exact hresult
  · rintro f ⟨c, hc, hf⟩
    exact (ht _ hc).2 f hf

end Evaluation

end Treewalk
