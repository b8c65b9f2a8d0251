import Treewalk.Proofs.Grammar.Acceptance

/-!
# Trees with other tokens

The same tree with every token replaced by another one, and the functions that are declared in a tree.
What a tree is made of is replaced with it: its tokens (`Stmt.tokensAll_relabel`) and the functions
declared in it (`Stmt.functionsAll_relabel`).
-/

namespace Treewalk

variable (φ ψ : Token → Token)

/-! ## Replacing tokens -/

/-- Tokens are replaced by tokens of the same kind, with the same text and value: only their places
may change. -/
structure Token.Moves (φ : Token → Token) : Prop where
  kind_eq : ∀ t, (φ t).kind = t.kind
  lexeme_eq : ∀ t, (φ t).lexeme = t.lexeme
  literal_eq : ∀ t, (φ t).literal = t.literal

mutual

/-- The expression with every token replaced. -/
def Expr.relabel : Expr → Expr
  | .literal value => .literal value
  | .grouping inner => .grouping inner.relabel
  | .unary operator right => .unary (φ operator) right.relabel
  | .binary left operator right => .binary left.relabel (φ operator) right.relabel
  | .logical left operator right => .logical left.relabel (φ operator) right.relabel
  | .variable name => .variable (φ name)
  | .assign name value => .assign (φ name) value.relabel
  | .call callee paren args => .call callee.relabel (φ paren) (Expr.relabelAll args)

/-- The expressions with every token replaced. -/
def Expr.relabelAll : List Expr → List Expr
  | [] => []
  | e :: es => e.relabel :: Expr.relabelAll es

end

mutual

/-- The statement with every token replaced. -/
def Stmt.relabel : Stmt → Stmt
  | .expression e => .expression (e.relabel φ)
  | .print keyword e => .print (φ keyword) (e.relabel φ)
  | .var name init => .var (φ name) (init.map (Expr.relabel φ))
  | .block body => .block (Stmt.relabelAll body)
  | .ifThen condition consequent => .ifThen (condition.relabel φ) consequent.relabel
  | .ifElse condition consequent alternative =>
    .ifElse (condition.relabel φ) consequent.relabel alternative.relabel
  | .while condition body => .while (condition.relabel φ) body.relabel
  | .function name params body => .function (φ name) (params.map φ) (Stmt.relabelAll body)
  | .return keyword value => .return (φ keyword) (value.map (Expr.relabel φ))

/-- The statements with every token replaced. -/
def Stmt.relabelAll : List Stmt → List Stmt
  | [] => []
  | s :: ss => s.relabel :: Stmt.relabelAll ss

end

/-- The function with every token replaced. -/
def Function.relabel (f : Function) : Function :=
  ⟨φ f.name, f.params.map φ, Stmt.relabelAll φ f.body⟩

/-- Replacing the tokens of some expressions is replacing those of each. -/
theorem Expr.relabelAll_eq_map (es : List Expr) : Expr.relabelAll φ es = es.map (Expr.relabel φ) := by
  induction es with
  | nil => rfl
  | cons e es ih => rw [Expr.relabelAll, List.map_cons, ih]

/-- Replacing the tokens of some statements is replacing those of each. -/
theorem Stmt.relabelAll_eq_map (ss : List Stmt) : Stmt.relabelAll φ ss = ss.map (Stmt.relabel φ) := by
  induction ss with
  | nil => rfl
  | cons s ss ih => rw [Stmt.relabelAll, List.map_cons, ih]

/-! ## Replacing tokens twice, or not at all -/

mutual

/-- Replacing the tokens of an expression twice is replacing them once by both replacements. -/
theorem Expr.relabel_relabel : (e : Expr) → (e.relabel φ).relabel ψ = e.relabel (ψ ∘ φ)
  | .literal _ => rfl
  | .grouping e | .unary _ e | .assign _ e => by
    simp only [Expr.relabel, e.relabel_relabel, Function.comp]
  | .binary e _ f | .logical e _ f => by
    simp only [Expr.relabel, e.relabel_relabel, f.relabel_relabel, Function.comp]
  | .variable _ => rfl
  | .call e _ es => by
    simp only [Expr.relabel, e.relabel_relabel, Expr.relabelAll_relabelAll es, Function.comp]

/-- Replacing the tokens of some expressions twice is replacing them once by both replacements. -/
theorem Expr.relabelAll_relabelAll :
    (es : List Expr) → Expr.relabelAll ψ (Expr.relabelAll φ es) = Expr.relabelAll (ψ ∘ φ) es
  | [] => rfl
  | e :: es => by simp only [Expr.relabelAll, e.relabel_relabel, Expr.relabelAll_relabelAll es]

end

/-- The same for an expression that may be missing. -/
theorem Expr.map_relabel_relabel (o : Option Expr) :
    (o.map (Expr.relabel φ)).map (Expr.relabel ψ) = o.map (Expr.relabel (ψ ∘ φ)) := by
  rw [Option.map_map]
  exact Option.map_congr fun e _ => e.relabel_relabel φ ψ

mutual

/-- Replacing the tokens of a statement twice is replacing them once by both replacements. -/
theorem Stmt.relabel_relabel : (s : Stmt) → (s.relabel φ).relabel ψ = s.relabel (ψ ∘ φ)
  | .expression e | .print _ e => by simp only [Stmt.relabel, e.relabel_relabel, Function.comp]
  | .var _ o | .return _ o => by
    simp only [Stmt.relabel, Expr.map_relabel_relabel φ ψ o, Function.comp]
  | .block b => by simp only [Stmt.relabel, Stmt.relabelAll_relabelAll b]
  | .ifThen c s | .while c s => by
    simp only [Stmt.relabel, c.relabel_relabel, s.relabel_relabel]
  | .ifElse c s t => by
    simp only [Stmt.relabel, c.relabel_relabel, s.relabel_relabel, t.relabel_relabel]
  | .function _ ps b => by
    simp only [Stmt.relabel, List.map_map, Stmt.relabelAll_relabelAll b, Function.comp]

/-- Replacing the tokens of some statements twice is replacing them once by both replacements. -/
theorem Stmt.relabelAll_relabelAll :
    (ss : List Stmt) → Stmt.relabelAll ψ (Stmt.relabelAll φ ss) = Stmt.relabelAll (ψ ∘ φ) ss
  | [] => rfl
  | s :: ss => by simp only [Stmt.relabelAll, s.relabel_relabel, Stmt.relabelAll_relabelAll ss]

end

mutual

/-- An expression with its own tokens is itself. -/
theorem Expr.relabel_id : (e : Expr) → e.relabel id = e
  | .literal _ => rfl
  | .grouping e | .unary _ e | .assign _ e => by simp only [Expr.relabel, e.relabel_id, id]
  | .binary e _ f | .logical e _ f => by
    simp only [Expr.relabel, e.relabel_id, f.relabel_id, id]
  | .variable _ => rfl
  | .call e _ es => by simp only [Expr.relabel, e.relabel_id, Expr.relabelAll_id es, id]

/-- Expressions with their own tokens are themselves. -/
theorem Expr.relabelAll_id : (es : List Expr) → Expr.relabelAll id es = es
  | [] => rfl
  | e :: es => by simp only [Expr.relabelAll, e.relabel_id, Expr.relabelAll_id es]

end

mutual

/-- A statement with its own tokens is itself. -/
theorem Stmt.relabel_id : (s : Stmt) → s.relabel id = s
  | .expression e | .print _ e => by simp only [Stmt.relabel, e.relabel_id, id]
  | .var _ o | .return _ o => by
    have hid : Expr.relabel id = id := funext Expr.relabel_id
    simp only [Stmt.relabel, hid, Option.map_id, id]
  | .block b => by simp only [Stmt.relabel, Stmt.relabelAll_id b]
  | .ifThen c s | .while c s => by simp only [Stmt.relabel, c.relabel_id, s.relabel_id]
  | .ifElse c s t => by simp only [Stmt.relabel, c.relabel_id, s.relabel_id, t.relabel_id]
  | .function _ ps b => by simp only [Stmt.relabel, List.map_id, Stmt.relabelAll_id b, id]

/-- Statements with their own tokens are themselves. -/
theorem Stmt.relabelAll_id : (ss : List Stmt) → Stmt.relabelAll id ss = ss
  | [] => rfl
  | s :: ss => by simp only [Stmt.relabelAll, s.relabel_id, Stmt.relabelAll_id ss]

end

/-- Replacing the tokens of a function twice is replacing them once by both replacements. -/
theorem Function.relabel_relabel (f : Function) : (f.relabel φ).relabel ψ = f.relabel (ψ ∘ φ) := by
  simp only [Function.relabel, List.map_map, Stmt.relabelAll_relabelAll, Function.comp]

/-- A function with its own tokens is itself. -/
theorem Function.relabel_id (f : Function) : f.relabel id = f := by
  simp only [Function.relabel, List.map_id, Stmt.relabelAll_id, id]

/-! ## The tokens and the functions of a tree -/

mutual

/-- The tokens of an expression are replaced with it. -/
theorem Expr.tokens_relabel : (e : Expr) → (e.relabel φ).tokens = e.tokens.map φ
  | .literal _ => rfl
  | .grouping e | .unary _ e | .assign _ e => by
    simp only [Expr.relabel, Expr.tokens, e.tokens_relabel, List.map_cons]
  | .binary e _ f | .logical e _ f => by
    simp only [Expr.relabel, Expr.tokens, e.tokens_relabel, f.tokens_relabel, List.map_append,
      List.map_cons]
  | .variable _ => rfl
  | .call e _ es => by
    simp only [Expr.relabel, Expr.tokens, e.tokens_relabel, Expr.tokensAll_relabel es,
      List.map_append, List.map_cons, List.map_nil]

/-- The tokens of some expressions are replaced with them. -/
theorem Expr.tokensAll_relabel :
    (es : List Expr) → Expr.tokensAll (Expr.relabelAll φ es) = (Expr.tokensAll es).map φ
  | [] => rfl
  | e :: es => by
    simp only [Expr.relabelAll, Expr.tokensAll, e.tokens_relabel, Expr.tokensAll_relabel es,
      List.map_append]

end

/-- The tokens of an expression that may be missing are replaced with it. -/
theorem Expr.tokens?_relabel (o : Option Expr) :
    Expr.tokens? (o.map (Expr.relabel φ)) = (Expr.tokens? o).map φ := by
  cases o with
  | none => rfl
  | some e => exact e.tokens_relabel φ

mutual

/-- The tokens of a statement are replaced with it. -/
theorem Stmt.tokens_relabel : (s : Stmt) → (s.relabel φ).tokens = s.tokens.map φ
  | .expression e | .print _ e => by
    simp only [Stmt.relabel, Stmt.tokens, e.tokens_relabel, List.map_cons]
  | .var _ o | .return _ o => by
    simp only [Stmt.relabel, Stmt.tokens, Expr.tokens?_relabel, List.map_cons]
  | .block b => by simp only [Stmt.relabel, Stmt.tokens, Stmt.tokensAll_relabel b]
  | .ifThen c s | .while c s => by
    simp only [Stmt.relabel, Stmt.tokens, c.tokens_relabel, s.tokens_relabel, List.map_append]
  | .ifElse c s t => by
    simp only [Stmt.relabel, Stmt.tokens, c.tokens_relabel, s.tokens_relabel, t.tokens_relabel,
      List.map_append]
  | .function _ ps b => by
    simp only [Stmt.relabel, Stmt.tokens, Stmt.tokensAll_relabel b, List.map_append, List.map_cons]

/-- **The tokens of some statements are replaced with them**, each in its place and in the same order. -/
theorem Stmt.tokensAll_relabel :
    (ss : List Stmt) → Stmt.tokensAll (Stmt.relabelAll φ ss) = (Stmt.tokensAll ss).map φ
  | [] => rfl
  | s :: ss => by
    simp only [Stmt.relabelAll, Stmt.tokensAll, s.tokens_relabel, Stmt.tokensAll_relabel ss,
      List.map_append]

end

mutual

/-- The functions that are declared in a statement, inside other functions too. -/
def Stmt.functions : Stmt → List Function
  | .block body => Stmt.functionsAll body
  | .ifThen _ consequent => consequent.functions
  | .ifElse _ consequent alternative => consequent.functions ++ alternative.functions
  | .while _ body => body.functions
  | .function name params body => ⟨name, params, body⟩ :: Stmt.functionsAll body
  | _ => []

/-- The functions that are declared in some statements. -/
def Stmt.functionsAll : List Stmt → List Function
  | [] => []
  | s :: ss => s.functions ++ Stmt.functionsAll ss

end

mutual

/-- The functions declared in a statement are replaced with it. -/
theorem Stmt.functions_relabel :
    (s : Stmt) → (s.relabel φ).functions = s.functions.map (Function.relabel φ)
  | .expression _ | .print _ _ | .var _ _ | .return _ _ => rfl
  | .block b => by simp only [Stmt.relabel, Stmt.functions, Stmt.functionsAll_relabel b]
  | .ifThen _ s | .while _ s => by simp only [Stmt.relabel, Stmt.functions, s.functions_relabel]
  | .ifElse _ s t => by
    simp only [Stmt.relabel, Stmt.functions, s.functions_relabel, t.functions_relabel,
      List.map_append]
  | .function _ ps b => by
    simp only [Stmt.relabel, Stmt.functions, Stmt.functionsAll_relabel b, List.map_cons,
      Function.relabel]

/-- **The functions declared in some statements are replaced with them**, with the tokens of their
bodies. -/
theorem Stmt.functionsAll_relabel : (ss : List Stmt) →
    Stmt.functionsAll (Stmt.relabelAll φ ss) = (Stmt.functionsAll ss).map (Function.relabel φ)
  | [] => rfl
  | s :: ss => by
    simp only [Stmt.relabelAll, Stmt.functionsAll, s.functions_relabel,
      Stmt.functionsAll_relabel ss, List.map_append]

end

end Treewalk
