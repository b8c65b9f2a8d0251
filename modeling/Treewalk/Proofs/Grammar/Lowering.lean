import Treewalk.Proofs.Grammar.Segments

/-!
# A loop is read as what it stands for

A `for` loop has three clauses, each of which may be missing. What it stands for can be written out: a block
of its first clause and a `while` loop, whose body ends with the last clause. The same clauses are then between
other tokens, but they are the same phrases there (`IsStatement.written`, `IsStatement.lowered`), and so both
texts are read as one statement. That is also so where a loop is the body of another one, and each of them is
written out (`loops_read_as_lowered`).
-/

namespace Treewalk.Grammar

variable {us : List Token} {s : Stmt}

/-! ## Texts with gaps -/

/-- A piece of a text: any token of a kind, or given tokens. -/
inductive Piece where
  | mark (kind : Kind)
  | tokens (us : List Token)

/-- The tokens are those of the pieces, one after the other. -/
def Spelt : List Piece → List Token → Prop
  | [], us => us = []
  | .mark kind :: pieces, us => ∃ t vs, us = t :: vs ∧ t.kind = kind ∧ Spelt pieces vs
  | .tokens ts :: pieces, us => ∃ vs, us = ts ++ vs ∧ Spelt pieces vs

/-- A text of two parts is a text of the one and then a text of the other. -/
theorem spelt_append {pieces pieces' : List Piece} :
    Spelt (pieces ++ pieces') us ↔ ∃ vs ws, us = vs ++ ws ∧ Spelt pieces vs ∧ Spelt pieces' ws := by
  induction pieces generalizing us with
  | nil => simp [Spelt]
  | cons piece pieces ih =>
    cases piece with
    | mark kind =>
      simp only [List.cons_append, Spelt, ih]
      constructor
      · rintro ⟨t, -, rfl, ht, vs, ws, rfl, hvs, hws⟩
        exact ⟨t :: vs, ws, rfl, ⟨t, vs, rfl, ht, hvs⟩, hws⟩
      · rintro ⟨-, ws, rfl, ⟨t, vs, rfl, ht, hvs⟩, hws⟩
        exact ⟨t, vs ++ ws, rfl, ht, vs, ws, rfl, hvs, hws⟩
    | tokens ts =>
      simp only [List.cons_append, Spelt, ih]
      constructor
      · rintro ⟨-, rfl, vs, ws, rfl, hvs, hws⟩
        exact ⟨ts ++ vs, ws, (List.append_assoc ..).symm, ⟨vs, rfl, hvs⟩, hws⟩
      · rintro ⟨-, ws, rfl, ⟨vs, rfl, hvs⟩, hws⟩
        exact ⟨vs ++ ws, List.append_assoc .., vs, ws, rfl, hvs, hws⟩

/-- Given tokens are spelt by themselves only. -/
theorem spelt_tokens {ts : List Token} : Spelt [.tokens ts] us ↔ us = ts := by
  simp [Spelt]

/-- The tokens of a piece, where any token of the kind will do. -/
def Piece.fill : Piece → List Token
  | mark kind => [filler kind]
  | tokens us => us

/-- Every text can be spelt, with a token of the right kind at each mark. -/
theorem spelt_fill {pieces : List Piece} (h : ∀ piece ∈ pieces, ∀ t ∈ piece.fill, t.kind ≠ .eof) :
    Spelt pieces (beforeEnd (pieces.flatMap Piece.fill)) := by
  have hspelt : Spelt pieces (pieces.flatMap Piece.fill) := by
    clear h
    induction pieces with
    | nil => rfl
    | cons piece pieces ih =>
      cases piece with
      | mark kind => exact ⟨filler kind, _, rfl, rfl, ih⟩
      | tokens us => exact ⟨_, rfl, ih⟩
  rwa [beforeEnd_eq_self]
  intro t ht
  obtain ⟨piece, hpiece, ht⟩ := List.mem_flatMap.1 ht
  exact h piece hpiece t ht

/-! ## Loops and what they stand for -/

/-- The clauses of a `for` loop, each of which may be missing. -/
structure Clauses (σ ε : Type) where
  init : Option σ
  condition : Option ε
  increment : Option ε

/-- The tokens of a clause that may be missing. -/
def optional (clause : Option (List Token)) : List Piece :=
  clause.toList.map .tokens

namespace Clauses

/-- A `for` loop. The first clause has its semicolon, which stands alone where the clause is missing. -/
def written (c : Clauses (List Token) (List Token)) (body : List Piece) : List Piece :=
  [.mark .kwFor, .mark .leftParen] ++ c.init.elim [.mark .semicolon] (fun us => [.tokens us]) ++
    optional c.condition ++ [.mark .semicolon] ++ optional c.increment ++ [.mark .rightParen] ++ body

/-- The body of the `while` loop, which is a block if there is a last clause. -/
def loweredBody (increment : Option (List Token)) (body : List Piece) : List Piece :=
  increment.elim body fun us =>
    [.mark .leftBrace] ++ body ++ [.tokens us, .mark .semicolon, .mark .rightBrace]

/-- The block that a `for` loop stands for. A condition that is missing is written `true`, and another clause
that is missing is left out. -/
def lowered (c : Clauses (List Token) (List Token)) (body : List Piece) : List Piece :=
  [.mark .leftBrace] ++ optional c.init ++ [.mark .kwWhile, .mark .leftParen] ++
    c.condition.elim [.mark .kwTrue] (fun us => [.tokens us]) ++ [.mark .rightParen] ++
    loweredBody c.increment body ++ [.mark .rightBrace]

/-- The tree of a `for` loop. -/
def tree (r : Clauses Stmt Expr) (body : Stmt) : Stmt :=
  forLoop r.init (r.condition.getD (.literal (.boolean true))) r.increment body

/-- The tokens are a variable declaration or an expression with its semicolon, and by themselves they are read
as `s`. -/
def ReadsFirst (us : List Token) (s : Stmt) : Prop :=
  parse us = ⟨[s], #[], false⟩ ∧ ((∃ name init, s = .var name init) ∨ ∃ e, s = .expression e)

/-- The clauses are read by themselves as the trees `r`. -/
structure Stand (c : Clauses (List Token) (List Token)) (r : Clauses Stmt Expr) : Prop where
  init : Option.Rel ReadsFirst c.init r.init
  condition : Option.Rel (ReadsAlone expression) c.condition r.condition
  increment : Option.Rel (ReadsAlone expression) c.increment r.increment

end Clauses

/-! ## The clauses as phrases -/

/-- No declarations are no tokens. -/
theorem Derives.no_declarations {b : Bool} {ss : List Stmt} {ds : List Diagnostic}
    (h : Derives (.declarations b) us ss ds) (hss : ss = []) : us = [] ∧ ds = [] := by
  cases h with
  | noDeclarations => exact ⟨rfl, rfl⟩
  | moreDeclarations => simp at hss

/-- Declarations that stand for a single statement are a declaration of it. -/
theorem Derives.one_declaration {b : Bool} {ss : List Stmt} {ds : List Diagnostic}
    (h : Derives (.declarations b) us ss ds) (hss : ss = [s]) : Derives (.declaration b) us s ds := by
  cases h with
  | noDeclarations => simp at hss
  | @moreDeclarations _ _ _ before last _ _ hbefore hs =>
    obtain ⟨rfl, rfl⟩ : before = [] ∧ last = s := by simpa [List.append_eq_singleton_iff] using hss
    obtain ⟨rfl, rfl⟩ := hbefore.no_declarations rfl
    exact hs

/-- A variable declaration or an expression with its semicolon is also the first clause of a loop. -/
theorem Derives.initializer {b : Bool} {ds : List Diagnostic} (h : Derives (.declaration b) us s ds)
    (hfirst : (∃ name init, s = .var name init) ∨ ∃ e, s = .expression e) :
    Derives .initializer us (some s) ds := by
  cases h with
  | function => simp at hfirst
  | varDeclaration hkeyword hs => exact .varInitializer hkeyword hs
  | statementDeclaration hs =>
    cases hs with
    | expressionStatement he hending => exact .expressionInitializer he hending
    | _ => simp [forLoop] at hfirst

/-- What is read as a first clause alone is a program of one statement. -/
theorem Clauses.ReadsFirst.sentence (h : Clauses.ReadsFirst us s) (hus : ∀ t ∈ us, t.kind ≠ .eof) :
    Sentence us [s] := by
  have hclean : (parse us).diagnostics = #[] := by rw [h.1]
  have hsentence := sentence_of_parse hclean
  rwa [beforeEnd_eq_self hus, h.1] at hsentence

section Clauses

variable {clause : Option (List Token)} (hus : ∀ t ∈ us, t.kind ≠ .eof)

include hus

/-- The first clause in the parentheses of a loop. -/
theorem derives_initializer {init : Option Stmt} (hinit : Option.Rel Clauses.ReadsFirst clause init)
    (h : Spelt (clause.elim [.mark .semicolon] fun us => [.tokens us]) us) :
    Derives .initializer us init [] := by
  cases hinit with
  | none =>
    obtain ⟨ending, -, rfl, hending, rfl⟩ := h
    exact .noInitializer hending
  | some hs =>
    obtain rfl := spelt_tokens.1 h
    exact (hs.sentence hus).one_declaration rfl |>.initializer hs.2

/-- The first clause in a block. -/
theorem derives_init {init : Option Stmt} (hinit : Option.Rel Clauses.ReadsFirst clause init)
    (h : Spelt (optional clause) us) : Derives (.declarations false) us init.toList [] := by
  cases hinit with
  | none =>
    obtain rfl : us = [] := h
    exact .noDeclarations
  | some hs =>
    obtain rfl := spelt_tokens.1 h
    exact hs.sentence hus

/-- What is read as an expression alone, or left out, is a clause. -/
theorem derives_clause {e : Option Expr} (he : Option.Rel (ReadsAlone expression) clause e)
    (h : Spelt (optional clause) us) : Derives .clause us e [] := by
  cases he with
  | none =>
    obtain rfl : us = [] := h
    exact .noClause
  | some he =>
    obtain rfl := spelt_tokens.1 h
    exact .someClause (he.derives_expression hus)

/-- The condition, which is `true` where it is missing. -/
theorem derives_condition {e : Option Expr} (he : Option.Rel (ReadsAlone expression) clause e)
    (h : Spelt (clause.elim [.mark .kwTrue] fun us => [.tokens us]) us) :
    Derives .expression us (e.getD (.literal (.boolean true))) [] := by
  cases he with
  | none =>
    obtain ⟨t, -, rfl, ht, rfl⟩ := h
    exact (Derives.constant (by simp [Token.constant?, ht])).expression_of_primary
  | some he =>
    obtain rfl := spelt_tokens.1 h
    exact he.derives_expression hus

end Clauses

/-! ## Loops as phrases -/

/-- Whatever tokens are spelt by the pieces, they are a statement, and stand for `s`. -/
def IsStatement (pieces : List Piece) (s : Stmt) : Prop :=
  ∀ us, (∀ t ∈ us, t.kind ≠ .eof) → Spelt pieces us →
    ∃ hanging, Derives (.statement false hanging) us s []

/-- What is read as a statement alone is one. -/
theorem ReadsAlone.isStatement (h : ReadsAlone statement us s) : IsStatement [.tokens us] s := by
  intro vs hus hvs
  obtain rfl := spelt_tokens.1 hvs
  obtain ⟨_, -, hanging, hderives, -⟩ := h.of_reads statement_reads
  rw [beforeEnd_eq_self hus] at hderives
  exact ⟨hanging, hderives⟩

/-- The body of the `while` loop, with the last clause at its end. -/
theorem IsStatement.loweredBody {clause : Option (List Token)} {increment : Option Expr}
    {body : List Piece} (hbody : IsStatement body s)
    (hincrement : Option.Rel (ReadsAlone expression) clause increment) :
    IsStatement (Clauses.loweredBody clause body)
      (increment.elim s fun e => .block [s, .expression e]) := by
  intro us hus h
  cases hincrement with
  | none => exact hbody us hus h
  | @some ts e he =>
    simp only [Clauses.loweredBody, Option.elim_some, List.cons_append, List.nil_append, spelt_append, Spelt] at h
    obtain ⟨opening, -, rfl, hopening, xs, -, rfl, hxs, -, rfl, ending, -, rfl, hending, closing, -, rfl,
      hclosing, rfl⟩ := h
    obtain ⟨hanging, hs⟩ := hbody xs (fun t ht => hus t (by simp [ht])) hxs
    have he := he.derives_expression fun t ht => hus t (by simp [ht])
    have hlast := Derives.statementDeclaration (.expressionStatement (b := false) he hending)
    have hfirst := Derives.moreDeclarations .noDeclarations (.statementDeclaration hs)
    have hblock := Derives.block hopening (.moreDeclarations hfirst hlast) hclosing
    exact ⟨false, by simpa using hblock⟩

variable {c : Clauses (List Token) (List Token)} {r : Clauses Stmt Expr} {body : List Piece}

/-- A loop is a statement. -/
theorem IsStatement.written (hbody : IsStatement body s) (hclauses : c.Stand r) :
    IsStatement (c.written body) (r.tree s) := by
  intro us hus h
  simp only [Clauses.written, List.append_assoc, List.cons_append, List.nil_append, spelt_append, Spelt] at h
  obtain ⟨keyword, -, rfl, hkeyword, opening, -, rfl, hopening, us, -, rfl, hinit, vs, -, rfl, hcondition,
    middle, -, rfl, hmiddle, ws, -, rfl, hincrement, closing, xs, rfl, hclosing, hxs⟩ := h
  have hinit := derives_initializer (fun t ht => hus t (by simp [ht])) hclauses.init hinit
  have hcondition := derives_clause (fun t ht => hus t (by simp [ht])) hclauses.condition hcondition
  have hincrement := derives_clause (fun t ht => hus t (by simp [ht])) hclauses.increment hincrement
  obtain ⟨hanging, hs⟩ := hbody xs (fun t ht => hus t (by simp [ht])) hxs
  have hloop := Derives.for hkeyword hopening hinit hcondition hmiddle hincrement hclosing hs
  exact ⟨hanging, by simpa [Clauses.tree] using hloop⟩

/-- What a loop stands for is a statement. -/
theorem IsStatement.lowered (hbody : IsStatement body s) (hclauses : c.Stand r) :
    IsStatement (c.lowered body) (r.tree s) := by
  intro us hus h
  simp only [Clauses.lowered, List.append_assoc, List.cons_append, List.nil_append, spelt_append, Spelt] at h
  obtain ⟨brace, -, rfl, hbrace, us, -, rfl, hinit, keyword, -, rfl, hkeyword, opening, -, rfl, hopening,
    vs, -, rfl, hcondition, closing, -, rfl, hclosing, xs, -, rfl, hxs, ending, -, rfl, hending, rfl⟩ := h
  have hinit := derives_init (fun t ht => hus t (by simp [ht])) hclauses.init hinit
  have hcondition := derives_condition (fun t ht => hus t (by simp [ht])) hclauses.condition hcondition
  obtain ⟨hanging, hs⟩ :=
    hbody.loweredBody hclauses.increment xs (fun t ht => hus t (by simp [ht])) hxs
  have hloop := Derives.while hkeyword hopening hcondition hclosing hs
  have hblock := Derives.block hbrace (.moreDeclarations hinit (.statementDeclaration hloop)) hending
  have htree : r.tree s = .block (r.init.toList ++ [.while (r.condition.getD (.literal (.boolean true)))
      (r.increment.elim s fun e => .block [s, .expression e])]) := by
    unfold Clauses.tree forLoop
    cases r.increment <;> rfl
  rw [htree]
  exact ⟨false, by simpa using hblock⟩

/-! ## Loops in loops -/

/-- A loop whose body is a loop, and so on, is a statement, and so is what they stand for. By induction on how
many loops there are. -/
theorem isStatement_loops {cs : List (Clauses (List Token) (List Token))} {rs : List (Clauses Stmt Expr)}
    (hclauses : List.Forall₂ Clauses.Stand cs rs) {body body' : List Piece} (hbody : IsStatement body s)
    (hbody' : IsStatement body' s) :
    IsStatement (cs.foldr Clauses.written body) (rs.foldr Clauses.tree s) ∧
      IsStatement (cs.foldr Clauses.lowered body') (rs.foldr Clauses.tree s) := by
  induction hclauses with
  | nil => exact ⟨hbody, hbody'⟩
  | cons hc _ ih => exact ⟨ih.1.written hc, ih.2.lowered hc⟩

/-- What is a statement is read as the program of this one statement. -/
theorem IsStatement.parse_eq {pieces : List Piece} {tokens : List Token} (h : IsStatement pieces s)
    (htokens : Spelt pieces (beforeEnd tokens)) : parse tokens = ⟨[s], #[], false⟩ := by
  have hus : ∀ t ∈ beforeEnd tokens, t.kind ≠ .eof := fun t ht => by
    simpa using List.mem_takeWhile_imp ht
  obtain ⟨hanging, hderives⟩ := h _ hus htokens
  have hprogram := Derives.moreDeclarations .noDeclarations (.statementDeclaration hderives)
  exact parse_of_derives hprogram

/-- **A `for` loop is read as what it stands for.** The clauses of some loops are read by themselves without
complaint, whichever of them there are, and so is a statement `s`, in one text or in two. Each loop is the body
of the one before it, and `s` is the body of the last one. Then this text is read without complaint, and so is
the text in which every loop is written out: both are the same program. -/
theorem loops_read_as_lowered {cs : List (Clauses (List Token) (List Token))}
    {rs : List (Clauses Stmt Expr)} {body body' tokens tokens' : List Token}
    (hclauses : List.Forall₂ Clauses.Stand cs rs) (hbody : ReadsAlone statement body s)
    (hbody' : ReadsAlone statement body' s)
    (hwritten : Spelt (cs.foldr Clauses.written [.tokens body]) (beforeEnd tokens))
    (hlowered : Spelt (cs.foldr Clauses.lowered [.tokens body']) (beforeEnd tokens')) :
    parse tokens = ⟨[rs.foldr Clauses.tree s], #[], false⟩ ∧ parse tokens' = parse tokens := by
  obtain ⟨hloops, hlowereds⟩ := isStatement_loops hclauses hbody.isStatement hbody'.isStatement
  have hparse := hloops.parse_eq hwritten
  exact ⟨hparse, (hlowereds.parse_eq hlowered).trans hparse.symm⟩

/-- `for (var x; ; nil) for (; nil; ) print nil;` -/
theorem loops_read_as_lowered_two :
    let x := filler .identifier
    let print := filler .kwPrint
    let body := [print, filler .kwNil, filler .semicolon]
    let outer := [filler .kwFor, filler .leftParen, filler .kwVar, x, filler .semicolon, filler .semicolon,
      filler .kwNil, filler .rightParen]
    let inner := [filler .kwFor, filler .leftParen, filler .semicolon, filler .kwNil, filler .semicolon,
      filler .rightParen]
    let outer' := [filler .leftBrace, filler .kwVar, x, filler .semicolon, filler .kwWhile, filler .leftParen,
      filler .kwTrue, filler .rightParen, filler .leftBrace]
    let inner' := [filler .leftBrace, filler .kwWhile, filler .leftParen, filler .kwNil, filler .rightParen]
    let ends := [filler .rightBrace, filler .kwNil, filler .semicolon, filler .rightBrace, filler .rightBrace]
    parse (outer ++ inner ++ body) =
      ⟨[.block [.var x none, .while (.literal (.boolean true)) (.block
        [.block [.while (.literal .nil) (.print print (.literal .nil))], .expression (.literal .nil)])]],
        #[], false⟩ ∧
    parse (outer' ++ inner' ++ body ++ ends) = parse (outer ++ inner ++ body) := by
  intro x print body outer inner outer' inner' ends
  have hnil : ReadsAlone expression [filler .kwNil] (.literal .nil) :=
    ⟨_, Routine.value_of_run rules (n := 30) rfl, rfl, rfl⟩
  have hbody : ReadsAlone statement body (.print print (.literal .nil)) :=
    ⟨_, Routine.value_of_run rules (n := 40) rfl, rfl, rfl⟩
  have hvar : Clauses.ReadsFirst [filler .kwVar, x, filler .semicolon] (.var x none) :=
    ⟨rfl, .inl ⟨_, _, rfl⟩⟩
  have houter : Clauses.Stand ⟨some [filler .kwVar, x, filler .semicolon], none, some [filler .kwNil]⟩
      ⟨some (.var x none), none, some (.literal .nil)⟩ := ⟨.some hvar, .none, .some hnil⟩
  have hinner : Clauses.Stand ⟨none, some [filler .kwNil], none⟩ ⟨none, some (.literal .nil), none⟩ :=
    ⟨.none, .some hnil, .none⟩
  refine loops_read_as_lowered (.cons houter (.cons hinner .nil)) hbody hbody ?_ ?_
  · exact spelt_fill (by decide)
  · exact spelt_fill (by decide)

end Treewalk.Grammar
