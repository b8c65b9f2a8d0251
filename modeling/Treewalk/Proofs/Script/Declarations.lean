import Mathlib.Logic.Relation
import Treewalk.Proofs.Evaluation.Declarations
import Treewalk.Proofs.Grammar.Progress

/-!
# Where a program can declare names

In a tree, a declaration may stand anywhere. The parser reads declarations only in a program, in a block and
in the body of a function; where it reads a statement, as it does for the branches of an `if` and for the
body of a loop, there is none. So every statement of a program that was read, however deep it stands, is a
declaration or declares nothing where it stands (`declares_of_parse`); this is so for the statements that
are left of a faulty text, too.

## Main statement

`declarations_local`: what an execution adds to the names of the frames that there were before it.
-/

namespace Treewalk

open Relation (ReflTransGen)

/-! ## Statements that declare nothing where they stand -/

/-- A variable or a function is declared. -/
def Stmt.IsDeclaration : Stmt → Prop
  | .var _ _ => True
  | .function _ _ _ => True
  | _ => False

/-- The second statement is the first or stands in it, however deep. -/
def Stmt.Contains : Stmt → Stmt → Prop :=
  ReflTransGen fun st part => part ∈ st.parts

/-- Only declarations declare names where they stand. -/
def Stmt.Scoped (st : Stmt) : Prop :=
  ∀ part, st.Contains part → ¬part.IsDeclaration → part.declares = []

/-- A statement is scoped exactly if it declares nothing itself, a declaration apart, and its direct
parts are scoped. -/
theorem Stmt.scoped_iff {st : Stmt} :
    st.Scoped ↔ (¬st.IsDeclaration → st.declares = []) ∧ ∀ part ∈ st.parts, part.Scoped := by
  constructor
  · intro h
    exact ⟨h st .refl, fun part hpart d hd => h d (.head hpart hd)⟩
  · rintro ⟨hst, hparts⟩ d hd
    obtain rfl | ⟨part, hpart, hd⟩ := ReflTransGen.cases_head hd
    · exact hst
    · exact hparts part hpart d hd

namespace Grammar

open Routine (call become attempt value)

/-! ## What the parser makes -/

/-- What a goal gives: a statement that declares nothing where it stands, or a declaration. -/
def Goal.Fits : (g : Goal) → g.Result → Prop
  | .program read, body => (∀ st ∈ read, st.Scoped) → ∀ st ∈ body, st.Scoped
  | .block read, body => (∀ st ∈ read, st.Scoped) → ∀ st ∈ body, st.Scoped
  | .declaration, result => ∀ st ∈ result, st.Scoped
  | .statement, st => st.Scoped ∧ st.declares = []
  | _, _ => True

/-- Goals give what they should. -/
def scoping : Routine.Contract Goal.Result Abandoned State where
  pre _ := True
  post q out := ∀ r, out.1 = .ok r → q.1.Fits r

/-- The result of a part of the parser, if it has one, is as it should be. -/
def Gives {α : Type} (good : α → Prop) (x : Parse α) : Prop :=
  ∀ s, x.Meets scoping s fun out => ∀ a, out.1 = .ok a → good a

section Gives

variable {α β : Type} {good : α → Prop} {good' : β → Prop}

/-- What is simply returned is good if the value is. -/
theorem gives_pure {a : α} (h : good a) : Gives good (pure a) := by
  rintro s _ ⟨⟩
  exact h

/-- A called goal gives what fits it. -/
theorem gives_call (g : Goal) : Gives g.Fits (call g) :=
  fun _ => ⟨trivial, fun _ hout => hout⟩

/-- A goal that is gone over to gives what fits it. -/
theorem gives_become (g : Goal) : Gives g.Fits (become g) :=
  fun _ => ⟨trivial, fun _ hout => hout⟩

/-- Nothing is presupposed of a goal that is called, so nothing need be known to have no demands. -/
theorem gives_any (x : Parse α) : Gives (fun _ => True) x := by
  intro s
  have hplan : ∀ p : Plan (Reply Goal.Result Abandoned State) (Except Abandoned α × State),
      p.Meets scoping fun out => ∀ a, out.1 = .ok a → True := by
    intro p
    induction p with
    | done out => exact fun _ _ => trivial
    | ask q k ih => exact ⟨trivial, fun r _ => ih r⟩
    | pass q e => exact ⟨trivial, fun _ _ _ _ => trivial⟩
  exact hplan (x s)

/-- In a sequence, the second parser may rely on what the first one gave being good. -/
theorem gives_bind {x : Parse α} {f : α → Parse β} (hx : Gives good x)
    (hf : ∀ a, good a → Gives good' (f a)) : Gives good' (x >>= f) := by
  intro s
  rw [Routine.meets_bind]
  refine (hx s).mono ?_
  rintro ⟨e | a, s'⟩ ha
  · rintro _ ⟨⟩
  · exact hf a (ha a rfl) s'

/-- A sequence gives what its second parser gives, whatever the first one returned. -/
theorem gives_then {x : Parse α} {f : α → Parse β} (hf : ∀ a, Gives good' (f a)) :
    Gives good' (x >>= f) :=
  gives_bind (gives_any x) fun a _ => hf a

/-- Restoring the state afterwards changes nothing in what a parser gives. -/
theorem gives_ensuring {x : Parse α} (hx : Gives good x) (restore : State → State) :
    Gives good (x.ensuring restore) := by
  intro s
  rw [Routine.meets_ensuring]
  exact hx s

end Gives

/-! ### The productions -/

/-- A declaration is scoped if its direct parts are. -/
theorem scoped_declaration {st : Stmt} (hst : st.IsDeclaration)
    (hparts : ∀ part ∈ st.parts, part.Scoped) : st.Scoped :=
  Stmt.scoped_iff.2 ⟨fun h => absurd hst h, hparts⟩

/-- A statement that declares nothing fits the goal of a statement if its direct parts are scoped. -/
theorem fits_statement {st : Stmt} (hst : st.declares = [])
    (hparts : ∀ part ∈ st.parts, part.Scoped) : Goal.statement.Fits st :=
  ⟨Stmt.scoped_iff.2 ⟨fun _ => hst, hparts⟩, hst⟩

/-- The statements of a block are scoped. -/
theorem gives_blockRest : Gives (fun body => ∀ st ∈ body, st.Scoped) blockRest := by
  refine gives_bind (gives_call (.block [])) fun body hbody => gives_then fun _ => gives_pure ?_
  exact hbody fun _ h => nomatch h

/-- A function that is read is scoped: its body is read as a block. -/
theorem gives_function : Gives Stmt.Scoped function := by
  have hbody : Gives (fun body => ∀ st ∈ body, st.Scoped) (Parse.inFunction blockRest) :=
    fun s => gives_ensuring gives_blockRest _ { s with depth := s.depth + 1 }
  refine gives_then fun name => gives_then fun _ => gives_then fun params => gives_then fun _ =>
    gives_then fun _ => gives_bind hbody fun body hscoped => ?_
  exact gives_pure (scoped_declaration trivial hscoped)

/-- A variable that is read is scoped; it has no parts that are statements. -/
theorem gives_variableRest : Gives Stmt.Scoped variableRest :=
  gives_then fun _ => gives_then fun _ => gives_then fun _ =>
    gives_pure (scoped_declaration trivial fun _ h => nomatch h)

/-- An expression that stands as a statement declares nothing. -/
theorem gives_expressionStatement : Gives Goal.statement.Fits expressionStatement :=
  gives_then fun _ => gives_then fun _ => gives_pure (fits_statement rfl fun _ h => nomatch h)

/-- A `print` declares nothing. -/
theorem gives_printRest (keyword : Token) : Gives Goal.statement.Fits (printRest keyword) :=
  gives_then fun _ => gives_then fun _ => gives_pure (fits_statement rfl fun _ h => nomatch h)

/-- An `if` declares nothing, since its branches are read as statements. -/
theorem gives_ifRest : Gives Goal.statement.Fits ifRest := by
  refine gives_then fun _ => gives_then fun condition => gives_then fun _ =>
    gives_bind (gives_call .statement) fun consequent hconsequent => gives_then fun taken => ?_
  cases taken with
  | none =>
    refine gives_pure (fits_statement hconsequent.2 ?_)
    exact List.forall_mem_singleton.2 hconsequent.1
  | some _ =>
    refine gives_bind (gives_call .statement) fun alternative halternative => gives_pure ?_
    refine fits_statement (List.append_eq_nil_iff.2 ⟨hconsequent.2, halternative.2⟩) ?_
    exact List.forall_mem_cons.2 ⟨hconsequent.1, List.forall_mem_singleton.2 halternative.1⟩

/-- A loop fits the goal of a statement if its body does. -/
theorem fits_while {body : Stmt} (condition : Expr) (h : Goal.statement.Fits body) :
    Goal.statement.Fits (.while condition body) :=
  fits_statement h.2 (List.forall_mem_singleton.2 h.1)

/-- A `while` declares nothing, since its body is read as a statement. -/
theorem gives_whileRest : Gives Goal.statement.Fits whileRest :=
  gives_then fun _ => gives_then fun condition => gives_then fun _ =>
    gives_bind (gives_call .statement) fun _ hbody => gives_pure (fits_while condition hbody)

/-- What stands first in a `for` may be a declaration, and is scoped. -/
theorem gives_forInit : Gives (fun init => ∀ st ∈ init, st.Scoped) forInit := by
  refine gives_then fun taken => ?_
  cases taken with
  | none =>
    refine gives_bind gives_expressionStatement fun st hst => gives_pure ?_
    rintro _ ⟨⟩
    exact hst.1
  | some t =>
    by_cases ht : t.kind = .semicolon
    · simp only [if_pos ht]
      exact gives_pure fun _ h => nomatch h
    · simp only [if_neg ht]
      refine gives_bind gives_variableRest fun st hst => gives_pure ?_
      rintro _ ⟨⟩
      exact hst

/-- The block that a loop stands for: what its first clause declares is inside it. -/
theorem fits_forLoop {init : Option Stmt} (hinit : ∀ st ∈ init, st.Scoped) (condition : Expr)
    (increment : Option Expr) {body : Stmt} (hbody : Goal.statement.Fits body) :
    Goal.statement.Fits (forLoop init condition increment body) := by
  refine fits_statement rfl fun part hpart => ?_
  rcases List.mem_append.1 hpart with hpart | hpart
  · exact hinit part (Option.mem_toList.1 hpart)
  · rw [List.mem_singleton] at hpart
    subst hpart
    cases increment with
    | none => exact (fits_while condition hbody).1
    | some e =>
      have hexpression : Goal.statement.Fits (.expression e) := fits_statement rfl fun _ h => nomatch h
      refine (fits_while condition (fits_statement rfl ?_)).1
      exact List.forall_mem_cons.2 ⟨hbody.1, List.forall_mem_singleton.2 hexpression.1⟩

/-- A `for` declares nothing where it stands: its variable belongs to the block around the loop. -/
theorem gives_forRest : Gives Goal.statement.Fits forRest := by
  refine gives_then fun _ => gives_bind gives_forInit fun init hinit => gives_then fun condition =>
    gives_then fun _ => gives_then fun increment => gives_then fun _ => ?_
  exact gives_bind (gives_call .statement) fun _ hbody => gives_pure (fits_forLoop hinit _ _ hbody)

/-- A `return` declares nothing. -/
theorem gives_returnRest (keyword : Token) : Gives Goal.statement.Fits (returnRest keyword) :=
  gives_then fun _ => gives_then fun _ => gives_then fun _ =>
    gives_pure (fits_statement rfl fun _ h => nomatch h)

/-- Whatever a statement begins with, what is read fits the goal of a statement. -/
theorem gives_statement : Gives Goal.statement.Fits statement := by
  refine gives_then fun t => ?_
  split
  · exact gives_then fun _ => gives_printRest t
  · exact gives_then fun _ => gives_ifRest
  · exact gives_then fun _ => gives_whileRest
  · exact gives_then fun _ => gives_forRest
  · exact gives_then fun _ => gives_returnRest t
  · exact gives_then fun _ => gives_bind gives_blockRest fun body hbody =>
      gives_pure (fits_statement rfl hbody)
  · exact gives_expressionStatement

/-- What is read where a declaration may stand is scoped, be it a declaration or a statement. -/
theorem gives_declarationBody : Gives Stmt.Scoped declarationBody := by
  refine gives_then fun t => ?_
  split
  · exact gives_then fun _ => gives_function
  · exact gives_then fun _ => gives_variableRest
  · exact fun s => (gives_call .statement s).mono fun out hout st hst => (hout st hst).1

/-- A declaration that was skipped gives nothing, and one that was read is scoped. -/
theorem gives_declaration : Gives Goal.declaration.Fits declaration := by
  have hattempt : Gives (fun result => ∀ st, result = .ok st → st.Scoped)
      (attempt declarationBody) := by
    intro s
    rw [Routine.meets_attempt]
    refine (gives_declarationBody s).mono fun out hout => ?_
    rintro _ ⟨⟩
    exact hout
  refine gives_then fun start => gives_bind hattempt fun result hresult => ?_
  cases result with
  | ok st =>
    refine gives_pure ?_
    rintro _ ⟨⟩
    exact hresult st rfl
  | error _ => exact gives_then fun _ => gives_pure fun _ h => nomatch h

/-- The order of the statements plays no part in their being scoped. -/
theorem scoped_reverse {read : List Stmt} (h : ∀ st ∈ read, st.Scoped) :
    ∀ st ∈ read.reverse, st.Scoped :=
  fun st hst => h st (List.mem_reverse.1 hst)

/-- With one more declaration read, the statements read so far are still scoped. -/
theorem scoped_more {d : Option Stmt} {read : List Stmt} (hd : Goal.declaration.Fits d)
    (h : ∀ st ∈ read, st.Scoped) : ∀ st ∈ d.toList ++ read, st.Scoped :=
  List.forall_mem_append.2 ⟨fun st hst => hd st (Option.mem_toList.1 hst), h⟩

/-- The rest of a block keeps the statements read so far scoped. -/
theorem gives_block (read : List Stmt) : Gives (Goal.block read).Fits (block read) := by
  refine gives_then fun kind => ?_
  split
  · exact gives_pure scoped_reverse
  · refine gives_bind (gives_call .declaration) fun d hd s => ?_
    exact (gives_become (.block (d.toList ++ read)) s).mono fun out hout body hbody hread =>
      hout body hbody (scoped_more hd hread)

/-- The rest of a program keeps the statements read so far scoped. -/
theorem gives_program (read : List Stmt) : Gives (Goal.program read).Fits (program read) := by
  refine gives_then fun kind => ?_
  split
  · exact gives_pure scoped_reverse
  · refine gives_bind (gives_call .declaration) fun d hd s => ?_
    exact (gives_become (.program (d.toList ++ read)) s).mono fun out hout body hbody hread =>
      hout body hbody (scoped_more hd hread)

/-- **Every goal gives what fits it**, by the cases of the goals. -/
theorem scoping_keeps : Routine.Keeps rules scoping := by
  intro g s _
  cases g with
  | program read => exact gives_program read s
  | block read => exact gives_block read s
  | declaration => exact gives_declaration s
  | statement => exact gives_statement s
  | _ => exact gives_any _ s

/-- **A statement of a program declares nothing where it stands unless it is a declaration.** -/
theorem declares_of_parse {tokens : List Token} {st part : Stmt} (hst : st ∈ (parse tokens).program)
    (hpart : st.Contains part) (hkind : ¬part.IsDeclaration) : part.declares = [] := by
  obtain ⟨program, s, hvalue, -⟩ := program_reaches_end [] (sealed_ofTokens tokens)
  have hprogram : (parse tokens).program = program := by
    rw [parse, outcome_eq_value, hvalue]
  have hscoped := scoping_keeps.post_of_value (gives_program [] _) hvalue program rfl
  exact hscoped (fun _ h => nomatch h) st (hprogram ▸ hst) part hpart hkind

end Grammar

/-! ## What an execution adds -/

namespace Evaluation

/-- However a run of a routine ends: a frame that there was before binds the names that it did; and if it
binds a further one, it is the present frame, and the name is one of `names`. -/
def Eval.BindsOnly {α : Type} (names : List String) (x : Eval α) : Prop :=
  ∀ (s t : State) (steps : Nat) (result : Except Fault α),
    Routine.run rules steps x s = some (result, t) →
      ∀ f < s.store.frames.size, ∀ name : String,
        (s.store.binds f name → t.store.binds f name) ∧
        (t.store.binds f name → s.store.binds f name ∨ f = s.current ∧ name ∈ names)

/-- However a run of a routine ends, the frames that there were before bind the same names. -/
def Eval.BindsNothing {α : Type} (x : Eval α) : Prop :=
  ∀ (s t : State) (steps : Nat) (result : Except Fault α),
    Routine.run rules steps x s = some (result, t) →
      ∀ f < s.store.frames.size, ∀ name : String, t.store.binds f name = s.store.binds f name

variable {α : Type} {x : Eval α}

/-- An evaluation that is discreet but for the names in the current frame binds no other names. -/
theorem bindsOnly_of_discreet {names : List String}
    (hx : ∀ s, Discreet (fun f name => f = s.current ∧ name ∈ names) x s) : x.BindsOnly names := by
  intro s t steps result hrun f hf name
  have hdeclares := (hx s).declares (Routine.value_of_run rules hrun)
  exact ⟨hdeclares.extends_store.keeps f name, hdeclares.extends_store.adds f hf name⟩

/-- What binds only the names of an empty list binds nothing. -/
theorem bindsNothing_of_bindsOnly (hx : x.BindsOnly []) : x.BindsNothing := by
  intro s t steps result hrun f hf name
  obtain ⟨hkeeps, hadds⟩ := hx s t steps result hrun f hf name
  refine Bool.eq_iff_iff.2 ⟨fun h => ?_, hkeeps⟩
  rcases hadds h with h | ⟨-, hname⟩
  · exact h
  · cases hname

/-- An evaluation that is discreet without exception binds nothing. -/
theorem bindsNothing_of_discreet (hx : ∀ s, Discreet (fun _ _ => False) x s) : x.BindsNothing :=
  bindsNothing_of_bindsOnly (bindsOnly_of_discreet fun s => (hx s).mono fun _ _ hmay => hmay.elim)

/-- A statement binds at most what it declares, and only in the frame it is executed in. -/
theorem bindsOnly_exec (st : Stmt) : (exec st).BindsOnly st.declares :=
  bindsOnly_of_discreet fun _ => discreet_exec st

/-- A statement that declares nothing binds nothing in the frames there were. -/
theorem bindsNothing_exec {st : Stmt} (h : st.declares = []) : (exec st).BindsNothing :=
  bindsNothing_of_bindsOnly (h ▸ bindsOnly_exec st)

/-- **Declarations are local.** Evaluating an expression and calling a function leave the names of all
frames as they are. A statement takes no name from a frame, and adds names to the present one only, those
that it declares where it stands; and so does a list of statements. A block adds none, and of the
statements in a program that was read, however deep, only the declarations do. -/
theorem declarations_local :
    (∀ e : Expr, (eval e).BindsNothing) ∧
    (∀ (c : Closure) (args : List Value), (apply c args).BindsNothing) ∧
    (∀ st : Stmt, (exec st).BindsOnly st.declares) ∧
    (∀ body : List Stmt, (execAll body).BindsOnly (body.flatMap Stmt.declares)) ∧
    (∀ body : List Stmt, (exec (.block body)).BindsNothing) ∧
    ∀ (tokens : List Token) (st part : Stmt), st ∈ (Grammar.parse tokens).program →
      st.Contains part → ¬part.IsDeclaration → (exec part).BindsNothing := by
  refine ⟨fun e => bindsNothing_of_discreet fun _ => discreet_eval e,
    fun c args => bindsNothing_of_discreet fun _ => discreet_apply c args, bindsOnly_exec,
    fun body => bindsOnly_of_discreet fun _ => discreet_execAll body,
    fun body => bindsNothing_exec rfl, ?_⟩
  intro tokens st part hst hpart hkind
  exact bindsNothing_exec (Grammar.declares_of_parse hst hpart hkind)

/-- The variable in the block of an `if` is declared in a new frame. -/
theorem declarations_local_if : ∃ (tokens : List Token) (st : Stmt) (t : State),
    st ∈ (Grammar.parse tokens).program ∧ ¬st.IsDeclaration ∧
      Routine.run rules 20 (exec st) (.initial (.empty none)) = some (.ok .normal, t) ∧
      t.store.binds 1 "a" ∧ ∀ name, t.store.binds 0 name = false := by
  have hread : (Grammar.parse [.synthetic .kwIf "if" 1, .synthetic .leftParen "(" 1,
      .synthetic .kwTrue "true" 1, .synthetic .rightParen ")" 1, .synthetic .leftBrace "\x7b" 1,
      .synthetic .kwVar "var" 1, .synthetic .identifier "a" 1, .synthetic .semicolon ";" 1,
      .synthetic .rightBrace "\x7d" 1]).program =
        [.ifThen (.literal (.boolean true)) (.block [.var (.synthetic .identifier "a" 1) none])] := by
    with_unfolding_all rfl
  have hst := hread.symm ▸ List.mem_singleton_self _
  obtain ⟨t, hrun, ha⟩ : ∃ t, Routine.run rules 20 (exec (.ifThen (.literal (.boolean true))
      (.block [.var (.synthetic .identifier "a" 1) none]))) (.initial (.empty none)) =
        some (.ok .normal, t) ∧ t.store.binds 1 "a" := ⟨_, rfl, rfl⟩
  obtain ⟨-, -, -, -, -, hlocal⟩ := declarations_local
  refine ⟨_, _, t, hst, id, hrun, ha, fun name => ?_⟩
  exact hlocal _ _ _ hst .refl id _ t 20 _ hrun 0 Nat.one_pos name

end Evaluation

end Treewalk
