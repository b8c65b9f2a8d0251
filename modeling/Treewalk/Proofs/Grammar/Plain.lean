import Treewalk.Grammar.Statement

/-!
# What productions are put together from

Every production is put together from single steps of the parser and from goals that it puts. Only a
declaration counts the tokens that were taken, and finds a place to go on. All other parts go by the next
token: `Plain kinds goals next x` says of a part `x` that it is one of these, that it takes only tokens of
some kinds, and puts only some goals. Where it begins by choosing between its branches by the next token, a
branch takes this token first; so that it is known to be of the right kind, `next` is the next token if a part
has just looked at it.

What belongs to an expression or to the head of a function takes no semicolon and puts only goals of its own
sort (`Inner`). Statements and declarations are made of these parts (`Outer`).
-/

namespace Treewalk.Grammar

open Routine (call become)

/-- A part of the parser that goes by the next token, takes only tokens of some kinds, and puts only some
goals. If a token is given, this is the next one. -/
inductive Plain (kinds : Kind → Prop) (goals : Goal → Prop) :
    {α : Type} → Option Token → Parse α → Prop where
  | pure {next : Option Token} {α : Type} (a : α) : Plain kinds goals next (pure a)
  | look {next : Option Token} {α : Type} {f : Token → Parse α}
      (hf : ∀ t, Plain kinds goals (some t) (f t)) : Plain kinds goals next (Parse.peek >>= f)
  | advance {t : Token} {α : Type} {x : Parse α} (ht : kinds t.kind) (hx : Plain kinds goals none x) :
      Plain kinds goals (some t) (do Parse.advance; x)
  | peekKind {next : Option Token} : Plain kinds goals next Parse.peekKind
  | accept {next : Option Token} (accepted : List Kind) (h : ∀ kind ∈ accepted, kinds kind) :
      Plain kinds goals next (Parse.accept? accepted)
  | expect {next : Option Token} (kind : Kind) (what : Expected) (h : kinds kind) :
      Plain kinds goals next (Parse.expect kind what)
  | report {next : Option Token} (t : Token) (complaint : Complaint) :
      Plain kinds goals next (Parse.report t complaint)
  | reportBeyond {next : Option Token} (before : Nat) (complaint : Complaint) :
      Plain kinds goals next (Parse.reportBeyond before complaint)
  | reportOutside {next : Option Token} (t : Token) (complaint : Complaint) :
      Plain kinds goals next (Parse.reportOutside t complaint)
  | refuse {next : Option Token} {α : Type} (t : Token) (complaint : Complaint) :
      Plain kinds goals next (Parse.refuse t complaint : Parse α)
  | call {next : Option Token} (g : Goal) (h : goals g) :
      Plain kinds goals next (call g : Parse g.Result)
  | become {next : Option Token} (g : Goal) (h : goals g) :
      Plain kinds goals next (become g : Parse g.Result)
  | bind {next : Option Token} {α β : Type} {x : Parse α} {f : α → Parse β}
      (hx : Plain kinds goals next x) (hf : ∀ a, Plain kinds goals none (f a)) :
      Plain kinds goals next (x >>= f)
  | inFunction {next : Option Token} {α : Type} {x : Parse α} (hx : Plain kinds goals none x) :
      Plain kinds goals next (Parse.inFunction x)

/-- A part that takes and puts less may be said to take and put more. -/
theorem Plain.mono {kinds kinds' : Kind → Prop} {goals goals' : Goal → Prop}
    (hkinds : ∀ kind, kinds kind → kinds' kind) (hgoals : ∀ g, goals g → goals' g)
    {next : Option Token} {α : Type} {x : Parse α} (hx : Plain kinds goals next x) :
    Plain kinds' goals' next x := by
  induction hx with
  | pure a => exact .pure a
  | look _ ih => exact .look ih
  | advance ht _ ih => exact .advance (hkinds _ ht) ih
  | peekKind => exact .peekKind
  | accept accepted h => exact .accept accepted fun kind hkind => hkinds kind (h kind hkind)
  | expect kind what h => exact .expect kind what (hkinds kind h)
  | report t complaint => exact .report t complaint
  | reportBeyond before complaint => exact .reportBeyond before complaint
  | reportOutside t complaint => exact .reportOutside t complaint
  | refuse t complaint => exact .refuse t complaint
  | call g h => exact .call g (hgoals g h)
  | become g h => exact .become g (hgoals g h)
  | bind _ _ ihx ihf => exact .bind ihx ihf
  | inFunction _ ih => exact .inFunction ih

/-- Whether a goal belongs to an expression or to the head of a function. -/
def Goal.isInner : Goal → Bool
  | .program _ | .block _ | .declaration | .statement => false
  | _ => true

/-- A part that belongs to an expression or to the head of a function. -/
abbrev Inner {α : Type} (next : Option Token) (x : Parse α) : Prop :=
  Plain (· ≠ .semicolon) (·.isInner = true) next x

/-- Any part that goes by the next token. -/
abbrev Outer {α : Type} (next : Option Token) (x : Parse α) : Prop :=
  Plain (fun _ => True) (fun _ => True) next x

/-- What belongs to an expression is a plain part. -/
theorem Inner.outer {next : Option Token} {α : Type} {x : Parse α} (hx : Inner next x) : Outer next x :=
  hx.mono (fun _ _ => trivial) fun _ _ => trivial

variable {next : Option Token}

/-! ## Expressions -/

namespace Inner

/-- An operand goes by its level and puts an expression goal. -/
theorem operand (level : Level) : Inner next (operand level) := by
  unfold Grammar.operand
  split
  · exact .call _ rfl
  · exact .call _ rfl

/-- A primary expression goes by the next token, which is no semicolon where it is taken. -/
theorem primary : Inner next primary := by
  refine .look fun t => ?_
  split
  next h => exact .advance (by simp [h]) (.pure _)
  next h => exact .advance (by simp [h]) (.pure _)
  next h => exact .advance (by simp [h]) (.pure _)
  next h =>
    refine .advance (by simp [h]) ?_
    split
    · exact .pure _
    · exact .pure _
    · exact .refuse _ _
  next h =>
    refine .advance (by simp [h]) ?_
    split
    · exact .pure _
    · exact .pure _
    · exact .refuse _ _
  next h => exact .advance (by simp [h]) (.pure _)
  next h =>
    refine .advance (by simp [h]) (.bind (.call _ rfl) fun _ => ?_)
    exact .bind (.expect _ _ nofun) fun _ => .pure _
  next => exact .refuse _ _

/-- A clause looks at the next token and puts an expression goal, or none. -/
theorem clause (closing : Kind) : Inner next (clause closing) := by
  refine .bind .peekKind fun _ => ?_
  split
  · exact .pure _
  · exact .bind (.call _ rfl) fun _ => .pure _

/-- An expression takes an assignment sign at most. -/
theorem expression : Inner next expression := by
  refine .bind (.call _ rfl) fun left => .bind (.accept _ (by decide)) fun equals => ?_
  split
  · exact .pure _
  · refine .bind (.call _ rfl) fun _ => ?_
    split
    · exact .pure _
    · exact .bind (.report _ _) fun _ => .pure _

/-- An operation puts an operand and its tail. -/
theorem operation (level : Level) : Inner next (operation level) :=
  .bind (operand level) fun _ => .become _ rfl

/-- The tail of an operation takes an operator, which is no semicolon. -/
theorem operatorTail (level : Level) (left : Expr) : Inner next (operatorTail level left) := by
  have hoperators : ∀ kind ∈ level.operators, kind ≠ .semicolon := by
    cases level <;> decide
  refine .bind (.accept _ hoperators) fun operator => ?_
  split
  · exact .pure _
  · exact .bind (operand level) fun _ => .become _ rfl

/-- A unary expression takes an operator, or goes on as a call. -/
theorem unary : Inner next unary := by
  refine .bind (.accept _ (by decide)) fun operator => ?_
  split
  · exact .bind (.call _ rfl) fun _ => .pure _
  · exact .bind primary fun _ => .become _ rfl

/-- An argument list looks at the next token and puts goals for arguments. -/
theorem argumentList : Inner next argumentList := by
  refine .bind .peekKind fun _ => ?_
  split
  · exact .pure _
  · exact .bind (.call _ rfl) fun _ => .call _ rfl

/-- Calls take parentheses. -/
theorem calls (callee : Expr) : Inner next (calls callee) := by
  refine .bind (.accept _ (by decide)) fun opening => ?_
  split
  · exact .pure _
  · exact .bind argumentList fun _ => .bind (.expect _ _ nofun) fun _ => .become _ rfl

/-- Arguments take commas. -/
theorem arguments (read : List Expr) : Inner next (arguments read) := by
  refine .bind (.accept _ (by decide)) fun comma => ?_
  split
  · exact .pure _
  · exact .bind (.reportBeyond _ _) fun _ => .bind (.call _ rfl) fun _ => .become _ rfl

/-- A parameter list looks at the next token and puts goals for parameters. -/
theorem parameterList : Inner next parameterList := by
  refine .bind .peekKind fun _ => ?_
  split
  · exact .pure _
  · exact .call _ rfl

/-- Parameters take names and commas. -/
theorem parameters (read : List Token) : Inner next (parameters read) := by
  refine .bind (.reportBeyond _ _) fun _ => .bind (.expect _ _ nofun) fun _ =>
    .bind (.accept _ (by decide)) fun comma => ?_
  split
  · exact .become _ rfl
  · exact .pure _

/-- An initial value takes an assignment sign. -/
theorem initialValue : Inner next initialValue := by
  refine .bind (.accept _ (by decide)) fun equals => ?_
  split
  · exact .bind (.call _ rfl) fun _ => .pure _
  · exact .pure _

/-- The productions of all inner goals are inner parts. -/
theorem goal {g : Goal} (hg : g.isInner = true) : Inner next (rules g) := by
  cases g with
  | program | block | declaration | statement => cases hg
  | expression => exact expression
  | operation level => exact operation level
  | operatorTail level left => exact operatorTail level left
  | unary => exact unary
  | calls callee => exact calls callee
  | arguments read => exact arguments read
  | parameters read => exact parameters read

end Inner

/-! ## Statements and declarations -/

namespace Outer

/-- The rest of a block puts a block goal and takes a brace. -/
theorem blockRest : Outer next blockRest :=
  .bind (.call _ trivial) fun _ => .bind (.expect _ _ trivial) fun _ => .pure _

/-- A function is put together from inner parts and a block. -/
theorem function : Outer next function :=
  .bind (.expect _ _ trivial) fun _ => .bind (.expect _ _ trivial) fun _ =>
    .bind Inner.parameterList.outer fun _ => .bind (.expect _ _ trivial) fun _ =>
      .bind (.expect _ _ trivial) fun _ => .bind (.inFunction blockRest) fun _ => .pure _

/-- The rest of a variable takes a semicolon behind inner parts. -/
theorem variableRest : Outer next variableRest :=
  .bind (.expect _ _ trivial) fun _ => .bind Inner.initialValue.outer fun _ =>
    .bind (.expect _ _ trivial) fun _ => .pure _

/-- So does an expression statement. -/
theorem expressionStatement : Outer next expressionStatement :=
  .bind (.call _ trivial) fun _ => .bind (.expect _ _ trivial) fun _ => .pure _

/-- So does the rest of a `print` statement. -/
theorem printRest (keyword : Token) : Outer next (printRest keyword) :=
  .bind (.call _ trivial) fun _ => .bind (.expect _ _ trivial) fun _ => .pure _

/-- The rest of a conditional puts goals for statements behind an inner part. -/
theorem ifRest : Outer next ifRest := by
  refine .bind (.expect _ _ trivial) fun _ => .bind (.call _ trivial) fun _ =>
    .bind (.expect _ _ trivial) fun _ => .bind (.call _ trivial) fun _ =>
      .bind (.accept _ fun _ _ => trivial) fun other => ?_
  split
  · exact .bind (.call _ trivial) fun _ => .pure _
  · exact .pure _

/-- So does the rest of a `while` loop. -/
theorem whileRest : Outer next whileRest :=
  .bind (.expect _ _ trivial) fun _ => .bind (.call _ trivial) fun _ =>
    .bind (.expect _ _ trivial) fun _ => .bind (.call _ trivial) fun _ => .pure _

/-- An initializer takes a semicolon at its end. -/
theorem forInit : Outer next forInit := by
  refine .bind (.accept _ fun _ _ => trivial) fun lead => ?_
  split
  · split
    · exact .pure _
    · exact .bind variableRest fun _ => .pure _
  · exact .bind expressionStatement fun _ => .pure _

/-- The rest of a `for` loop is put together from its clauses and its body. -/
theorem forRest : Outer next forRest :=
  .bind (.expect _ _ trivial) fun _ => .bind forInit fun _ => .bind (Inner.clause _).outer fun _ =>
    .bind (.expect _ _ trivial) fun _ => .bind (Inner.clause _).outer fun _ =>
      .bind (.expect _ _ trivial) fun _ => .bind (.call _ trivial) fun _ => .pure _

/-- The rest of a `return` takes a semicolon behind a clause. -/
theorem returnRest (keyword : Token) : Outer next (returnRest keyword) :=
  .bind (.reportOutside _ _) fun _ => .bind (Inner.clause _).outer fun _ =>
    .bind (.expect _ _ trivial) fun _ => .pure _

/-- A statement goes by the next token. -/
theorem statement : Outer next statement := by
  refine .look fun t => ?_
  split
  · exact .advance trivial (printRest t)
  · exact .advance trivial ifRest
  · exact .advance trivial whileRest
  · exact .advance trivial forRest
  · exact .advance trivial (returnRest t)
  · exact .advance trivial (.bind blockRest fun _ => .pure _)
  · exact expressionStatement

/-- So does a declaration. -/
theorem declarationBody : Outer next declarationBody := by
  refine .look fun t => ?_
  split
  · exact .advance trivial function
  · exact .advance trivial variableRest
  · exact .call _ trivial

/-- A block goes on until a brace or the end is next. -/
theorem block (read : List Stmt) : Outer next (block read) := by
  refine .bind .peekKind fun _ => ?_
  split
  · exact .pure _
  · exact .bind (.call _ trivial) fun _ => .become _ trivial

/-- A program goes on until the end is next. -/
theorem program (read : List Stmt) : Outer next (program read) := by
  refine .bind .peekKind fun _ => ?_
  split
  · exact .pure _
  · exact .bind (.call _ trivial) fun _ => .become _ trivial

/-- **All goals but declarations go by the next token.** -/
theorem goal {g : Goal} (hg : g ≠ .declaration) : Outer next (rules g) := by
  cases g with
  | program read => exact program read
  | block read => exact block read
  | declaration => exact absurd rfl hg
  | statement => exact statement
  | _ => exact (Inner.goal rfl).outer

end Outer

end Treewalk.Grammar
