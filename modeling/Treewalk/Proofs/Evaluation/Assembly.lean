import Treewalk.Proofs.Evaluation.Heritage

/-!
# What the evaluator is put together from

The routines of the evaluator are made of few kinds of steps: steps that concern the variables only
(`Eval.locally`), printing, calling a goal, working in another frame, and calling a function unless too
many calls are under way (`Eval.guarded`). `Assembled near x` says that `x` is put together from these,
where `near` are the goals that `x` calls itself, not counting those that a function calls, and
`AssembledIf False near x` says so of an `x` that does not print.

What holds of every kind of step and is kept when steps are put together holds of the evaluator
(`assembled_rules`): a proof about all its runs has one case for each kind of step, and none for the forms
of expressions and statements. The goals that are called for a goal are parts of it, except that a loop
calls itself again (`Goal.Near`).
-/

namespace Treewalk.Evaluation

open Routine (call become fail modify)

namespace Eval

variable {α : Type}

/-- A step that reads and changes the variables, and nothing else. -/
def locally (f : Store → FrameId → Except Fault α × Store) : Eval α :=
  Routine.step fun s => ((f s.store s.current).1, { s with store := (f s.store s.current).2 })

/-- Perform `x` as part of one more call, unless too many are under way. -/
def guarded (paren : Token) (x : Eval α) : Eval α := do
  if maxCallDepth ≤ (← Eval.depth) then fail (.stackOverflow paren) else Eval.inCall x

/-- Where too many calls are under way, the guard fails at the parenthesis and does nothing else. -/
theorem guarded_of_le (paren : Token) (x : Eval α) {s : State} (h : maxCallDepth ≤ s.depth) :
    guarded paren x s = .done (.error (.stackOverflow paren), s) := by
  show (if maxCallDepth ≤ s.depth then fail (.stackOverflow paren) else inCall x) s = _
  rw [if_pos h]
  rfl

/-- Where there is room for a call, the guard lets it pass. -/
theorem guarded_of_lt (paren : Token) (x : Eval α) {s : State} (h : s.depth < maxCallDepth) :
    guarded paren x s = inCall x s := by
  show (if maxCallDepth ≤ s.depth then fail (.stackOverflow paren) else inCall x) s = _
  rw [if_neg (Nat.not_le.2 h)]

/-- Work in another frame is that work with this frame as the present one; afterwards the present frame
is the one from before. -/
theorem value_inFrame (frame : FrameId) (x : Eval α) (s : State) :
    Routine.value rules (inFrame frame x) s =
      (Routine.value rules x { s with current := frame }).map fun out =>
        (out.1, { out.2 with current := s.current }) :=
  Routine.value_ensuring rules x (fun t => { t with current := s.current }) { s with current := frame }

/-- Work inside a call is that work one level deeper; afterwards the level is counted down. -/
theorem value_inCall (x : Eval α) (s : State) :
    Routine.value rules (inCall x) s =
      (Routine.value rules x { s with depth := s.depth + 1 }).map fun out =>
        (out.1, { out.2 with depth := out.2.depth - 1 }) :=
  Routine.value_ensuring rules x (fun t => { t with depth := t.depth - 1 })
    { s with depth := s.depth + 1 }

end Eval

open Eval (locally guarded)

/-- A part of the evaluator that is put together from its single steps, of which the goals that it
calls itself are `near`, and which prints nothing itself unless it is `loud`. -/
inductive AssembledIf (loud : Prop) : (Goal → Prop) → {α : Type} → Eval α → Prop where
  | locally {near : Goal → Prop} {α : Type} (f : Store → FrameId → Except Fault α × Store) :
      AssembledIf loud near (locally f)
  | print {near : Goal → Prop} (keyword : Token) (value : Value) (h : loud) :
      AssembledIf loud near (Eval.print keyword value)
  | call {near : Goal → Prop} {g : Goal} (h : near g) :
      AssembledIf loud near (call g : Eval g.Result)
  | become {near : Goal → Prop} {g : Goal} (h : near g) :
      AssembledIf loud near (become g : Eval g.Result)
  | bind {near : Goal → Prop} {α β : Type} {x : Eval α} {f : α → Eval β}
      (hx : AssembledIf loud near x) (hf : ∀ a, AssembledIf loud near (f a)) :
      AssembledIf loud near (x >>= f)
  | inFrame {near : Goal → Prop} {α : Type} {x : Eval α} (frame : FrameId)
      (hx : AssembledIf loud near x) : AssembledIf loud near (Eval.inFrame frame x)
  | guarded {near : Goal → Prop} {α : Type} {x : Eval α} (paren : Token)
      (hx : AssembledIf loud (fun _ => True) x) : AssembledIf loud near (guarded paren x)

/-- A part of the evaluator that is put together from its single steps, printing among them. -/
abbrev Assembled (near : Goal → Prop) {α : Type} (x : Eval α) : Prop :=
  AssembledIf True near x

namespace AssembledIf

variable {loud : Prop} {near : Goal → Prop} {α : Type}

/-! ## Steps that concern the variables -/

/-- What is pure concerns the variables in no way at all. -/
theorem pure (a : α) : AssembledIf loud near (pure a) :=
  .locally fun store _ => (.ok a, store)

/-- So does a failure. -/
theorem fail (f : Fault) : AssembledIf loud near (fail f : Eval α) :=
  .locally fun store _ => (.error f, store)

/-- So does a result that is a failure or not. -/
theorem ofExcept (x : Except Fault α) : AssembledIf loud near (Eval.ofExcept x) :=
  .locally fun store _ => (x, store)

/-- The present frame is looked up among the variables. -/
theorem current : AssembledIf loud near Eval.current :=
  .locally fun store frame => (.ok frame, store)

/-- A new frame concerns the variables only. -/
theorem newFrame (parent : FrameId) : AssembledIf loud near (Eval.newFrame parent) :=
  .locally fun store _ => (.ok (store.newFrame (some parent)).1, (store.newFrame (some parent)).2)

/-- A declaration concerns the variables only. -/
theorem define (name : String) (value : Value) : AssembledIf loud near (Eval.define name value) :=
  .locally fun store frame => (.ok (), store.define frame name value)

/-- Reading a variable concerns the variables only. -/
theorem get (name : Token) : AssembledIf loud near (Eval.get name) :=
  .locally fun store frame => (store.get frame name, store)

/-- An assignment concerns the variables only. -/
theorem assign (name : Token) (value : Value) : AssembledIf loud near (Eval.assign name value) :=
  .locally fun store frame => store.assign frame name value

/-- A choice is put together from what it chooses between. -/
theorem ite {c : Prop} [Decidable c] {x y : Eval α} (hx : AssembledIf loud near x)
    (hy : AssembledIf loud near y) :
    AssembledIf loud near (if c then x else y) := by
  split
  · exact hx
  · exact hy

/-! ## The routines of the evaluator -/

/-- Arguments are evaluated by calling the goals for them, one after the other. -/
theorem evalAll {es : List Expr} (h : ∀ e ∈ es, near (.eval e)) (values : List Value) :
    AssembledIf loud near (evalAll es values) := by
  induction es generalizing values with
  | nil => exact pure _
  | cons e es ih =>
    rw [List.forall_mem_cons] at h
    exact .bind (.call h.1) fun value => ih h.2 _

/-- Statements are executed by calling the goals for them, until one returns. -/
theorem execAll {body : List Stmt} (h : ∀ st ∈ body, near (.exec st)) :
    AssembledIf loud near (execAll body) := by
  induction body with
  | nil => exact pure _
  | cons st body ih =>
    rw [List.forall_mem_cons] at h
    refine .bind (.call h.1) fun flow => ?_
    cases flow with
    | normal => exact ih h.2
    | returned value => exact pure _

/-- A function is put together from its body: a new frame, its parameters, the statements in that frame. -/
theorem apply {f : Closure} (h : ∀ st ∈ f.declaration.body, near (.exec st)) (args : List Value) :
    AssembledIf loud near (apply f args) := by
  refine .bind (newFrame _) fun frame => .bind ?_ fun _ => .bind (.inFrame frame (execAll h)) ?_
  · exact .locally fun store _ => (.ok (), defineAll store frame (f.declaration.params.zip args))
  · intro flow
    cases flow with
    | normal => exact pure _
    | returned value => exact pure _

end AssembledIf

/-! ## Goals and their parts -/

/-- The goals that are called for a goal, not counting those that a function calls. -/
inductive Goal.Near : Goal → Goal → Prop where
  | part {e e' : Expr} (h : e' ∈ e.parts) : Near (.eval e) (.eval e')
  | expr {st : Stmt} {e : Expr} (h : e ∈ st.exprs) : Near (.exec st) (.eval e)
  | stmt {st st' : Stmt} (h : st' ∈ st.parts) : Near (.exec st) (.exec st')
  /-- A loop that has been gone through once begins anew. -/
  | again (condition : Expr) (body : Stmt) :
      Near (.exec (.while condition body)) (.exec (.while condition body))

open Goal (Near)

variable {loud : Prop}

/-- **Expressions are put together from their parts.** They never print themselves. -/
theorem assembledIf_eval (e : Expr) : AssembledIf loud (Near (.eval e)) (eval e) := by
  cases e with
  | literal value => exact .pure _
  | grouping inner => exact .become (.part List.mem_cons_self)
  | unary operator right => exact .bind (.call (.part List.mem_cons_self)) fun _ => .ofExcept _
  | binary left operator right =>
    have hright : right ∈ (Expr.binary left operator right).parts :=
      List.mem_cons_of_mem _ List.mem_cons_self
    exact .bind (.call (.part List.mem_cons_self)) fun _ => .bind (.call (.part hright)) fun _ =>
      .ofExcept _
  | logical left operator right =>
    have hright : right ∈ (Expr.logical left operator right).parts :=
      List.mem_cons_of_mem _ List.mem_cons_self
    refine .bind (.call (.part List.mem_cons_self)) fun value => .ite (.pure _) ?_
    exact .become (.part hright)
  | «variable» name => exact .get name
  | assign name value =>
    exact .bind (.call (.part List.mem_cons_self)) fun _ => .bind (.assign _ _) fun _ => .pure _
  | call callee paren args =>
    have hargs : ∀ e ∈ args, Near (.eval (.call callee paren args)) (.eval e) :=
      fun e he => .part (List.mem_cons_of_mem _ he)
    refine .bind (.call (.part List.mem_cons_self)) fun value => ?_
    cases value with
    | function f =>
      refine .bind (.evalAll hargs []) fun values => .ite (.fail _) ?_
      exact .guarded paren (.apply (fun _ _ => trivial) values)
    | _ => exact .fail _

/-- **Statements are put together from their parts**, and only `print` statements print themselves. -/
theorem assembledIf_exec (st : Stmt) (h : (∃ keyword e, st = .print keyword e) → loud) :
    AssembledIf loud (Near (.exec st)) (exec st) := by
  cases st with
  | expression e => exact .bind (.call (.expr List.mem_cons_self)) fun _ => .pure _
  | print keyword e =>
    exact .bind (.call (.expr List.mem_cons_self)) fun _ => .bind (.print _ _ (h ⟨keyword, e, rfl⟩)) fun _ =>
      .pure _
  | var name init =>
    cases init with
    | some e =>
      exact .bind (.call (.expr List.mem_cons_self)) fun _ => .bind (.define _ _) fun _ => .pure _
    | none => exact .bind (.pure _) fun _ => .bind (.define _ _) fun _ => .pure _
  | block body =>
    exact .bind .current fun _ => .bind (.newFrame _) fun frame =>
      .inFrame frame (.execAll fun _ hst => .stmt hst)
  | ifThen condition consequent =>
    refine .bind (.call (.expr List.mem_cons_self)) fun value => .ite ?_ (.pure _)
    exact .become (.stmt List.mem_cons_self)
  | ifElse condition consequent alternative =>
    refine .bind (.call (.expr List.mem_cons_self)) fun value => .ite ?_ ?_
    · exact .become (.stmt List.mem_cons_self)
    · exact .become (.stmt (List.mem_cons_of_mem _ List.mem_cons_self))
  | «while» condition body =>
    refine .bind (.call (.expr List.mem_cons_self)) fun value => .ite ?_ (.pure _)
    refine .bind (.call (.stmt List.mem_cons_self)) fun flow => ?_
    cases flow with
    | normal => exact .become (.again condition body)
    | returned value => exact .pure _
  | function name params body =>
    refine .bind ?_ fun _ => .pure _
    exact .locally fun store frame =>
      let made := store.newClosure ⟨name, params, body⟩ frame
      (.ok (), made.2.define frame name.lexeme (.function made.1))
  | «return» keyword value =>
    cases value with
    | some e => exact .bind (.call (.expr List.mem_cons_self)) fun _ => .pure _
    | none => exact .bind (.pure _) fun _ => .pure _

/-- **The evaluator is put together from single steps**, and only a print statement prints. -/
theorem assembledIf_rules (g : Goal) (h : (∃ keyword e, g = .exec (.print keyword e)) → loud) :
    AssembledIf loud (Near g) (rules g) := by
  cases g with
  | eval e => exact assembledIf_eval e
  | exec st =>
    refine assembledIf_exec st ?_
    rintro ⟨keyword, e, rfl⟩
    exact h ⟨keyword, e, rfl⟩

/-- The case of expressions, without regard to printing. -/
theorem assembled_eval (e : Expr) : Assembled (Near (.eval e)) (eval e) :=
  assembledIf_eval e

/-- The case of statements, without regard to printing. -/
theorem assembled_exec (st : Stmt) : Assembled (Near (.exec st)) (exec st) :=
  assembledIf_exec st fun _ => trivial

/-- **All routines of the evaluator are put together from the few kinds of steps.** -/
theorem assembled_rules (g : Goal) : Assembled (Near g) (rules g) :=
  assembledIf_rules g fun _ => trivial

end Treewalk.Evaluation
