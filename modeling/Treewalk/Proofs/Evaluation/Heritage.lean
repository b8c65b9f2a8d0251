import Treewalk.Evaluation.Rules
import Treewalk.Proofs.Plan.Contract

/-!
# What a run works with comes from the program

A run makes no program text up: every expression it evaluates, every statement it executes, every
function it stores and every token it reports a fault at is part of the program it was started with,
or of a function that the interpreter held before. A `Heritage` is a property of trees that is handed
down to their parts, together with what follows from it for the faults that a tree can end with. If
the program and the functions held at the start have the property, so does everything the run works
with, and what follows for faults holds of the fault it ends with (`Heritage.keeps`,
`Heritage.outcome_of_value`).
-/

namespace Treewalk

/-! ## Parts of trees -/

/-- The expressions that an expression is made of. -/
def Expr.parts : Expr → List Expr
  | .grouping inner => [inner]
  | .unary _ right => [right]
  | .binary left _ right => [left, right]
  | .logical left _ right => [left, right]
  | .assign _ value => [value]
  | .call callee _ args => callee :: args
  | .literal _ => []
  | .variable _ => []

/-- The expressions that a statement is made of. -/
def Stmt.exprs : Stmt → List Expr
  | .expression e => [e]
  | .print _ e => [e]
  | .var _ init => init.toList
  | .ifThen condition _ => [condition]
  | .ifElse condition _ _ => [condition]
  | .while condition _ => [condition]
  | .return _ value => value.toList
  | .block _ => []
  | .function _ _ _ => []

/-- The statements that a statement is made of. -/
def Stmt.parts : Stmt → List Stmt
  | .block body => body
  | .ifThen _ consequent => [consequent]
  | .ifElse _ consequent alternative => [consequent, alternative]
  | .while _ body => [body]
  | .function _ _ body => body
  | _ => []

/-- The statement that declares a function. -/
def Function.toStmt (f : Function) : Stmt :=
  .function f.name f.params f.body

/-! ## Values in a store -/

/-- A value that a variable has. -/
def Store.Binds (s : Store) (v : Value) : Prop :=
  ∃ (f : FrameId) (frame : Frame) (name : String),
    s.frames[f]? = some frame ∧ (name, v) ∈ frame.bindings

namespace Frame

/-- What is among the bindings after a name was bound is the new value, or was there before. -/
theorem mem_bind {name key : String} {value v : Value} {bs : List (String × Value)}
    (h : (key, v) ∈ bind name value bs) : v = value ∨ (key, v) ∈ bs := by
  induction bs with
  | nil =>
    rw [bind, List.mem_singleton] at h
    exact .inl (congrArg Prod.snd h)
  | cons b bs ih =>
    obtain ⟨other, old⟩ := b
    rw [bind] at h
    by_cases hother : other = name
    · rw [if_pos hother, List.mem_cons] at h
      rcases h with h | h
      · exact .inl (congrArg Prod.snd h)
      · exact .inr (List.mem_cons_of_mem _ h)
    · rw [if_neg hother, List.mem_cons] at h
      rcases h with h | h
      · exact .inr (h ▸ List.mem_cons_self)
      · exact (ih h).imp id (List.mem_cons_of_mem _)

/-- What a name is looked up to is bound to it. -/
theorem mem_of_lookup {name : String} {v : Value} {bs : List (String × Value)}
    (h : bs.lookup name = some v) : (name, v) ∈ bs := by
  obtain ⟨as, cs, rfl, -⟩ := List.lookup_eq_some_iff.1 h
  exact List.mem_append_right _ List.mem_cons_self

end Frame

namespace Store

variable {s : Store} {v w : Value} {f : FrameId}

/-- A new interpreter holds no value. -/
theorem not_binds_initial (v : Value) : ¬initial.Binds v := by
  rintro ⟨f, frame, name, hframe, hmem⟩
  obtain ⟨hf, rfl⟩ := Array.getElem?_eq_some_iff.1 hframe
  obtain rfl : f = 0 := Nat.lt_one_iff.1 hf
  cases hmem

/-- After a declaration the store holds the new value, and otherwise what it held before. -/
theorem binds_of_define {name : String} (h : (s.define f name v).Binds w) : w = v ∨ s.Binds w := by
  obtain ⟨g, frame, key, hframe, hmem⟩ := h
  unfold define at hframe
  rw [Array.getElem?_modify] at hframe
  by_cases hfg : f = g
  · rw [if_pos hfg, Option.map_eq_some_iff] at hframe
    obtain ⟨old, hold, rfl⟩ := hframe
    exact (Frame.mem_bind hmem).imp id fun hmem => ⟨g, old, key, hold, hmem⟩
  · rw [if_neg hfg] at hframe
    exact .inr ⟨g, frame, key, hframe, hmem⟩

/-- A new frame is empty. -/
theorem binds_of_newFrame {parent : Option FrameId} (h : (s.newFrame parent).2.Binds w) :
    s.Binds w := by
  obtain ⟨g, frame, key, hframe, hmem⟩ := h
  unfold newFrame at hframe
  rw [Array.getElem?_push] at hframe
  by_cases hg : g = s.frames.size
  · rw [if_pos hg] at hframe
    cases hframe
    cases hmem
  · rw [if_neg hg] at hframe
    exact ⟨g, frame, key, hframe, hmem⟩

/-- After an assignment the store holds the new value, and otherwise what it held before. -/
theorem binds_of_assign {name : Token} (h : (s.assign f name v).2.Binds w) : w = v ∨ s.Binds w := by
  unfold assign at h
  cases hd : s.definer? f name.lexeme with
  | none =>
    rw [hd] at h
    exact .inr h
  | some g =>
    rw [hd] at h
    exact binds_of_define h

/-- What is looked up is held. -/
theorem binds_of_lookup {name : String} (h : s.lookup f name = some v) : s.Binds v := by
  unfold lookup at h
  rw [Option.bind_eq_bind, Option.bind_eq_some_iff] at h
  obtain ⟨g, -, h⟩ := h
  rw [Option.bind_eq_bind, Option.bind_eq_some_iff] at h
  obtain ⟨frame, hframe, h⟩ := h
  exact ⟨g, frame, name, hframe, Frame.mem_of_lookup h⟩

end Store

namespace Evaluation

open Routine (call become fail modify)

/-- After the parameters of a call are bound, the store holds the arguments, and otherwise what it held
before. -/
theorem binds_of_defineAll {frame : FrameId} {bindings : List (Token × Value)} {s : Store} {w : Value}
    (h : (defineAll s frame bindings).Binds w) : s.Binds w ∨ ∃ param, (param, w) ∈ bindings := by
  induction bindings generalizing s with
  | nil => exact .inl h
  | cons b bindings ih =>
    obtain ⟨param, value⟩ := b
    rcases ih h with h | ⟨p, hp⟩
    · rcases Store.binds_of_define h with rfl | h
      · exact .inr ⟨param, List.mem_cons_self⟩
      · exact .inl h
    · exact .inr ⟨p, List.mem_cons_of_mem _ hp⟩

/-! ## The faults of a tree -/

/-- The faults that the evaluation of an expression may end with, apart from those of its parts. -/
inductive ExprRaises : Expr → Fault → Prop where
  | unary {o e v f} (h : Evaluation.unary o v = .error f) : ExprRaises (.unary o e) f
  | binary {e o e' v w f} (h : Evaluation.binary o v w = .error f) : ExprRaises (.binary e o e') f
  | variable (n : Token) : ExprRaises (.variable n) (.undefinedVariable n)
  | assign (n : Token) (e : Expr) : ExprRaises (.assign n e) (.undefinedVariable n)
  | notCallable (e : Expr) (p : Token) (es : List Expr) : ExprRaises (.call e p es) (.notCallable p)
  | arity (e : Expr) (p : Token) (es : List Expr) (expected got : Nat) :
      ExprRaises (.call e p es) (.arityMismatch p expected got)
  | overflow (e : Expr) (p : Token) (es : List Expr) : ExprRaises (.call e p es) (.stackOverflow p)

/-- The faults that the execution of a statement may end with, apart from those of its parts. -/
inductive StmtRaises : Stmt → Fault → Prop where
  | output (k : Token) (e : Expr) : StmtRaises (.print k e) (.output k)

/-- An operator fails at its own token. -/
theorem exists_of_unary_error {o : Token} {v : Value} {f : Fault} (h : unary o v = .error f) :
    ∃ m, f = .typeMismatch o m := by
  unfold unary at h
  split at h
  all_goals first
    | cases h
      done
    | cases h
      exact ⟨_, rfl⟩

/-- A binary operator fails at its own token. -/
theorem exists_of_binary_error {o : Token} {v w : Value} {f : Fault} (h : binary o v w = .error f) :
    ∃ m, f = .typeMismatch o m := by
  unfold binary arithmetic at h
  repeat' split at h
  all_goals first
    | cases h
      done
    | cases h
      exact ⟨_, rfl⟩

/-- Operators do not make functions. -/
theorem ne_function_of_unary {o : Token} {v w : Value} (h : unary o v = .ok w) (c : Closure) :
    w ≠ .function c := by
  rintro rfl
  unfold unary at h
  split at h
  all_goals cases h

/-- Binary operators make no functions. -/
theorem ne_function_of_binary {o : Token} {v w x : Value} (h : binary o v w = .ok x) (c : Closure) :
    x ≠ .function c := by
  rintro rfl
  unfold binary arithmetic at h
  repeat' split at h
  all_goals cases h

/-! ## Properties that are handed down -/

/-- A property of trees that their parts have too, and what follows from it for faults. -/
structure Heritage where
  expr : Expr → Prop
  stmt : Stmt → Prop
  fault : Fault → Prop
  expr_parts : ∀ {e}, expr e → ∀ e' ∈ e.parts, expr e'
  stmt_exprs : ∀ {s}, stmt s → ∀ e ∈ s.exprs, expr e
  stmt_parts : ∀ {s}, stmt s → ∀ s' ∈ s.parts, stmt s'
  expr_raises : ∀ {e f}, expr e → ExprRaises e f → fault f
  stmt_raises : ∀ {s f}, stmt s → StmtRaises s f → fault f

namespace Heritage

variable (H : Heritage) {α β : Type} {good : α → Prop} {good' : β → Prop}

/-- A function has the property if its declaration does. -/
def Holds : Value → Prop
  | .function c => H.stmt c.declaration.toStmt
  | _ => True

/-- All values of variables have the property. -/
def HoldsAll (s : Store) : Prop :=
  ∀ v, s.Binds v → H.Holds v

/-- The value that a statement leaves a function with has the property. -/
def HoldsFlow : Flow → Prop
  | .normal => True
  | .returned v => H.Holds v

/-- A good result, or a fault that was to be expected. -/
def HoldsResult (good : α → Prop) : Except Fault α → Prop
  | .ok a => good a
  | .error f => H.fault f

/-- Such a result, with values of variables that have the property. -/
def Outcome (good : α → Prop) (out : Except Fault α × State) : Prop :=
  H.HoldsResult good out.1 ∧ H.HoldsAll out.2.store

/-- Goals have the property and are called on values that do; so do the values afterwards. -/
def contract : Routine.Contract Goal.Result Fault State where
  pre q :=
    (match q.1 with
      | .eval e => H.expr e
      | .exec s => H.stmt s) ∧
    H.HoldsAll q.2.store
  post q :=
    match q with
    | (.eval _, _) => H.Outcome H.Holds
    | (.exec _, _) => H.Outcome H.HoldsFlow

/-- A routine hands the property down: from values that have it, it calls only goals that have it,
and ends well. -/
def HandsDown (good : α → Prop) (x : Eval α) : Prop :=
  ∀ s, H.HoldsAll s.store → x.Meets H.contract s (H.Outcome good)

variable {H}

/-! ### Putting routines together -/

/-- What is pure hands down its result. -/
theorem handsDown_pure {a : α} (h : good a) : H.HandsDown good (pure a) :=
  fun _ hs => ⟨h, hs⟩

/-- A failure must be one of those that the heritage allows. -/
theorem handsDown_fail {f : Fault} (h : H.fault f) : H.HandsDown good (fail f) :=
  fun _ hs => ⟨h, hs⟩

/-- A goal for an expression may be put if the expression belongs to the heritage. -/
theorem handsDown_expr {e : Expr} (h : H.expr e) : H.HandsDown H.Holds (Eval.expr e) :=
  fun _ hs => ⟨⟨h, hs⟩, fun _ hout => hout⟩

/-- A goal for a statement may be put if the statement belongs to the heritage. -/
theorem handsDown_stmt {st : Stmt} (h : H.stmt st) : H.HandsDown H.HoldsFlow (Eval.stmt st) :=
  fun _ hs => ⟨⟨h, hs⟩, fun _ hout => hout⟩

/-- So for a goal for an expression that is become. -/
theorem handsDown_becomeEval {e : Expr} (h : H.expr e) :
    H.HandsDown H.Holds (become (Goal.eval e)) :=
  fun _ hs => ⟨⟨h, hs⟩, fun _ hout => hout⟩

/-- So for a goal for a statement that is become. -/
theorem handsDown_becomeExec {st : Stmt} (h : H.stmt st) :
    H.HandsDown H.HoldsFlow (become (Goal.exec st)) :=
  fun _ hs => ⟨⟨h, hs⟩, fun _ hout => hout⟩

/-- A step hands down what it leaves, if its outcome belongs to the heritage. -/
theorem handsDown_step {f : State → Except Fault α × State}
    (hf : ∀ s : State, H.HoldsAll s.store → H.Outcome good (f s)) :
    H.HandsDown good (Routine.step f) :=
  hf

/-- A change of the state must put nothing into the store that does not belong to the heritage. -/
theorem handsDown_modify {f : State → State}
    (hf : ∀ s : State, H.HoldsAll s.store → H.HoldsAll (f s).store) :
    H.HandsDown (fun _ => True) (modify f) :=
  fun s hs => ⟨trivial, hf s hs⟩

/-- What the first part leaves is what the second part works with. -/
theorem handsDown_bind {x : Eval α} {f : α → Eval β} (hx : H.HandsDown good x)
    (hf : ∀ a, good a → H.HandsDown good' (f a)) : H.HandsDown good' (x >>= f) := by
  intro s hs
  rw [Routine.meets_bind]
  refine (hx s hs).mono ?_
  rintro ⟨e | a, t⟩ ⟨hresult, ht⟩
  · exact ⟨hresult, ht⟩
  · exact hf a hresult t ht

/-- A choice hands down what its sides do. -/
theorem handsDown_ite {c : Prop} [Decidable c] {x y : Eval α} (hx : H.HandsDown good x)
    (hy : H.HandsDown good y) : H.HandsDown good (if c then x else y) := by
  split
  · exact hx
  · exact hy

/-- Which frame is the present one makes no difference to what is handed down. -/
theorem handsDown_inFrame (frame : FrameId) {x : Eval α} (hx : H.HandsDown good x) :
    H.HandsDown good (Eval.inFrame frame x) := by
  intro s hs
  refine (Routine.meets_ensuring H.contract x (fun t => { t with current := s.current })
    { s with current := frame }).2 ?_
  exact (hx { s with current := frame } hs).mono fun _ hout => hout

/-- How many calls are under way makes none either. -/
theorem handsDown_inCall {x : Eval α} (hx : H.HandsDown good x) :
    H.HandsDown good (Eval.inCall x) := by
  intro s hs
  refine (Routine.meets_ensuring H.contract x (fun t => { t with depth := t.depth - 1 })
    { s with depth := s.depth + 1 }).2 ?_
  exact (hx { s with depth := s.depth + 1 } hs).mono fun _ hout => hout

/-! ### Stores -/

/-- A store in which a value of the heritage was declared holds nothing else. -/
theorem HoldsAll.define {s : Store} (h : H.HoldsAll s) (f : FrameId) (name : String) {v : Value}
    (hv : H.Holds v) : H.HoldsAll (s.define f name v) := by
  intro w hw
  rcases Store.binds_of_define hw with rfl | hw
  · exact hv
  · exact h w hw

/-- A new frame is empty, so it adds nothing to what is held. -/
theorem HoldsAll.newFrame {s : Store} (h : H.HoldsAll s) (parent : Option FrameId) :
    H.HoldsAll (s.newFrame parent).2 :=
  fun w hw => h w (Store.binds_of_newFrame hw)

/-- A new frame may be created any time. -/
theorem handsDown_newFrame (parent : FrameId) :
    H.HandsDown (fun _ => True) (Eval.newFrame parent) :=
  handsDown_step fun _ hs => ⟨trivial, hs.newFrame _⟩

/-- A value of the heritage may be declared. -/
theorem handsDown_define (name : String) {v : Value} (hv : H.Holds v) :
    H.HandsDown (fun _ => True) (Eval.define name v) :=
  handsDown_modify fun _ hs => hs.define _ _ hv

/-- What is read of a variable is held in the store, and belongs to the heritage. -/
theorem handsDown_get {name : Token} (hname : H.fault (.undefinedVariable name)) :
    H.HandsDown H.Holds (Eval.get name) := by
  refine handsDown_step fun s hs => ⟨?_, hs⟩
  show H.HoldsResult H.Holds (s.store.get s.current name)
  unfold Store.get
  cases hv : s.store.lookup s.current name.lexeme with
  | none => exact hname
  | some v => exact hs v (Store.binds_of_lookup hv)

/-- A value of the heritage may be assigned, if the fault of a missing variable is allowed. -/
theorem handsDown_assign {name : Token} (hname : H.fault (.undefinedVariable name)) {v : Value}
    (hv : H.Holds v) : H.HandsDown (fun _ => True) (Eval.assign name v) := by
  refine handsDown_step fun s hs => ⟨?_, ?_⟩
  · show H.HoldsResult _ (s.store.assign s.current name v).1
    unfold Store.assign
    cases s.store.definer? s.current name.lexeme with
    | none => exact hname
    | some g => trivial
  · intro w hw
    rcases Store.binds_of_assign hw with rfl | hw
    · exact hv
    · exact hs w hw

/-- A value may be printed, if the fault of a full sink is allowed. -/
theorem handsDown_print {keyword : Token} (hkeyword : H.fault (.output keyword)) (v : Value) :
    H.HandsDown (fun _ => True) (Eval.print keyword v) := by
  refine handsDown_step fun s hs => ⟨?_, hs⟩
  dsimp only
  cases (s.sink.write (v.text ++ "\n").toUTF8).1 with
  | ok _ => trivial
  | error _ => exact hkeyword

/-! ### The routines of the evaluator -/

/-- The results of unary operators belong to every heritage, being no functions. -/
theorem holds_of_unary {o : Token} {v w : Value} (h : unary o v = .ok w) : H.Holds w := by
  cases w with
  | function c => exact absurd rfl (ne_function_of_unary h c)
  | _ => trivial

/-- So do those of binary operators. -/
theorem holds_of_binary {o : Token} {v w x : Value} (h : binary o v w = .ok x) : H.Holds x := by
  cases x with
  | function c => exact absurd rfl (ne_function_of_binary h c)
  | _ => trivial

/-- A result that is a failure or not hands down either of the two. -/
theorem handsDown_ofExcept {x : Except Fault α} (hok : ∀ a, x = .ok a → good a)
    (herror : ∀ f, x = .error f → H.fault f) : H.HandsDown good (Eval.ofExcept x) := by
  refine handsDown_step fun s hs => ⟨?_, hs⟩
  cases x with
  | ok a => exact hok a rfl
  | error f => exact herror f rfl

/-- Arguments are handed down one by one. -/
theorem handsDown_evalAll {es : List Expr} (hes : ∀ e ∈ es, H.expr e) {values : List Value}
    (hvalues : ∀ v ∈ values, H.Holds v) :
    H.HandsDown (fun vs => ∀ v ∈ vs, H.Holds v) (evalAll es values) := by
  induction es generalizing values with
  | nil =>
    refine handsDown_pure fun v hv => hvalues v ?_
    rwa [List.mem_reverse] at hv
  | cons e es ih =>
    rw [List.forall_mem_cons] at hes
    refine handsDown_bind (handsDown_expr hes.1) fun value hvalue => ?_
    exact ih hes.2 (List.forall_mem_cons.2 ⟨hvalue, hvalues⟩)

/-- Statements hand down what one of them returns. -/
theorem handsDown_execAll {body : List Stmt} (hbody : ∀ st ∈ body, H.stmt st) :
    H.HandsDown H.HoldsFlow (execAll body) := by
  induction body with
  | nil => exact handsDown_pure trivial
  | cons st body ih =>
    rw [List.forall_mem_cons] at hbody
    refine handsDown_bind (handsDown_stmt hbody.1) fun flow hflow => ?_
    cases flow with
    | normal => exact ih hbody.2
    | returned v => exact handsDown_pure hflow

/-- A function of the heritage, applied to values of the heritage, hands down its result: its body
belongs to the heritage as a part of it. -/
theorem handsDown_apply {c : Closure} (hc : H.stmt c.declaration.toStmt) {args : List Value}
    (hargs : ∀ v ∈ args, H.Holds v) : H.HandsDown H.Holds (apply c args) := by
  refine handsDown_bind (handsDown_newFrame _) fun frame _ => ?_
  refine handsDown_bind (handsDown_modify fun s hs v hv => ?_) fun _ _ => ?_
  · rcases binds_of_defineAll hv with hv | ⟨param, hv⟩
    · exact hs v hv
    · exact hargs v (List.of_mem_zip hv).2
  · refine handsDown_bind (handsDown_inFrame frame (handsDown_execAll (H.stmt_parts hc))) ?_
    intro flow hflow
    cases flow with
    | normal => exact handsDown_pure trivial
    | returned v => exact handsDown_pure hflow

/-- What is done with a function and its arguments. -/
theorem handsDown_enter {e : Expr} {paren : Token} {es : List Expr} (h : H.expr (.call e paren es))
    {c : Closure} (hc : H.stmt c.declaration.toStmt) {values : List Value}
    (hvalues : ∀ v ∈ values, H.Holds v) :
    H.HandsDown H.Holds (do
      if values.length ≠ c.arity then
        fail (.arityMismatch paren c.arity values.length)
      else if maxCallDepth ≤ (← Eval.depth) then
        fail (.stackOverflow paren)
      else
        Eval.inCall (apply c values)) := by
  have hdepth : H.HandsDown (fun _ => True) Eval.depth := handsDown_step fun _ hs => ⟨trivial, hs⟩
  apply handsDown_ite
  · exact handsDown_fail (H.expr_raises h (.arity e paren es _ _))
  · refine handsDown_bind hdepth fun d _ => handsDown_ite ?_ ?_
    · exact handsDown_fail (H.expr_raises h (.overflow e paren es))
    · exact handsDown_inCall (handsDown_apply hc hvalues)

/-- Every form of expression hands down its value and its faults. -/
theorem handsDown_eval {e : Expr} (h : H.expr e) : H.HandsDown H.Holds (eval e) := by
  have hparts := H.expr_parts h
  cases e with
  | literal value =>
    refine handsDown_pure ?_
    cases value <;> trivial
  | grouping inner => exact handsDown_becomeEval (hparts inner List.mem_cons_self)
  | unary operator right =>
    refine handsDown_bind (handsDown_expr (hparts right List.mem_cons_self)) fun v _ => ?_
    exact handsDown_ofExcept (fun _ => holds_of_unary) fun f hf => H.expr_raises h (.unary hf)
  | binary left operator right =>
    refine handsDown_bind (handsDown_expr (hparts left List.mem_cons_self)) fun v _ => ?_
    refine handsDown_bind (handsDown_expr (hparts right (List.mem_cons_of_mem _ List.mem_cons_self)))
      fun w _ => ?_
    exact handsDown_ofExcept (fun _ => holds_of_binary) fun f hf => H.expr_raises h (.binary hf)
  | logical left operator right =>
    refine handsDown_bind (handsDown_expr (hparts left List.mem_cons_self)) fun v hv => ?_
    apply handsDown_ite
    · exact handsDown_pure hv
    · exact handsDown_becomeEval (hparts right (List.mem_cons_of_mem _ List.mem_cons_self))
  | «variable» name => exact handsDown_get (H.expr_raises h (.variable name))
  | assign name value =>
    refine handsDown_bind (handsDown_expr (hparts value List.mem_cons_self)) fun v hv => ?_
    refine handsDown_bind (handsDown_assign (H.expr_raises h (.assign name value)) hv) fun _ _ => ?_
    exact handsDown_pure hv
  | call callee paren args =>
    refine handsDown_bind (handsDown_expr (hparts callee List.mem_cons_self)) fun v hv => ?_
    cases v with
    | function c =>
      have hargs : ∀ e ∈ args, H.expr e := fun e he => hparts e (List.mem_cons_of_mem _ he)
      refine handsDown_bind (handsDown_evalAll hargs fun _ hv => nomatch hv) fun values hvalues => ?_
      exact handsDown_enter h hv hvalues
    | _ => exact handsDown_fail (H.expr_raises h (.notCallable callee paren args))

/-- Every form of statement does. A function that is declared belongs to the heritage like its
declaration. -/
theorem handsDown_exec {st : Stmt} (h : H.stmt st) : H.HandsDown H.HoldsFlow (exec st) := by
  have hexprs := H.stmt_exprs h
  have hparts := H.stmt_parts h
  cases st with
  | expression e =>
    exact handsDown_bind (handsDown_expr (hexprs e List.mem_cons_self)) fun _ _ =>
      handsDown_pure trivial
  | print keyword e =>
    refine handsDown_bind (handsDown_expr (hexprs e List.mem_cons_self)) fun v _ => ?_
    refine handsDown_bind (handsDown_print (H.stmt_raises h (.output keyword e)) v) fun _ _ => ?_
    exact handsDown_pure trivial
  | var name init =>
    cases init with
    | some e =>
      exact handsDown_bind (handsDown_expr (hexprs e List.mem_cons_self)) fun _ hv =>
        handsDown_bind (handsDown_define _ hv) fun _ _ => handsDown_pure trivial
    | none =>
      have hnil : H.HandsDown H.Holds (pure .nil) := handsDown_pure trivial
      exact handsDown_bind hnil fun _ hv =>
        handsDown_bind (handsDown_define _ hv) fun _ _ => handsDown_pure trivial
  | block body =>
    have hcurrent : H.HandsDown (fun _ => True) Eval.current :=
      handsDown_step fun _ hs => ⟨trivial, hs⟩
    exact handsDown_bind hcurrent fun _ _ => handsDown_bind (handsDown_newFrame _) fun _ _ =>
      handsDown_inFrame _ (handsDown_execAll hparts)
  | ifThen condition consequent =>
    refine handsDown_bind (handsDown_expr (hexprs condition List.mem_cons_self)) fun v _ => ?_
    apply handsDown_ite
    · exact handsDown_becomeExec (hparts consequent List.mem_cons_self)
    · exact handsDown_pure trivial
  | ifElse condition consequent alternative =>
    refine handsDown_bind (handsDown_expr (hexprs condition List.mem_cons_self)) fun v _ => ?_
    apply handsDown_ite
    · exact handsDown_becomeExec (hparts consequent List.mem_cons_self)
    · exact handsDown_becomeExec (hparts alternative (List.mem_cons_of_mem _ List.mem_cons_self))
  | «while» condition body =>
    refine handsDown_bind (handsDown_expr (hexprs condition List.mem_cons_self)) fun v _ => ?_
    apply handsDown_ite
    · refine handsDown_bind (handsDown_stmt (hparts body List.mem_cons_self)) fun flow hflow => ?_
      cases flow with
      | normal => exact handsDown_becomeExec h
      | returned v => exact handsDown_pure hflow
    · exact handsDown_pure trivial
  | function name params body =>
    refine handsDown_bind (handsDown_modify fun s hs => ?_) fun _ _ => handsDown_pure trivial
    have hc : H.Holds (.function (s.store.newClosure ⟨name, params, body⟩ s.current).1) := h
    exact HoldsAll.define (fun v hv => hs v hv) _ _ hc
  | «return» keyword value =>
    cases value with
    | some e =>
      exact handsDown_bind (handsDown_expr (hexprs e List.mem_cons_self)) fun _ hv =>
        handsDown_pure hv
    | none =>
      have hnil : H.HandsDown H.Holds (pure .nil) := handsDown_pure trivial
      exact handsDown_bind hnil fun _ hv => handsDown_pure hv

variable (H)

/-- **The evaluator keeps to the heritage** in everything that it works with. -/
theorem keeps : Routine.Keeps rules H.contract
  | .eval _, s, h => handsDown_eval h.1 s h.2
  | .exec _, s, h => handsDown_exec h.1 s h.2

variable {H}

/-- **What a run works with comes from the program.** -/
theorem outcome_of_value {x : Eval α} (hx : H.HandsDown good x) {s : State} (hs : H.HoldsAll s.store)
    {out : Except Fault α × State} (h : Routine.value rules x s = some out) : H.Outcome good out :=
  H.keeps.post_of_value (hx s hs) h

end Heritage

end Evaluation

end Treewalk
