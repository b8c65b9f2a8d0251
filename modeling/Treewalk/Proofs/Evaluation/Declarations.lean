import Treewalk.Proofs.Evaluation.Frames

/-!
# Declarations are local

A name is bound in the frame that is the present one when its declaration is executed. Which frame that is
depends on the run: a call of a function works in a frame of its own, and so does a block. But these frames
are new, and assignments bind no new names. So of the frames that there were before, only the present one
can get a name, and only one that is declared outside all blocks and functions of the statement
(`Stmt.declares`). No name is ever taken from a frame.

`Store.Extends may s t` says this of two stores, where `may` are the names that the frames of `s` may get.
It is the contract of the evaluator (`declaring_keeps`).
-/

namespace Treewalk

/-- The names that a statement declares where it stands: those of the variables and functions in it that
are inside no block and no function of it. -/
def Stmt.declares : Stmt → List String
  | .var name _ => [name.lexeme]
  | .function name _ _ => [name.lexeme]
  | .ifThen _ consequent => consequent.declares
  | .ifElse _ consequent alternative => consequent.declares ++ alternative.declares
  | .while _ body => body.declares
  | _ => []

/-! ## The names that a frame binds -/

/-- After a name was set in a frame, it has the new value, and the other names have theirs. -/
theorem Frame.find?_set (frame : Frame) (key : String) (v : Value) (name : String) :
    (frame.set key v).find? name = bif name == key then some v else frame.find? name := by
  obtain ⟨bindings, parent⟩ := frame
  show List.lookup name (Frame.bind key v bindings) =
    bif name == key then some v else List.lookup name bindings
  induction bindings with
  | nil => cases h : name == key <;> simp [Frame.bind, List.lookup_cons, h]
  | cons b bindings ih =>
    obtain ⟨other, old⟩ := b
    rw [Frame.bind]
    by_cases hother : other = key
    · rw [if_pos hother, ← hother]
      cases h : name == other <;> simp [List.lookup_cons, h]
    · rw [if_neg hother]
      cases h : name == other with
      | true =>
        obtain rfl : name = other := beq_iff_eq.1 h
        simp [beq_false_of_ne hother]
      | false => simpa [List.lookup_cons, h] using ih

/-- After a name was set in a frame, the frame binds it besides the names that it bound before. -/
theorem Frame.binds_set (frame : Frame) (key : String) (v : Value) (name : String) :
    (frame.set key v).binds name = (name == key || frame.binds name) := by
  rw [binds, binds, find?_set]
  cases name == key <;> rfl

namespace Store

variable {s t u : Store} {may : FrameId → String → Prop}

/-- A declaration binds its name in its frame, and nothing else changes in what is bound. -/
theorem binds_define {f g : FrameId} {key name : String} {v : Value} :
    (s.define f key v).binds g name ↔
      s.binds g name ∨ g = f ∧ name = key ∧ f < s.frames.size := by
  unfold binds define
  rw [Array.getElem?_modify]
  by_cases hfg : f = g
  · subst hfg
    by_cases hf : f < s.frames.size
    · simp [Frame.binds_set, hf, or_comm]
    · simp [hf]
  · simp [hfg, Ne.symm hfg]

/-- A new frame is empty, so no name is bound that was not bound before. -/
theorem binds_newFrame {parent : Option FrameId} {g : FrameId} {name : String} :
    (s.newFrame parent).2.binds g name = s.binds g name := by
  unfold binds newFrame
  rw [Array.getElem?_push]
  by_cases hg : g = s.frames.size
  · rw [if_pos hg, hg, Array.getElem?_eq_none (Nat.le_refl _)]
    rfl
  · rw [if_neg hg]

/-- The walk outwards stops at a frame that binds the name. -/
theorem binds_of_definer? {f g : FrameId} {name : String} (h : s.definer? f name = some g) :
    s.binds g name := by
  fun_induction definer? s f name with
  | case1 => cases h
  | case2 f frame hframe hbinds =>
    cases h
    rw [binds, hframe]
    exact hbinds
  | case3 => cases h
  | case4 f frame hframe hbinds outer houter hlt ih => exact ih h
  | case5 => cases h

/-! ## Stores with more names -/

/-- The frames of `s` are frames of `t`. They bind the names that they did, and further ones only as `may`
allows. -/
structure Extends (may : FrameId → String → Prop) (s t : Store) : Prop where
  size_le : s.frames.size ≤ t.frames.size
  keeps : ∀ f name, s.binds f name → t.binds f name
  adds : ∀ f < s.frames.size, ∀ name, t.binds f name → s.binds f name ∨ may f name

namespace Extends

/-- A store that does not change extends itself. -/
theorem refl (s : Store) : s.Extends may s :=
  ⟨Nat.le_refl _, fun _ _ h => h, fun _ _ _ h => .inl h⟩

/-- Frames that are new after the first change may get any names by the second. -/
theorem trans (h : s.Extends may t) (h' : t.Extends (fun f name => s.frames.size ≤ f ∨ may f name) u) :
    s.Extends may u where
  size_le := Nat.le_trans h.size_le h'.size_le
  keeps f name hname := h'.keeps f name (h.keeps f name hname)
  adds f hf name hname := by
    rcases h'.adds f (Nat.lt_of_lt_of_le hf h.size_le) name hname with hname | hnew | hmay
    · exact h.adds f hf name hname
    · exact absurd hf (Nat.not_lt.2 hnew)
    · exact .inr hmay

/-- More names may be allowed than are used. -/
theorem mono {may' : FrameId → String → Prop} (h : s.Extends may t)
    (himp : ∀ f name, may f name → may' f name) : s.Extends may' t :=
  ⟨h.size_le, h.keeps, fun f hf name hname => (h.adds f hf name hname).imp id (himp f name)⟩

end Extends

/-- A declaration adds one name to one frame. -/
theorem extends_define {f : FrameId} {key : String} (hmay : may f key) (v : Value) :
    s.Extends may (s.define f key v) where
  size_le := Nat.le_of_eq (size_define key).symm
  keeps _ _ h := binds_define.2 (.inl h)
  adds g _ name h := by
    rcases binds_define.1 h with h | ⟨rfl, rfl, -⟩
    · exact .inl h
    · exact .inr hmay

/-- Creating a frame adds a name to none that there was before. -/
theorem extends_newFrame (parent : Option FrameId) : s.Extends may (s.newFrame parent).2 where
  size_le := (grows_newFrame parent).size_le
  keeps _ _ h := binds_newFrame.trans h
  adds _ _ _ h := .inl (binds_newFrame.symm.trans h)

/-- An assignment binds no new name: it goes to a frame that binds the name already. -/
theorem extends_assign (f : FrameId) (name : Token) (v : Value) :
    s.Extends may (s.assign f name v).2 := by
  unfold assign
  cases hdefiner : s.definer? f name.lexeme with
  | none => exact .refl s
  | some g =>
    have hdefined : s.Extends (fun f key => f = g ∧ key = name.lexeme) (s.define g name.lexeme v) :=
      extends_define ⟨rfl, rfl⟩ v
    refine ⟨hdefined.size_le, hdefined.keeps, fun f hf key hkey => .inl ?_⟩
    rcases hdefined.adds f hf key hkey with hkey | ⟨rfl, rfl⟩
    · exact hkey
    · exact binds_of_definer? hdefiner

end Store

/-! ## The contract -/

namespace Evaluation

open Routine (call become fail modify)

/-- The names that a goal may bind in the frames there are when it is called in the frame `current`. -/
def Goal.May (current : FrameId) : Goal → FrameId → String → Prop
  | .eval _, _, _ => False
  | .exec st, f, name => f = current ∧ name ∈ st.declares

/-- The present frame is the same, and the frames of `s` have got no names but those that they may get. -/
structure Declares (may : FrameId → String → Prop) (s t : State) : Prop where
  current_eq : t.current = s.current
  extends_store : s.store.Extends may t.store

/-- Goals bind only the names that they may. -/
def declaring : Routine.Contract Goal.Result Fault State where
  pre _ := True
  post q out := Declares (q.1.May q.2.current) q.2 out.2

/-- A routine that starts in `s` binds only the names that it may. -/
def Discreet {α : Type} (may : FrameId → String → Prop) (x : Eval α) (s : State) : Prop :=
  x.Meets declaring s fun out => Declares may s out.2

section Discreet

variable {α β : Type} {may may' : FrameId → String → Prop} {s : State}

/-! ### Putting routines together -/

/-- Where nothing happens, nothing is declared. -/
theorem Declares.refl (s : State) : Declares may s s :=
  ⟨rfl, .refl _⟩

/-- More names may be allowed than are used. -/
theorem Discreet.mono {x : Eval α} (h : Discreet may x s) (himp : ∀ f name, may f name → may' f name) :
    Discreet may' x s :=
  Routine.Meets.mono h fun _ hout => ⟨hout.current_eq, hout.extends_store.mono himp⟩

/-- What is pure declares nothing. -/
theorem discreet_pure (a : α) : Discreet may (pure a) s :=
  Declares.refl s

/-- A failure declares nothing. -/
theorem discreet_fail (e : Fault) : Discreet may (fail e : Eval α) s :=
  Declares.refl s

/-- A result that is a failure or not declares nothing. -/
theorem discreet_ofExcept (x : Except Fault α) : Discreet may (Eval.ofExcept x) s :=
  Declares.refl s

/-- A goal that is become declares what it may declare in the present frame. -/
theorem discreet_become (g : Goal) : Discreet (g.May s.current) (become g) s :=
  ⟨trivial, fun _ hout => hout⟩

/-- A statement that is executed declares what it may declare in the present frame. -/
theorem discreet_stmt (st : Stmt) : Discreet ((Goal.exec st).May s.current) (Eval.stmt st) s :=
  ⟨trivial, fun _ hout => hout⟩

/-- An expression binds no names. -/
theorem discreet_expr (e : Expr) : Discreet may (Eval.expr e) s := by
  have hexpr : Discreet ((Goal.eval e).May s.current) (Eval.expr e) s := ⟨trivial, fun _ hout => hout⟩
  exact hexpr.mono fun _ _ hmay => hmay.elim

/-- What follows works in the same frame, and may do what it likes with frames that are new by then. -/
theorem discreet_bind {x : Eval α} {f : α → Eval β} (hx : Discreet may x s)
    (hf : ∀ a t, t.current = s.current →
      Discreet (fun f name => s.store.frames.size ≤ f ∨ may f name) (f a) t) :
    Discreet may (x >>= f) s := by
  unfold Discreet
  rw [Routine.meets_bind]
  refine Routine.Meets.mono hx ?_
  rintro ⟨e | a, t⟩ hdeclares
  · exact hdeclares
  · refine Routine.Meets.mono (hf a t hdeclares.current_eq) ?_
    intro out hout
    exact ⟨hout.current_eq.trans hdeclares.current_eq, hdeclares.extends_store.trans hout.extends_store⟩

/-- Of two parts, the second works on a store that the first has extended, in the same frame. -/
theorem discreet_then {x : Eval α} {f : α → Eval β} (hx : Discreet may x s)
    (hf : ∀ a t, t.current = s.current → Discreet may (f a) t) : Discreet may (x >>= f) s :=
  discreet_bind hx fun a t ht => (hf a t ht).mono fun _ _ => .inr

/-- A choice declares what one of its sides does. -/
theorem discreet_ite {c : Prop} [Decidable c] {x y : Eval α} (hx : Discreet may x s)
    (hy : Discreet may y s) : Discreet may (if c then x else y) s := by
  split
  · exact hx
  · exact hy

/-- Work in another frame is discreet if it is so there; the frame that comes back is the one from
before. -/
theorem discreet_inFrame {frame : FrameId} {x : Eval α}
    (hx : Discreet may x { s with current := frame }) : Discreet may (Eval.inFrame frame x) s := by
  refine (Routine.meets_ensuring declaring x (fun t => { t with current := s.current })
    { s with current := frame }).2 ?_
  exact Routine.Meets.mono hx fun out hout => ⟨rfl, hout.extends_store⟩

/-- Counting calls has nothing to do with what is declared. -/
theorem discreet_inCall {x : Eval α} (hx : Discreet may x { s with depth := s.depth + 1 }) :
    Discreet may (Eval.inCall x) s := by
  refine (Routine.meets_ensuring declaring x (fun t => { t with depth := t.depth - 1 })
    { s with depth := s.depth + 1 }).2 ?_
  exact Routine.Meets.mono hx fun out hout => ⟨hout.current_eq, hout.extends_store⟩

/-- Whatever is bound in a frame that has just been created, no other frame gets a name. -/
theorem discreet_newFrame (parent : FrameId) {f : FrameId → Eval β}
    (hf : ∀ frame t, Discreet (fun f _ => f = frame) (f frame) t) :
    Discreet may (Eval.newFrame parent >>= f) s := by
  refine Routine.Meets.mono (hf s.store.frames.size
    { s with store := (s.store.newFrame (some parent)).2 }) fun out hout => ⟨hout.current_eq, ?_⟩
  exact (Store.extends_newFrame (some parent)).trans
    (hout.extends_store.mono fun _ _ hnew => .inl (Nat.le_of_eq hnew.symm))

/-! ### The routines of the evaluator -/

/-- A declaration must be allowed in the present frame. -/
theorem discreet_define {name : String} (hmay : may s.current name) (v : Value) :
    Discreet may (Eval.define name v) s :=
  ⟨rfl, Store.extends_define hmay v⟩

/-- An assignment binds no name: it needs one that is bound. -/
theorem discreet_assign (name : Token) (v : Value) : Discreet may (Eval.assign name v) s :=
  ⟨rfl, Store.extends_assign s.current name v⟩

/-- Arguments declare nothing in the frames that there were before. -/
theorem discreet_evalAll (es : List Expr) (values : List Value) :
    Discreet may (evalAll es values) s := by
  induction es generalizing values s with
  | nil => exact discreet_pure _
  | cons e es ih => exact discreet_then (discreet_expr e) fun value t _ => ih (value :: values)

/-- Statements declare in the present frame what one of them declares. -/
theorem discreet_execAll (body : List Stmt) :
    Discreet (fun f name => f = s.current ∧ name ∈ body.flatMap Stmt.declares) (execAll body) s := by
  induction body generalizing s with
  | nil => exact discreet_pure _
  | cons st body ih =>
    refine discreet_then ((discreet_stmt st).mono fun _ _ hmay => ⟨hmay.1, ?_⟩) fun flow t ht => ?_
    · exact List.mem_flatMap.2 ⟨st, List.mem_cons_self, hmay.2⟩
    · cases flow with
      | normal =>
        refine (ht ▸ ih).mono fun _ _ hmay => ⟨hmay.1, ?_⟩
        exact List.mem_append_right _ hmay.2
      | returned v => exact discreet_pure _

/-- Statements that are executed in a frame bind names in no other. -/
theorem discreet_inFrame_execAll (frame : FrameId) (body : List Stmt) :
    Discreet (fun f _ => f = frame) (Eval.inFrame frame (execAll body)) s :=
  discreet_inFrame ((discreet_execAll body).mono fun _ _ hmay => hmay.1)

/-- Parameters are bound in the frame of the call only. -/
theorem extends_defineAll (frame : FrameId) (bindings : List (Token × Value)) (t : Store) :
    t.Extends (fun f _ => f = frame) (defineAll t frame bindings) := by
  induction bindings generalizing t with
  | nil => exact .refl t
  | cons b bindings ih =>
    obtain ⟨param, v⟩ := b
    exact (Store.extends_define rfl v).trans ((ih _).mono fun _ _ => .inr)

/-- A call declares nothing in the frames that there were before, because its own frame is new. -/
theorem discreet_apply (c : Closure) (args : List Value) : Discreet may (apply c args) s := by
  refine discreet_newFrame c.frame fun frame t => discreet_then ?_ fun _ u _ => discreet_then ?_ ?_
  · exact ⟨rfl, extends_defineAll frame _ t.store⟩
  · exact discreet_inFrame_execAll frame c.declaration.body
  · intro flow _ _
    cases flow with
    | normal => exact discreet_pure _
    | returned v => exact discreet_pure _

/-- **Expressions declare nothing**, whatever functions they call. -/
theorem discreet_eval (e : Expr) : Discreet may (eval e) s := by
  cases e with
  | literal value => exact discreet_pure _
  | grouping inner => exact (discreet_become (.eval inner)).mono fun _ _ hmay => hmay.elim
  | unary operator right => exact discreet_then (discreet_expr right) fun _ _ _ => discreet_ofExcept _
  | binary left operator right =>
    exact discreet_then (discreet_expr left) fun _ _ _ => discreet_then (discreet_expr right)
      fun _ _ _ => discreet_ofExcept _
  | logical left operator right =>
    refine discreet_then (discreet_expr left) fun _ _ _ => discreet_ite (discreet_pure _) ?_
    exact (discreet_become (.eval right)).mono fun _ _ hmay => hmay.elim
  | «variable» name => exact Declares.refl s
  | assign name value =>
    exact discreet_then (discreet_expr value) fun _ _ _ => discreet_then (discreet_assign name _)
      fun _ _ _ => discreet_pure _
  | call callee paren args =>
    refine discreet_then (discreet_expr callee) fun v _ _ => ?_
    cases v with
    | function c =>
      refine discreet_then (discreet_evalAll args []) fun values _ _ =>
        discreet_ite (discreet_fail _) ?_
      refine discreet_then (Declares.refl _) fun _ _ _ => discreet_ite (discreet_fail _) ?_
      exact discreet_inCall (discreet_apply c values)
    | _ => exact discreet_fail _

/-- **Statements declare in the present frame only**, and only names that stand outside all their blocks
and functions. -/
theorem discreet_exec (st : Stmt) : Discreet ((Goal.exec st).May s.current) (exec st) s := by
  cases st with
  | expression e => exact discreet_then (discreet_expr e) fun _ _ _ => discreet_pure _
  | print keyword e =>
    exact discreet_then (discreet_expr e) fun v _ _ => discreet_then ⟨rfl, .refl _⟩ fun _ _ _ =>
      discreet_pure _
  | var name init =>
    have hmay : ∀ t : State, t.current = s.current →
        (Goal.exec (.var name init)).May s.current t.current name.lexeme :=
      fun t ht => ⟨ht, List.mem_cons_self⟩
    cases init with
    | some e =>
      exact discreet_then (discreet_expr e) fun v t ht => discreet_then
        (discreet_define (hmay t ht) v) fun _ _ _ => discreet_pure _
    | none =>
      exact discreet_then (discreet_pure _) fun v t ht => discreet_then
        (discreet_define (hmay t ht) v) fun _ _ _ => discreet_pure _
  | block body =>
    refine discreet_then (Declares.refl s) fun parent _ _ => discreet_newFrame parent ?_
    exact fun frame _ => discreet_inFrame_execAll frame body
  | ifThen condition consequent =>
    refine discreet_then (discreet_expr condition) fun _ t ht => discreet_ite ?_ (discreet_pure _)
    exact ht ▸ discreet_become (.exec consequent)
  | ifElse condition consequent alternative =>
    refine discreet_then (discreet_expr condition) fun _ t ht => discreet_ite ?_ ?_
    · refine (ht ▸ discreet_become (.exec consequent)).mono fun _ _ hmay => ⟨hmay.1, ?_⟩
      exact List.mem_append_left _ hmay.2
    · refine (ht ▸ discreet_become (.exec alternative)).mono fun _ _ hmay => ⟨hmay.1, ?_⟩
      exact List.mem_append_right _ hmay.2
  | «while» condition body =>
    refine discreet_then (discreet_expr condition) fun _ t ht => discreet_ite ?_ (discreet_pure _)
    refine discreet_then (ht ▸ discreet_stmt body) fun flow u hu => ?_
    cases flow with
    | normal => exact (hu.trans ht) ▸ discreet_become (.exec (.while condition body))
    | returned v => exact discreet_pure _
  | function name params body =>
    refine discreet_then ⟨rfl, ?_⟩ fun _ _ _ => discreet_pure _
    have hmay : (Goal.exec (.function name params body)).May s.current s.current name.lexeme :=
      ⟨rfl, List.mem_cons_self⟩
    -- the identity that is given out changes no frame
    have hdefined := Store.extends_define (s := (s.store.newClosure ⟨name, params, body⟩ s.current).2)
      hmay (.function (s.store.newClosure ⟨name, params, body⟩ s.current).1)
    exact ⟨hdefined.size_le, hdefined.keeps, hdefined.adds⟩
  | «return» keyword value =>
    cases value with
    | some e => exact discreet_then (discreet_expr e) fun _ _ _ => discreet_pure _
    | none => exact discreet_then (discreet_pure _) fun _ _ _ => discreet_pure _

end Discreet

/-- **Goals bind only the names that they may**, whatever is called on the way. -/
theorem declaring_keeps : Routine.Keeps rules declaring
  | .eval e, _, _ => discreet_eval e
  | .exec st, _, _ => discreet_exec st

/-- What is discreet declares, in every run, only what it may. -/
theorem Discreet.declares {α : Type} {may : FrameId → String → Prop} {x : Eval α} {s : State}
    (hx : Discreet may x s) {out : Except Fault α × State} (h : Routine.value rules x s = some out) :
    Declares may s out.2 :=
  declaring_keeps.post_of_value hx h

end Evaluation

end Treewalk
