import Treewalk.Proofs.Evaluation.Assembly
import Treewalk.Proofs.Evaluation.Lookup

/-!
# Copies of values

A value that is read, assigned, passed, returned or captured is copied, and the copy of a function is equal to
it (`CopiesKept`). A call copies most: its arguments into a new frame, where the parameters are read
(`lookup_defineAll`); what the body returns out of it; and whatever the body reads of the variables around the
declaration of the function, because their frame encloses the new one (`Store.Ordered.lookup_newFrame_self`).
-/

namespace Treewalk

/-- A copy is the same value, and it is equal to the original if this is a function. -/
def Value.IsCopy (w v : Value) : Prop :=
  w = v ∧ ∀ c, v = .function c → w.equals v = true

/-- Of a number that is NaN this is not true, but a function is equal to itself. -/
theorem Value.isCopy_self (v : Value) : v.IsCopy v := by
  refine ⟨rfl, ?_⟩
  rintro c rfl
  exact beq_self_eq_true c.identity

namespace Store

variable {s : Store} {f g : FrameId} {name : String} {v : Value}

/-- What is defined in a frame is read from it. -/
theorem Ordered.lookup_define_self (h : s.Ordered) (hf : f < s.frames.size) (key : String) :
    (s.define f key v).lookup f name = if name = key then some v else s.lookup f name := by
  by_cases hname : name = key
  · rw [if_pos hname, hname]
    exact h.lookup_define_of_unshadowed (h.unshadowed_self hf key)
  · rw [if_neg hname]
    exact h.lookup_define_of_not fun hseen => hname hseen.1

/-- What is assigned is read afterwards. -/
theorem Ordered.lookup_assign_self (h : s.Ordered) {n : Token}
    (hok : (s.assign f n v).1 = .ok ()) : (s.assign f n v).2.lookup f n.lexeme = some v := by
  by_cases hnearest : ∃ d, s.Nearest n.lexeme f d
  · obtain ⟨d, hd⟩ := hnearest
    rw [h.assign_of_nearest hd]
    exact h.lookup_define_of_unshadowed hd.1
  · rw [h.assign_of_not_nearest hnearest] at hok
    cases hok

/-- A new frame does not change what names are bound to. -/
theorem bound?_newFrame (parent : Option FrameId) :
    (s.newFrame parent).2.bound? g name = s.bound? g name := by
  unfold bound? newFrame
  rw [Array.getElem?_push]
  split
  next hg => rw [hg, Array.getElem?_eq_none (Nat.le_refl _)]; rfl
  next => rfl

/-- A new frame is not seen from the frames that were there before. -/
theorem Ordered.lookup_newFrame (h : s.Ordered) {p : FrameId} (hp : p < s.frames.size)
    (hg : g < s.frames.size) : (s.newFrame (some p)).2.lookup g name = s.lookup g name := by
  have hnew : (s.newFrame (some p)).2.Ordered := h.newFrame fun q hq => by cases hq; exact hp
  induction g using Nat.strongRecOn with
  | _ g ih =>
    rw [hnew.lookup_eq, h.lookup_eq, bound?_newFrame, parent?_newFrame, if_neg (Nat.ne_of_lt hg)]
    cases hparent : s.parent? g with
    | none => rfl
    | some q =>
      have hq := h g q hparent
      rw [Option.bind_some, Option.bind_some, ih q hq (Nat.lt_trans hq hg)]

/-- From a new frame, everything is read as from the enclosing one. -/
theorem Ordered.lookup_newFrame_self (h : s.Ordered) {p : FrameId} (hp : p < s.frames.size) :
    (s.newFrame (some p)).2.lookup s.frames.size name = s.lookup p name := by
  have hnew : (s.newFrame (some p)).2.Ordered := h.newFrame fun q hq => by cases hq; exact hp
  rw [hnew.lookup_eq, bound?_newFrame, bound?_of_le (Nat.le_refl _), parent?_newFrame, if_pos rfl,
    Option.bind_some, h.lookup_newFrame hp hp]
  rfl

end Store

namespace Evaluation

open Routine (value)

/-- The last of the bindings has precedence. -/
theorem lookup_defineAll {s : Store} {frame : FrameId} (h : s.Ordered) (hframe : frame < s.frames.size)
    (bindings : List (Token × Value)) (name : String) :
    (defineAll s frame bindings).lookup frame name =
      ((bindings.reverse.find? (·.1.lexeme = name)).map (·.2)).or (s.lookup frame name) := by
  induction bindings generalizing s with
  | nil => rfl
  | cons b bindings ih =>
    obtain ⟨param, v⟩ := b
    have hframe' : frame < (s.define frame param.lexeme v).frames.size := by
      rwa [Store.size_define]
    rw [defineAll, ih (h.define frame param.lexeme v) hframe', h.lookup_define_self hframe,
      List.reverse_cons, List.find?_append]
    by_cases hname : name = param.lexeme
    · subst hname
      cases bindings.reverse.find? (·.1.lexeme = param.lexeme) <;> simp
    · cases bindings.reverse.find? (·.1.lexeme = name) <;> simp [hname, Ne.symm hname]

/-! ## Calls -/

namespace State

/-- The state in which the body of a function begins. -/
def entered (s : State) (c : Closure) (args : List Value) : State :=
  let (frame, store) := s.store.newFrame (some c.frame)
  { s with store := defineAll store frame (c.declaration.params.zip args), current := frame }

/-- What is read of a name is a copy of a value. -/
def Reads (s : State) (name : String) (v : Value) : Prop :=
  ∃ w, s.store.lookup s.current name = some w ∧ w.IsCopy v

/-- In the body of a function, each parameter is read as its argument, unless a later one has the same name,
and every other name is read as where the function was declared. -/
structure Passes (s : State) (c : Closure) (args : List Value) : Prop where
  parameter : ∀ (i : Nat) (p : Token) (v : Value), c.declaration.params[i]? = some p →
    args[i]? = some v →
    (∀ (j : Nat) (q : Token), i < j → c.declaration.params[j]? = some q → q.lexeme ≠ p.lexeme) →
    (s.entered c args).Reads p.lexeme v
  captured : ∀ name v, (∀ p ∈ c.declaration.params, p.lexeme ≠ name) →
    s.store.lookup c.frame name = some v → (s.entered c args).Reads name v

end State

/-- What a function comes to. -/
def Flow.result : Flow → Value
  | .normal => .nil
  | .returned v => v

/-- Expressions come to values, one after the other. -/
inductive Evaluates : List Expr → State → List Value → State → Prop where
  | nil (s : State) : Evaluates [] s [] s
  | cons {e : Expr} {es : List Expr} {v : Value} {vs : List Value} {s t u : State}
      (h : value rules (eval e) s = some (.ok v, t)) (hs : Evaluates es t vs u) :
      Evaluates (e :: es) s (v :: vs) u

variable {s t u : State} {c : Closure} {args : List Value}

/-- Applying a function is executing its body in the frame made for it. Its result is what the body
returns, or `nil`. -/
theorem value_apply (c : Closure) (args : List Value) (s : State) :
    value rules (apply c args) s =
      (value rules (execAll c.declaration.body) (s.entered c args)).map fun out =>
        (out.1.map Flow.result, { out.2 with current := s.current }) := by
  let s' : State := { s.entered c args with current := s.current }
  have hentered : value rules (apply c args) s = value rules
      (do match ← Eval.inFrame s.store.frames.size (execAll c.declaration.body) with
          | .normal => pure .nil
          | .returned value => pure value) s' := rfl
  rw [hentered, Routine.value_bind, Eval.value_inFrame]
  show (Option.map _ (value rules (execAll c.declaration.body) (s.entered c args))).bind _ = _
  rcases value rules (execAll c.declaration.body) (s.entered c args) with _ | ⟨f | _ | v, t⟩ <;> rfl

/-- A routine that comes to its end has come to the end of its first part. -/
theorem exists_of_value_bind {α β : Type} {x : Eval α} {f : α → Eval β} {b : β}
    (h : value rules (x >>= f) s = some (.ok b, u)) :
    ∃ a t, value rules x s = some (.ok a, t) ∧ value rules (f a) t = some (.ok b, u) := by
  rw [Routine.value_bind] at h
  obtain ⟨⟨e | a, t⟩, hx, h⟩ := Option.bind_eq_some_iff.1 h
  · cases h
  · exact ⟨a, t, hx, h⟩

/-- If something succeeds that begins with evaluating an expression, then this has succeeded too. -/
theorem exists_of_value_expr {β : Type} {e : Expr} {f : Value → Eval β} {b : β}
    (h : value rules (Eval.expr e >>= f) s = some (.ok b, u)) :
    ∃ v t, value rules (eval e) s = some (.ok v, t) ∧ value rules (f v) t = some (.ok b, u) := by
  obtain ⟨v, t, hv, hf⟩ := exists_of_value_bind h
  exact ⟨v, t, by rwa [Eval.expr, Routine.value_call] at hv, hf⟩

/-- The values of arguments come from evaluating them from left to right, each in the state that the one
before has left. -/
theorem evaluates_of_evalAll {es : List Expr} {values vs : List Value}
    (h : value rules (evalAll es values) s = some (.ok vs, u)) :
    ∃ ws, vs = values.reverse ++ ws ∧ Evaluates es s ws u := by
  induction es generalizing values s with
  | nil =>
    cases h
    exact ⟨[], by simp, .nil _⟩
  | cons e es ih =>
    obtain ⟨v, t, hv, h⟩ := exists_of_value_expr h
    obtain ⟨ws, rfl, hws⟩ := ih h
    exact ⟨v :: ws, by simp, .cons hv hws⟩

/-- Evaluating arguments leaves the store well-formed. -/
theorem Evaluates.sound {es : List Expr} {vs : List Value} {s u : State} (h : Evaluates es s vs u)
    (hs : s.Sound s.store) : u.Sound s.store := by
  induction h with
  | nil => exact hs
  | cons hv _ ih =>
    have hleaves := (tidy_eval _).leaves hs hv
    exact hleaves.sound.trans (ih hleaves.sound.refl)

/-- A list that is searched from its end. -/
theorem find?_reverse_of_last {α : Type} {l : List α} {p : α → Bool} {i : Nat} {a : α}
    (ha : l[i]? = some a) (hp : p a = true) (hlater : ∀ j b, i < j → l[j]? = some b → p b = false) :
    l.reverse.find? p = some a := by
  obtain ⟨hi, rfl⟩ := List.getElem?_eq_some_iff.1 ha
  have hl : l.reverse = (l.take i ++ l[i] :: l.drop (i + 1)).reverse := by simp
  rw [List.reverse_append, List.reverse_cons, List.append_assoc] at hl
  rw [List.find?_eq_some_iff_append]
  refine ⟨hp, (l.drop (i + 1)).reverse, (l.take i).reverse, hl, fun b hb => ?_⟩
  rw [List.mem_reverse, List.mem_iff_getElem?] at hb
  obtain ⟨j, hj⟩ := hb
  rw [List.getElem?_drop] at hj
  rw [hlater (i + 1 + j) b (by omega) hj]
  rfl

/-- What is read in the body of a function. -/
theorem lookup_entered (hs : s.Sound s.store) (hc : s.store.Allocates (.function c)) (args : List Value)
    (name : String) :
    (s.entered c args).store.lookup (s.entered c args).current name =
      (((c.declaration.params.zip args).reverse.find? (·.1.lexeme = name)).map (·.2)).or
        (s.store.lookup c.frame name) := by
  have hordered := hs.wellFormed.ordered
  have hnew : (s.store.newFrame (some c.frame)).2.Ordered :=
    hordered.newFrame fun p hp => by cases hp; exact hc
  have hframe : s.store.frames.size < (s.store.newFrame (some c.frame)).2.frames.size := by
    rw [Store.size_newFrame]
    exact Nat.lt_succ_self _
  rw [← hordered.lookup_newFrame_self hc]
  exact lookup_defineAll hnew hframe _ name

/-- **In the frame of a call the arguments and the captured variables can be read.** Where parameters
share a name, the last of them counts. -/
theorem passes (hs : s.Sound s.store) (hc : s.store.Allocates (.function c)) (args : List Value) :
    s.Passes c args where
  parameter i p v hp hv hlast := by
    refine ⟨v, ?_, v.isCopy_self⟩
    have hbinding : (c.declaration.params.zip args)[i]? = some (p, v) :=
      List.getElem?_zip_eq_some.2 ⟨hp, hv⟩
    have hlater : ∀ j b, i < j → (c.declaration.params.zip args)[j]? = some b →
        decide (b.1.lexeme = p.lexeme) = false := by
      intro j b hj hb
      exact decide_eq_false (hlast j b.1 hj (List.getElem?_zip_eq_some.1 hb).1)
    rw [lookup_entered hs hc, find?_reverse_of_last hbinding (decide_eq_true rfl) hlater]
    rfl
  captured name v hname hv := by
    refine ⟨v, ?_, v.isCopy_self⟩
    have hnone : (c.declaration.params.zip args).reverse.find? (·.1.lexeme = name) = none := by
      refine List.find?_eq_none.2 fun b hb => ?_
      have hparam := (List.of_mem_zip (List.mem_reverse.1 hb)).1
      simpa using hname b.1 hparam
    rw [lookup_entered hs hc, hnone]
    exact hv

/-- A call that comes to its end has come to the end of the body. -/
theorem exists_of_value_enter {paren : Token} {w : Value}
    (h : value rules (do
      if args.length ≠ c.arity then
        Routine.fail (.arityMismatch paren c.arity args.length)
      else if maxCallDepth ≤ (← Eval.depth) then
        Routine.fail (.stackOverflow paren)
      else
        Eval.inCall (apply c args)) s = some (.ok w, u)) :
    ∃ flow t, value rules (execAll c.declaration.body)
      (State.entered { s with depth := s.depth + 1 } c args) = some (.ok flow, t) ∧ w = flow.result := by
  split at h
  · cases h
  · obtain ⟨d, t, hd, h⟩ := exists_of_value_bind h
    cases hd
    split at h
    · cases h
    · rw [Eval.value_inCall, value_apply] at h
      simp only [Option.map_map, Option.map_eq_some_iff] at h
      obtain ⟨⟨f | flow, t⟩, hbody, hout⟩ := h
      · cases hout
      · cases hout
        exact ⟨flow, t, hbody, rfl⟩

/-! ## All ways to copy -/

/-- Reading a variable, assigning a value to it, defining it, returning a value and calling a function, as
far as they begin in a state and come to their end: what is copied is equal to the original. -/
structure CopiesKept (s : State) : Prop where
  reading : ∀ (name : Token) (w : Value) (t : State),
    value rules (eval (.variable name)) s = some (.ok w, t) →
      ∃ v, s.store.lookup s.current name.lexeme = some v ∧ w.IsCopy v
  assigning : ∀ (name : Token) (e : Expr) (w : Value) (u : State),
    value rules (eval (.assign name e)) s = some (.ok w, u) →
      ∃ v t, value rules (eval e) s = some (.ok v, t) ∧ w.IsCopy v ∧ u.Reads name.lexeme v
  defining : ∀ (name : Token) (e : Expr) (flow : Flow) (u : State),
    value rules (exec (.var name (some e))) s = some (.ok flow, u) →
      ∃ v t, value rules (eval e) s = some (.ok v, t) ∧ u.Reads name.lexeme v
  returning : ∀ (keyword : Token) (e : Expr) (flow : Flow) (t : State),
    value rules (exec (.return keyword (some e))) s = some (.ok flow, t) →
      ∃ v w, value rules (eval e) s = some (.ok v, t) ∧ flow = .returned w ∧ w.IsCopy v
  calling : ∀ (callee : Expr) (paren : Token) (es : List Expr) (w : Value) (u : State),
    value rules (eval (.call callee paren es)) s = some (.ok w, u) →
      ∃ (c : Closure) (t₁ : State) (args : List Value) (t₂ : State) (flow : Flow) (t₃ : State),
        value rules (eval callee) s = some (.ok (.function c), t₁) ∧ Evaluates es t₁ args t₂ ∧
        State.Passes { t₂ with depth := t₂.depth + 1 } c args ∧
        value rules (execAll c.declaration.body)
          (State.entered { t₂ with depth := t₂.depth + 1 } c args) = some (.ok flow, t₃) ∧
        w.IsCopy flow.result

/-- **What is copied is equal to the original.** -/
theorem copiesKept (hs : s.Sound s.store) : CopiesKept s where
  reading name w t h := by
    have hget : s.store.get s.current name = .ok w := congrArg Prod.fst (Option.some.inj h)
    exact ⟨w, Store.get_eq_ok_iff.1 hget, w.isCopy_self⟩
  assigning name e w u h := by
    obtain ⟨v, t, hv, h⟩ := exists_of_value_expr h
    obtain ⟨⟨⟩, t', hassign, h⟩ := exists_of_value_bind h
    cases h
    have hordered := ((tidy_eval e).leaves hs hv).sound.wellFormed.ordered
    have hok : (t.store.assign t.current name w).1 = .ok () :=
      congrArg Prod.fst (Option.some.inj hassign)
    obtain rfl : { t with store := (t.store.assign t.current name w).2 } = u :=
      congrArg Prod.snd (Option.some.inj hassign)
    exact ⟨w, t, hv, w.isCopy_self, w, hordered.lookup_assign_self hok, w.isCopy_self⟩
  defining name e flow u h := by
    obtain ⟨v, t, hv, h⟩ := exists_of_value_expr h
    obtain ⟨⟨⟩, t', hdefine, h⟩ := exists_of_value_bind h
    cases h
    have hsound := ((tidy_eval e).leaves hs hv).sound
    obtain rfl : { t with store := t.store.define t.current name.lexeme v } = u :=
      congrArg Prod.snd (Option.some.inj hdefine)
    refine ⟨v, t, hv, v, ?_, v.isCopy_self⟩
    exact (hsound.wellFormed.ordered.lookup_define_self hsound.current _).trans (if_pos rfl)
  returning keyword e flow t h := by
    obtain ⟨v, t', hv, h⟩ := exists_of_value_expr h
    cases h
    exact ⟨v, v, hv, rfl, v.isCopy_self⟩
  calling callee paren es w u h := by
    obtain ⟨v, t₁, hv, h⟩ := exists_of_value_expr h
    cases v with
    | function c =>
      obtain ⟨args, t₂, hargs, h⟩ := exists_of_value_bind h
      obtain ⟨_, rfl, hevaluates⟩ := evaluates_of_evalAll hargs
      obtain ⟨flow, t₃, hbody, rfl⟩ := exists_of_value_enter h
      have hcallee := (tidy_eval callee).leaves hs hv
      have hsound := hevaluates.sound hcallee.sound.refl
      have hc := (hcallee.result (.function c) rfl).mono hsound.grows
      have hentered : State.Sound t₂.store { t₂ with depth := t₂.depth + 1 } :=
        ⟨hsound.wellFormed, .refl _, hsound.current⟩
      have hpasses := @passes { t₂ with depth := t₂.depth + 1 } c hentered hc
      exact ⟨c, t₁, _, t₂, flow, t₃, hv, hevaluates, hpasses _, hbody, Value.isCopy_self _⟩
    | _ => cases h

end Evaluation

end Treewalk
