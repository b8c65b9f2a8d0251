import Mathlib.Order.WellFounded
import Treewalk.Proofs.Evaluation.Assembly
import Treewalk.Proofs.Plan.Descent

/-!
# Without loops every program ends

Recursion alone cannot go on for ever, because the depth of calls is bounded. A goal that is called for
another one is a part of it, or it belongs to a function and is called at a greater depth; only a loop calls
itself again. So the calls that can still be nested, and after that the size of the goal, become smaller
(`Smaller`).

The bodies of functions come from the store, and no size that is known beforehand bounds them. That none of
them has a loop is a property that a run hands down (`Heritage.loopless`), and the two contracts together
make every run end (`exists_value_of_loopless`).
-/

namespace Treewalk

/-! ## Trees without loops -/

mutual

/-- No loop stands in a statement, nor in a function that is declared there. -/
def Stmt.Loopless : Stmt → Prop
  | .while _ _ => False
  | .block body => Stmt.LooplessAll body
  | .ifThen _ consequent => consequent.Loopless
  | .ifElse _ consequent alternative => consequent.Loopless ∧ alternative.Loopless
  | .function _ _ body => Stmt.LooplessAll body
  | _ => True

/-- No loop stands in some statements, nor in a function that is declared there. -/
def Stmt.LooplessAll : List Stmt → Prop
  | [] => True
  | s :: ss => s.Loopless ∧ Stmt.LooplessAll ss

end

namespace Stmt

variable {s s' : Stmt}

/-- A list has no loop if none of its statements has. -/
theorem looplessAll_iff {ss : List Stmt} : LooplessAll ss ↔ ∀ s ∈ ss, s.Loopless := by
  induction ss with
  | nil => simp [LooplessAll]
  | cons s ss ih => simp [LooplessAll, ih]

/-- The parts of a statement without loops have none. -/
theorem Loopless.of_part (h : s.Loopless) (hs' : s' ∈ s.parts) : s'.Loopless := by
  cases s with
  | block body => exact looplessAll_iff.1 h s' hs'
  | function name params body => exact looplessAll_iff.1 h s' hs'
  | ifThen condition consequent =>
    obtain rfl : s' = consequent := by simpa [parts] using hs'
    exact h
  | ifElse condition consequent alternative =>
    obtain rfl | rfl : s' = consequent ∨ s' = alternative := by simpa [parts] using hs'
    · exact h.1
    · exact h.2
  | «while» condition body => exact h.elim
  | _ => simp [parts] at hs'

end Stmt

/-! ## Parts are smaller -/

namespace Expr

/-- The parts of an expression are smaller. -/
theorem sizeOf_part {e e' : Expr} (h : e' ∈ e.parts) : sizeOf e' < sizeOf e := by
  cases e with
  | call callee paren args =>
    rcases List.mem_cons.1 h with rfl | hargs
    · simp only [call.sizeOf_spec]
      omega
    · have hlt := List.sizeOf_lt_of_mem hargs
      simp only [call.sizeOf_spec]
      omega
  | grouping inner | unary operator inner | assign name inner =>
    obtain rfl : e' = inner := List.mem_singleton.1 h
    simp only [grouping.sizeOf_spec, unary.sizeOf_spec, assign.sizeOf_spec]
    omega
  | binary left operator right | logical left operator right =>
    obtain rfl | rfl : e' = left ∨ e' = right := by simpa [parts] using h
    all_goals
      simp only [binary.sizeOf_spec, logical.sizeOf_spec]
      omega
  | literal | «variable» => cases h

end Expr

namespace Stmt

/-- The expressions of a statement are smaller. -/
theorem sizeOf_expr {st : Stmt} {e : Expr} (h : e ∈ st.exprs) : sizeOf e < sizeOf st := by
  cases st with
  | expression e' | print keyword e' | ifThen e' consequent | ifElse e' consequent alternative
  | «while» e' body =>
    obtain rfl : e = e' := List.mem_singleton.1 h
    simp only [expression.sizeOf_spec, print.sizeOf_spec, ifThen.sizeOf_spec, ifElse.sizeOf_spec,
      while.sizeOf_spec]
    omega
  | var name init | «return» name init =>
    obtain rfl : init = some e := by simpa [exprs] using h
    simp only [var.sizeOf_spec, return.sizeOf_spec, Option.some.sizeOf_spec]
    omega
  | block | function => cases h

/-- The parts of a statement are smaller. -/
theorem sizeOf_part {st st' : Stmt} (h : st' ∈ st.parts) : sizeOf st' < sizeOf st := by
  cases st with
  | block body =>
    have hlt := List.sizeOf_lt_of_mem (show st' ∈ body from h)
    simp only [block.sizeOf_spec]
    omega
  | function name params body =>
    have hlt := List.sizeOf_lt_of_mem (show st' ∈ body from h)
    simp only [function.sizeOf_spec]
    omega
  | ifThen condition inner | «while» condition inner =>
    obtain rfl : st' = inner := List.mem_singleton.1 h
    simp only [ifThen.sizeOf_spec, while.sizeOf_spec]
    omega
  | ifElse condition consequent alternative =>
    obtain rfl | rfl : st' = consequent ∨ st' = alternative := by simpa [parts] using h
    all_goals
      simp only [ifElse.sizeOf_spec]
      omega
  | expression | print | var | «return» => cases h

end Stmt

namespace Evaluation

open Routine (call become value rulesOf)

/-! ## Goals become smaller -/

namespace Goal

/-- How large the tree is that a goal is about. -/
noncomputable def size : Goal → Nat
  | eval e => sizeOf e
  | exec st => sizeOf st

/-- The tree that a goal is about has no loop. -/
def Loopless : Goal → Prop
  | eval _ => True
  | exec st => st.Loopless

variable {g g' : Goal}

/-- A goal that is called for another one is smaller, unless it is a loop that begins anew. -/
theorem Near.size_lt (h : Near g g') (hg' : g'.Loopless) : g'.size < g.size := by
  cases h with
  | part h => exact Expr.sizeOf_part h
  | expr h => exact Stmt.sizeOf_expr h
  | stmt h => exact Stmt.sizeOf_part h
  | again condition body => exact hg'.elim

end Goal

/-- How many more calls can be nested, and how large the goal is. -/
noncomputable def extent (q : Goal × State) : Nat × Nat :=
  (maxCallDepth - q.2.depth, q.1.size)

/-- Fewer calls can be nested, or as many and the goal is smaller. -/
def Smaller (q q' : Goal × State) : Prop :=
  Prod.Lex (· < ·) (· < ·) (extent q) (extent q')

/-- Calls cannot become deeper for ever, nor goals smaller at the same depth. -/
theorem smaller_wellFounded : WellFounded Smaller :=
  InvImage.wf extent (WellFounded.prod_lex Nat.lt_wfRel.wf Nat.lt_wfRel.wf)

/-- Goals without loops are called only if they are smaller than a given one, and all leave the depth as it
was. -/
def descending (q₀ : Goal × State) : Routine.Contract Goal.Result Fault State where
  pre q := q.1.Loopless → Smaller q q₀
  post q out := out.2.depth = q.2.depth

variable {near : Goal → Prop} {α : Type} {x : Eval α}

/-- **Single steps make goals smaller**, if they call only smaller ones at the same depth. -/
theorem Assembled.meets_descending (hx : Assembled near x) {q₀ : Goal × State} {s : State}
    (hdepth : q₀.2.depth ≤ s.depth)
    (hnear : ∀ g t, near g → t.depth = s.depth → g.Loopless → Smaller (g, t) q₀) :
    x.Meets (descending q₀) s fun out => out.2.depth = s.depth := by
  induction hx generalizing s with
  | locally f => rfl
  | print keyword v => rfl
  | call h => exact ⟨hnear _ s h rfl, fun _ hout => hout⟩
  | become h => exact ⟨hnear _ s h rfl, fun _ hout => hout⟩
  | bind _ _ ihx ihf =>
    rw [Routine.meets_bind]
    refine (ihx hdepth hnear).mono ?_
    rintro ⟨e | a, t⟩ ht
    · exact ht
    · have ht : t.depth = s.depth := ht
      refine (ihf a (ht ▸ hdepth) fun g u hg hu => hnear g u hg (hu.trans ht)).mono ?_
      intro out hout
      exact hout.trans ht
  | inFrame frame _ ih =>
    refine (Routine.meets_ensuring _ _ (fun t => { t with current := s.current })
      { s with current := frame }).2 ?_
    exact ih hdepth hnear
  | guarded paren _ ih =>
    by_cases h : maxCallDepth ≤ s.depth
    · unfold Routine.Meets
      rw [Eval.guarded_of_le _ _ h]
      rfl
    · unfold Routine.Meets
      rw [Eval.guarded_of_lt _ _ (Nat.lt_of_not_le h)]
      refine (Routine.meets_ensuring _ _ (fun t => { t with depth := t.depth - 1 })
        { s with depth := s.depth + 1 }).2 ((ih (Nat.le_succ_of_le hdepth) ?_).mono ?_)
      · -- whatever the function calls, one call less can be nested in it
        intro g t _ ht _
        apply Prod.Lex.left
        show maxCallDepth - t.depth < maxCallDepth - q₀.2.depth
        simp only at ht
        omega
      · intro out hout
        simp only [hout, Nat.add_sub_cancel]

/-- A goal calls goals without loops only if they are smaller. -/
theorem meets_descending_rules (q : Goal × State) :
    (rules q.1).Meets (descending q) q.2 fun out => out.2.depth = q.2.depth := by
  apply (assembled_rules q.1).meets_descending (Nat.le_refl _)
  intro g t hnear ht hloopless
  rw [Smaller, extent, extent, ht]
  exact Prod.Lex.right _ (hnear.size_lt hloopless)

/-! ## Every run ends -/

/-- To have no loop is handed down. -/
def Heritage.loopless : Heritage where
  expr _ := True
  stmt := Stmt.Loopless
  fault _ := True
  expr_parts _ _ _ := trivial
  stmt_exprs _ _ _ := trivial
  stmt_parts h _ hs' := h.of_part hs'
  expr_raises _ _ := trivial
  stmt_raises _ _ := trivial

/-- What the heritage presupposes of a goal is that it has no loop. -/
theorem loopless_of_pre {q : Goal × State} (h : Heritage.loopless.contract.pre q) : q.1.Loopless := by
  obtain ⟨e | st, s⟩ := q
  · trivial
  · exact h.1

/-- **Every goal without loops ends**, if there is no loop in the store. -/
theorem exists_value_of_loopless {q : Goal × State} (hq : Heritage.loopless.contract.pre q) :
    ∃ r, Plan.value (rulesOf rules) q = some r ∧ Heritage.loopless.contract.post q r := by
  let c := Heritage.loopless.contract.and ⟨fun _ => True, fun q out => out.2.depth = q.2.depth⟩
  have hrules : ∀ q, c.pre q → (rulesOf rules q).Meets (c.below Smaller q) (c.post q) := by
    rintro ⟨g, s⟩ ⟨hpre, -⟩
    refine (Plan.Meets.and (Heritage.loopless.keeps g s hpre) (meets_descending_rules (g, s))).weaken ?_ ?_
    · rintro q ⟨hloopless, hsmaller⟩
      exact ⟨⟨hloopless, trivial⟩, hsmaller (loopless_of_pre hloopless)⟩
    · intro q r hr
      exact hr
  obtain ⟨r, hr, hpost⟩ := Plan.Contract.exists_value smaller_wellFounded hrules q ⟨hq, trivial⟩
  exact ⟨r, hr, hpost.1⟩

/-- A routine ends that calls goals without loops only. -/
theorem exists_run_of_loopless {good : α → Prop} {s : State}
    (hx : Heritage.loopless.HandsDown good x) (hs : Heritage.loopless.HoldsAll s.store) :
    ∃ steps result t, Routine.run rules steps x s = some (result, t) := by
  obtain ⟨⟨result, t⟩, hvalue, -⟩ := (hx s hs).exists_eval fun q hq => exists_value_of_loopless hq
  obtain ⟨steps, hsteps⟩ := (Routine.value_eq_some_iff rules).1 hvalue
  exact ⟨steps, result, t, hsteps⟩

/-- A function whose body has no loop belongs to the heritage. -/
theorem holds_loopless {v : Value}
    (h : ∀ c, v = .function c → Stmt.LooplessAll c.declaration.body) : Heritage.loopless.Holds v := by
  cases v with
  | function c => exact h c rfl
  | _ => trivial

/-- **Without loops every program ends.** Let no function that a variable holds have a loop in its body. Then
a program without loops comes to an end, with or without a fault, however its functions call themselves and
each other; so does every expression, and so does a function without loops that is called from outside, on
arguments that are no functions with loops. -/
theorem loopless_ends {s : State}
    (hs : ∀ c, s.store.Binds (.function c) → Stmt.LooplessAll c.declaration.body) :
    (∀ program, Stmt.LooplessAll program →
      ∃ steps result t, interpret steps program s = some (result, t)) ∧
    (∀ e, ∃ steps result t, evaluate steps e s = some (result, t)) ∧
    ∀ f args, Stmt.LooplessAll f.declaration.body →
      (∀ c, .function c ∈ args → Stmt.LooplessAll c.declaration.body) →
      ∃ steps result t, callFunction steps f args s = some (result, t) := by
  have hstore : Heritage.loopless.HoldsAll s.store := by
    intro v hv
    apply holds_loopless
    rintro c rfl
    exact hs c hv
  refine ⟨?_, ?_, ?_⟩
  · intro program hprogram
    have hall := Heritage.handsDown_execAll (H := Heritage.loopless) (Stmt.looplessAll_iff.1 hprogram)
    obtain ⟨steps, result, t, hrun⟩ := exists_run_of_loopless hall hstore
    exact ⟨steps, _, t, by rw [interpret, hrun]; rfl⟩
  · intro e
    exact exists_run_of_loopless (Heritage.handsDown_eval trivial) hstore
  · intro f args hf hargs
    refine exists_run_of_loopless (Heritage.handsDown_apply hf ?_) hstore
    intro v hv
    apply holds_loopless
    rintro c rfl
    exact hargs c hv

/-- A function that calls itself whenever it is called. -/
theorem loopless_ends_recursion : ∃ steps result t,
    interpret steps
      [.function (.synthetic .identifier "f" 1) []
        [.expression (.call (.variable (.synthetic .identifier "f" 1)) (.synthetic .rightParen ")" 1) [])],
      .expression (.call (.variable (.synthetic .identifier "f" 1)) (.synthetic .rightParen ")" 1) [])]
      (.initial (.empty none)) = some (result, t) := by
  refine (loopless_ends ?_).1 _ ?_
  · intro c hc
    exact absurd hc (Store.not_binds_initial _)
  · simp [Stmt.LooplessAll, Stmt.Loopless]

end Evaluation

end Treewalk
