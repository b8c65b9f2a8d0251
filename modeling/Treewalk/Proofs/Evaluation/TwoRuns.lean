import Treewalk.Evaluation.Rules
import Treewalk.Proofs.Evaluation.Likeness
import Treewalk.Proofs.Plan.InStep

/-!
# Like programs on like states end alike

The evaluator does the same steps on like programs and like states, except that it takes one step
more at parentheses that only the first program has. So either both runs end, with like results in
like states, or neither does.

## Main statements

`Likeness.rel_value`: two routines that are in step end alike; `Likeness.exec_inStep`,
`Likeness.eval_inStep` and `Likeness.execAll_inStep` give such routines.
-/

namespace Treewalk

namespace Expr

/-- How many parentheses stand around an expression. -/
def groupings : Expr → Nat
  | .grouping e => e.groupings + 1
  | _ => 0

end Expr

namespace Evaluation

open Routine (call become fail modify)

namespace Likeness

variable (L : Likeness) {α β γ δ : Type}

/-- Goals that stand for each other. -/
inductive GoalLike : Goal → Goal → Prop where
  | eval {e e'} : L.ExprLike e e' → GoalLike (.eval e) (.eval e')
  | exec {s s'} : L.StmtLike s s' → GoalLike (.exec s) (.exec s')

/-- Ways in which such goals end alike. -/
def Replied : (g g' : Goal) → Except Fault g.Result × State → Except Fault g'.Result × State → Prop
  | .eval _, .eval _ => L.OutcomeLike L.ValueLike
  | .exec _, .exec _ => L.OutcomeLike L.FlowLike
  | _, _ => fun _ _ => False

/-- Like goals in like states correspond, and so do like outcomes. -/
def toMatch : Plan.Match (Reply Goal.Result Fault State) where
  asked q q' := L.GoalLike q.1 q'.1 ∧ L.StateLike q.2 q'.2
  replied q q' := L.Replied q.1 q'.1

/-- Two routines do the same steps from like states, and end with like results. -/
def InStep (like : α → β → Prop) (x : Eval α) (y : Eval β) : Prop :=
  ∀ s t, L.StateLike s t → Plan.InStep L.toMatch (L.OutcomeLike like) (x s) (y t)

variable {L} {like : α → β → Prop} {like' : γ → δ → Prop}

/-! ## Putting routines in step together -/

/-- What is pure is in step, if the results are alike. -/
theorem inStep_pure {a : α} {b : β} (h : like a b) : L.InStep like (pure a) (pure b) :=
  fun _ _ hst => .done ⟨.ok h, hst⟩

/-- Failures are in step, if the faults are alike. -/
theorem inStep_fail {f f' : Fault} (h : L.FaultLike f f') :
    L.InStep like (fail f) (fail f') :=
  fun _ _ hst => .done ⟨.error h, hst⟩

/-- Steps are in step, if they lead from like states to like outcomes. -/
theorem inStep_step {f : State → Except Fault α × State} {f' : State → Except Fault β × State}
    (h : ∀ s t, L.StateLike s t → L.OutcomeLike like (f s) (f' t)) :
    L.InStep like (Routine.step f) (Routine.step f') :=
  fun s t hst => .done (h s t hst)

/-- Changes of the state are in step, if they keep states alike. -/
theorem inStep_modify {f f' : State → State}
    (h : ∀ s t, L.StateLike s t → L.StateLike (f s) (f' t)) :
    L.InStep (fun _ _ => True) (modify f) (modify f') :=
  fun s t hst => .done ⟨.ok trivial, h s t hst⟩

/-- Sequences are in step, if their parts are. -/
theorem inStep_bind {x : Eval α} {y : Eval β} {f : α → Eval γ} {g : β → Eval δ}
    (hx : L.InStep like x y) (hf : ∀ a b, like a b → L.InStep like' (f a) (g b)) :
    L.InStep like' (x >>= f) (y >>= g) := by
  intro s t hst
  refine (hx s t hst).bind ?_
  rintro ⟨r, s'⟩ ⟨r', t'⟩ ⟨hr, hst'⟩
  cases hr with
  | ok h => exact hf _ _ h s' t' hst'
  | error h => exact .done ⟨.error h, hst'⟩

/-- Goals for expressions that are alike correspond. -/
theorem inStep_expr {e e' : Expr} (h : L.ExprLike e e') :
    L.InStep L.ValueLike (Eval.expr e) (Eval.expr e') :=
  fun _ _ hst => .ask ⟨.eval h, hst⟩ fun _ _ hr => .done hr

/-- Goals for statements that are alike correspond. -/
theorem inStep_stmt {s s' : Stmt} (h : L.StmtLike s s') :
    L.InStep L.FlowLike (Eval.stmt s) (Eval.stmt s') :=
  fun _ _ hst => .ask ⟨.exec h, hst⟩ fun _ _ hr => .done hr

/-- So do goals for expressions that are become. -/
theorem inStep_becomeEval {e e' : Expr} (h : L.ExprLike e e') :
    L.InStep L.ValueLike (become (Goal.eval e)) (become (Goal.eval e')) :=
  fun _ _ hst => .pass ⟨.eval h, hst⟩ fun _ _ hr => hr

/-- So do goals for statements that are become. -/
theorem inStep_becomeExec {s s' : Stmt} (h : L.StmtLike s s') :
    L.InStep L.FlowLike (become (Goal.exec s)) (become (Goal.exec s')) :=
  fun _ _ hst => .pass ⟨.exec h, hst⟩ fun _ _ hr => hr

/-- Results that are failures or not are in step, if they are alike. -/
theorem inStep_ofExcept {x : Except Fault α} {y : Except Fault β} (h : L.ResultLike like x y) :
    L.InStep like (Eval.ofExcept x) (Eval.ofExcept y) :=
  inStep_step fun _ _ hst => ⟨h, hst⟩

/-- Work in a frame that is seen is in step, if the work is. -/
theorem inStep_inFrame {frame : FrameId} (hf : L.visible frame) {x : Eval α} {y : Eval β}
    (h : L.InStep like x y) : L.InStep like (Eval.inFrame frame x) (Eval.inFrame frame y) := by
  intro s t hst
  have hin : L.StateLike { s with current := frame } { t with current := frame } :=
    ⟨hst.store, rfl, hf, hst.depth_eq, hst.sink⟩
  refine (h _ _ hin).bind ?_
  rintro ⟨r, s'⟩ ⟨r', t'⟩ ⟨hr, hst'⟩
  exact .done ⟨hr, hst'.store, hst.current_eq, hst.visible, hst'.depth_eq, hst'.sink⟩

/-- Both runs count one call more, and one less afterwards. -/
theorem inStep_inCall {x : Eval α} {y : Eval β} (h : L.InStep like x y) :
    L.InStep like (Eval.inCall x) (Eval.inCall y) := by
  intro s t hst
  have hin : L.StateLike { s with depth := s.depth + 1 } { t with depth := t.depth + 1 } :=
    ⟨hst.store, hst.current_eq, hst.visible, congrArg (· + 1) hst.depth_eq, hst.sink⟩
  refine (h _ _ hin).bind ?_
  rintro ⟨r, s'⟩ ⟨r', t'⟩ ⟨hr, hst'⟩
  exact .done ⟨hr, hst'.store, hst'.current_eq, hst'.visible, congrArg (· - 1) hst'.depth_eq,
    hst'.sink⟩

/-! ## The steps that call no goal -/

/-- Both runs create the same frame, and it is seen. -/
theorem inStep_newFrame {parent : FrameId} (hp : L.visible parent) :
    L.InStep (fun f f' => f' = f ∧ L.visible f) (Eval.newFrame parent) (Eval.newFrame parent) := by
  refine inStep_step fun s t hst => ?_
  obtain ⟨heq, hvis, hstore⟩ := hst.store.newFrame hp
  exact ⟨.ok ⟨heq, hvis⟩, hstore, hst.current_eq, hst.visible, hst.depth_eq, hst.sink⟩

/-- Both runs are in the same frame, and it is seen. -/
theorem inStep_current : L.InStep (fun f f' => f' = f ∧ L.visible f) Eval.current Eval.current :=
  inStep_step fun _ _ hst => ⟨.ok ⟨hst.current_eq, hst.visible⟩, hst⟩

/-- In both runs as many calls are under way. -/
theorem inStep_depth : L.InStep (fun d d' => d' = d) Eval.depth Eval.depth :=
  inStep_step fun _ _ hst => ⟨.ok hst.depth_eq, hst⟩

/-- Declarations of corresponding names with like values are in step. -/
theorem inStep_define {n n' : Token} (hn : L.named n n') {v v' : Value} (hv : L.ValueLike v v') :
    L.InStep (fun _ _ => True) (Eval.define n.lexeme v) (Eval.define n'.lexeme v') := by
  refine inStep_modify fun s t hst => ?_
  refine ⟨?_, hst.current_eq, hst.visible, hst.depth_eq, hst.sink⟩
  show L.StoreLike (s.store.define s.current n.lexeme v) (t.store.define t.current n'.lexeme v')
  rw [hst.current_eq]
  exact hst.store.define hst.visible (L.lexeme_like hn) hv

/-- Reading corresponding variables is in step. -/
theorem inStep_get {n n' : Token} (hn : L.named n n') :
    L.InStep L.ValueLike (Eval.get n) (Eval.get n') := by
  refine inStep_step fun s t hst => ?_
  refine ⟨?_, hst⟩
  show L.ResultLike _ (s.store.get s.current n) (t.store.get t.current n')
  rw [hst.current_eq]
  exact hst.store.get hn hst.visible

/-- Assignments of like values to corresponding variables are in step. -/
theorem inStep_assign {n n' : Token} (hn : L.named n n') {v v' : Value} (hv : L.ValueLike v v') :
    L.InStep (fun _ _ => True) (Eval.assign n v) (Eval.assign n' v') := by
  refine inStep_step fun s t hst => ?_
  rw [hst.current_eq]
  obtain ⟨hr, hstore⟩ := hst.store.assign hst.visible hn hv
  exact ⟨hr, hstore, rfl, hst.visible, hst.depth_eq, hst.sink⟩

/-- Both places for output take what is printed, or neither does. -/
theorem inStep_print {k k' : Token} (hk : L.token k k') {v v' : Value} (hv : L.ValueLike v v') :
    L.InStep (fun _ _ => True) (Eval.print k v) (Eval.print k' v') := by
  refine inStep_step fun s t hst => ?_
  obtain ⟨hfits, hsink⟩ := L.sink_write hst.sink hv.shown
  refine ⟨?_, hst.store, hst.current_eq, hst.visible, hst.depth_eq, hsink⟩
  show L.ResultLike _ ((s.sink.write (v.text ++ "\n").toUTF8).1.mapError _)
    ((t.sink.write (v'.text ++ "\n").toUTF8).1.mapError _)
  rw [hfits]
  cases (s.sink.write (v.text ++ "\n").toUTF8).1 with
  | ok u => exact .ok trivial
  | error e => exact .error (.output hk)

/-! ## The routines of the evaluator -/

/-- Arguments that are alike are evaluated in step. -/
theorem evalAll_inStep {es es' : List Expr} (h : L.ExprsLike es es') {vs vs' : List Value}
    (hvs : List.Forall₂ L.ValueLike vs vs') :
    L.InStep (List.Forall₂ L.ValueLike) (evalAll es vs) (evalAll es' vs') := by
  induction es generalizing es' vs vs' with
  | nil =>
    cases h
    exact inStep_pure (List.rel_reverse hvs)
  | cons e es ih =>
    cases h with
    | cons he hes => exact inStep_bind (inStep_expr he) fun v v' hv => ih hes (.cons hv hvs)

/-- Statements that are alike are executed in step. -/
theorem execAll_inStep {ss ss' : List Stmt} (h : L.StmtsLike ss ss') :
    L.InStep L.FlowLike (execAll ss) (execAll ss') := by
  induction ss generalizing ss' with
  | nil =>
    cases h
    exact inStep_pure .normal
  | cons s ss ih =>
    cases h with
    | cons hs hss =>
      refine inStep_bind (inStep_stmt hs) fun flow flow' hflow => ?_
      cases hflow with
      | normal => exact ih hss
      | returned hv => exact inStep_pure (.returned hv)

/-- Binding corresponding parameters to like arguments keeps stores alike. -/
theorem defineAll_like {frame : FrameId} (hf : L.visible frame) {params params' : List Token}
    (hp : List.Forall₂ L.named params params') {args args' : List Value}
    (ha : List.Forall₂ L.ValueLike args args') {s t : Store} (h : L.StoreLike s t) :
    L.StoreLike (defineAll s frame (params.zip args)) (defineAll t frame (params'.zip args')) := by
  induction hp generalizing args args' s t with
  | nil => exact h
  | @cons p p' params params' hp _ ih =>
    cases ha with
    | nil => exact h
    | @cons v v' args args' hv ha =>
      show L.StoreLike (defineAll (s.define frame p.lexeme v) frame (params.zip args))
        (defineAll (t.define frame p'.lexeme v') frame (params'.zip args'))
      exact ih ha (h.define hf (L.lexeme_like hp) hv)

/-- Functions that are alike are applied in step: they have frames that are seen, and bodies that are
alike. -/
theorem apply_inStep {f f' : Closure} (hf : L.ClosureLike f f') {args args' : List Value}
    (ha : List.Forall₂ L.ValueLike args args') :
    L.InStep L.ValueLike (apply f args) (apply f' args') := by
  unfold apply
  rw [hf.frame_eq]
  refine inStep_bind (inStep_newFrame hf.visible) ?_
  rintro frame _ ⟨rfl, hvis⟩
  refine inStep_bind (inStep_modify fun s t hst => ?_) fun _ _ _ => ?_
  · exact ⟨defineAll_like hvis hf.params ha hst.store, hst.current_eq, hst.visible, hst.depth_eq,
      hst.sink⟩
  · refine inStep_bind (inStep_inFrame hvis (execAll_inStep hf.body)) fun flow flow' hflow => ?_
    cases hflow with
    | normal => exact inStep_pure .nil
    | returned hv => exact inStep_pure hv

/-- What is done with a function and its arguments. -/
theorem enter_inStep {f f' : Closure} (hf : L.ClosureLike f f') {p p' : Token} (hp : L.token p p')
    {vs vs' : List Value} (hvs : List.Forall₂ L.ValueLike vs vs') :
    L.InStep L.ValueLike
      (do
        if vs.length ≠ f.arity then fail (.arityMismatch p f.arity vs.length)
        else if maxCallDepth ≤ (← Eval.depth) then fail (.stackOverflow p)
        else Eval.inCall (apply f vs))
      (do
        if vs'.length ≠ f'.arity then fail (.arityMismatch p' f'.arity vs'.length)
        else if maxCallDepth ≤ (← Eval.depth) then fail (.stackOverflow p')
        else Eval.inCall (apply f' vs')) := by
  rw [← hvs.length_eq, hf.arity_eq]
  by_cases harity : vs.length ≠ f.arity
  · simp only [if_pos harity]
    exact inStep_fail (.arityMismatch _ _ hp)
  · simp only [if_neg harity]
    refine inStep_bind inStep_depth ?_
    intro d d' heq
    rw [heq]
    by_cases hd : maxCallDepth ≤ d
    · simp only [if_pos hd]
      exact inStep_fail (.stackOverflow hp)
    · simp only [if_neg hd]
      exact inStep_inCall (apply_inStep hf hvs)

/-- Like expressions are evaluated in step, unless the first has parentheses that the second has
not. -/
theorem eval_inStep {e e' : Expr} (h : L.ExprLike e e') :
    L.InStep L.ValueLike (eval e) (eval e') ∨
      L.loose ∧ ∃ inner, e = .grouping inner ∧ L.ExprLike inner e' := by
  cases h with
  | grouped hl he => exact .inr ⟨hl, _, rfl, he⟩
  | literal c => exact .inl (inStep_pure (ofConstant_like c))
  | grouping he => exact .inl (inStep_becomeEval he)
  | unary ho he =>
    exact .inl (inStep_bind (inStep_expr he) fun _ _ hv => inStep_ofExcept (unary_like ho hv))
  | binary he ho hf =>
    exact .inl (inStep_bind (inStep_expr he) fun _ _ hv =>
      inStep_bind (inStep_expr hf) fun _ _ hw => inStep_ofExcept (binary_like ho hv hw))
  | @logical e e' o o' f f' he ho hf =>
    refine .inl (inStep_bind (inStep_expr he) fun v v' hv => ?_)
    rw [decides_eq ho hv]
    by_cases h : decides o v
    · simp only [if_pos h]
      exact inStep_pure hv
    · simp only [if_neg h]
      exact inStep_becomeEval hf
  | «variable» hn => exact .inl (inStep_get hn)
  | assign hn he =>
    exact .inl (inStep_bind (inStep_expr he) fun _ _ hv =>
      inStep_bind (inStep_assign hn hv) fun _ _ _ => inStep_pure hv)
  | call he hp hes =>
    refine .inl (inStep_bind (inStep_expr he) fun v v' hv => ?_)
    cases hv with
    | function hf =>
      exact inStep_bind (evalAll_inStep hes .nil) fun vs vs' hvs => enter_inStep hf hp hvs
    | _ => exact inStep_fail (.notCallable hp)

/-- Statements that are alike do their steps in step, case by case. -/
theorem exec_inStep {st st' : Stmt} (h : L.StmtLike st st') :
    L.InStep L.FlowLike (exec st) (exec st') := by
  cases h with
  | expression he => exact inStep_bind (inStep_expr he) fun _ _ _ => inStep_pure .normal
  | print hk he =>
    exact inStep_bind (inStep_expr he) fun _ _ hv =>
      inStep_bind (inStep_print hk hv) fun _ _ _ => inStep_pure .normal
  | var hn hi =>
    cases hi with
    | some he =>
      exact inStep_bind (inStep_expr he) fun _ _ hv =>
        inStep_bind (inStep_define hn hv) fun _ _ _ => inStep_pure .normal
    | none =>
      exact inStep_bind (inStep_pure .nil) fun _ _ hv =>
        inStep_bind (inStep_define hn hv) fun _ _ _ => inStep_pure .normal
  | block hb =>
    refine inStep_bind inStep_current ?_
    rintro f _ ⟨rfl, hf⟩
    refine inStep_bind (inStep_newFrame hf) ?_
    rintro g _ ⟨rfl, hg⟩
    exact inStep_inFrame hg (execAll_inStep hb)
  | ifThen hc hs =>
    refine inStep_bind (inStep_expr hc) fun v v' hv => ?_
    rw [hv.isTruthy_eq]
    by_cases h : v.isTruthy
    · simp only [if_pos h]
      exact inStep_becomeExec hs
    · simp only [if_neg h]
      exact inStep_pure .normal
  | ifElse hc hs ht =>
    refine inStep_bind (inStep_expr hc) fun v v' hv => ?_
    rw [hv.isTruthy_eq]
    by_cases h : v.isTruthy
    · simp only [if_pos h]
      exact inStep_becomeExec hs
    · simp only [if_neg h]
      exact inStep_becomeExec ht
  | «while» hc hs =>
    refine inStep_bind (inStep_expr hc) fun v v' hv => ?_
    rw [hv.isTruthy_eq]
    by_cases h : v.isTruthy
    · simp only [if_pos h]
      refine inStep_bind (inStep_stmt hs) fun flow flow' hflow => ?_
      cases hflow with
      | normal => exact inStep_becomeExec (.while hc hs)
      | returned hv => exact inStep_pure (.returned hv)
    · simp only [if_neg h]
      exact inStep_pure .normal
  | @function n n' ps ps' b b' hn hps hb =>
    refine inStep_bind (inStep_modify fun s t hst => ?_) fun _ _ _ => inStep_pure .normal
    rw [hst.current_eq]
    obtain ⟨hf, hstore⟩ := hst.store.newClosure ⟨n, ps, b⟩ ⟨n', ps', b'⟩ hn hps hb hst.visible
    exact ⟨hstore.define hst.visible (L.lexeme_like hn) (.function hf), rfl, hst.visible, hst.depth_eq,
      hst.sink⟩
  | «return» hk hv =>
    cases hv with
    | some he => exact inStep_bind (inStep_expr he) fun _ _ hv => inStep_pure (.returned hv)
    | none => exact inStep_bind (inStep_pure .nil) fun _ _ hv => inStep_pure (.returned hv)

/-! ## Ending alike -/

/-- The weight of a goal: the parentheses at which the second run may have to wait. -/
def weight : Goal × State → Nat
  | (.eval e, _) => e.groupings
  | (.exec _, _) => 0

/-- The plans for corresponding goals are in step, except that the first run may have parentheses to go
through. -/
theorem rules_inStep (q q' : Goal × State) (hq : L.toMatch.asked q q') :
    Plan.InStep L.toMatch (L.toMatch.replied q q') (Routine.rulesOf rules q)
        (Routine.rulesOf rules q') ∨
      L.toMatch.Waits (Routine.rulesOf rules) weight q q' := by
  obtain ⟨g, s⟩ := q
  obtain ⟨g', s'⟩ := q'
  obtain ⟨hg, hst⟩ := hq
  cases hg with
  | exec hs => exact .inl (exec_inStep hs s s' hst)
  | eval he =>
    rcases eval_inStep he with hstep | ⟨-, inner, rfl, hinner⟩
    · exact .inl (hstep s s' hst)
    · exact .inr ⟨(.eval inner, s), rfl, rfl, Nat.lt_succ_self _, ⟨.eval hinner, hst⟩, fun _ _ h => h⟩

/-- If no parentheses are missing, neither run waits. -/
theorem rules_inStep_of_exact (hexact : ¬L.loose) (q q' : Goal × State)
    (hq : L.toMatch.asked q q') :
    Plan.InStep L.toMatch (L.toMatch.replied q q') (Routine.rulesOf rules q)
      (Routine.rulesOf rules q') := by
  obtain ⟨g, s⟩ := q
  obtain ⟨g', s'⟩ := q'
  obtain ⟨hg, hst⟩ := hq
  cases hg with
  | exec hs => exact exec_inStep hs s s' hst
  | eval he =>
    rcases eval_inStep he with hstep | ⟨hl, -⟩
    · exact hstep s s' hst
    · exact absurd hl hexact

/-- **Two runs end alike**: both with like results in like states, or neither. -/
theorem rel_value {x : Eval α} {y : Eval β} (h : L.InStep like x y) {s t : State}
    (hst : L.StateLike s t) :
    Option.Rel (L.OutcomeLike like) (Routine.value rules x s) (Routine.value rules y t) :=
  Plan.Match.rel_eval (Plan.Match.rel_value rules_inStep) (h s t hst)

/-- The expressions themselves end alike, also with parentheses left out. -/
theorem rel_value_eval {e e' : Expr} (h : L.ExprLike e e') {s t : State} (hst : L.StateLike s t) :
    Option.Rel (L.OutcomeLike L.ValueLike) (Routine.value rules (eval e) s)
      (Routine.value rules (eval e') t) := by
  have hrel := rel_value (inStep_expr h) hst
  unfold Eval.expr at hrel
  rw [Routine.value_call, Routine.value_call] at hrel
  exact hrel

end Likeness

end Evaluation

end Treewalk
