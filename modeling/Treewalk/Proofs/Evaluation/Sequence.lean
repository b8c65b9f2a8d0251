import Treewalk.Evaluation.Rules
import Treewalk.Proofs.Plan.Contract

/-!
# One program after the other

Running one list of statements and then another is running the two lists joined, unless the first
leaves a function that it is not in (`value_execAll_append`). Statements without a `return` outside
the functions that they declare never do that (`flow_of_returnless`): whatever the functions return
that are called on the way, it goes no further than the calls. So for programs without such a `return`
the second is run exactly if the first did not fail (`outcome_append`), and in each of them all
statements are executed up to the first that fails (`outcome_eq_some_iff_executes`).
-/

namespace Treewalk

mutual

/-- No `return` stands in a statement, except in functions that are declared there. -/
def Stmt.Returnless : Stmt → Prop
  | .block body => Stmt.ReturnlessAll body
  | .ifThen _ consequent => consequent.Returnless
  | .ifElse _ consequent alternative => consequent.Returnless ∧ alternative.Returnless
  | .while _ body => body.Returnless
  | .return _ _ => False
  | _ => True

/-- No `return` stands in some statements, except in functions that are declared there. -/
def Stmt.ReturnlessAll : List Stmt → Prop
  | [] => True
  | s :: ss => s.Returnless ∧ Stmt.ReturnlessAll ss

end

/-- Two lists of statements without a `return` make one without. -/
theorem Stmt.returnlessAll_append {ss ts : List Stmt} (hss : Stmt.ReturnlessAll ss)
    (hts : Stmt.ReturnlessAll ts) : Stmt.ReturnlessAll (ss ++ ts) := by
  induction ss with
  | nil => exact hts
  | cons s ss ih => exact ⟨hss.1, ih hss.2⟩

/-- A statement of a list without a `return` has none. -/
theorem Stmt.returnless_of_mem {ss : List Stmt} (h : Stmt.ReturnlessAll ss) {s : Stmt}
    (hs : s ∈ ss) : s.Returnless := by
  induction ss with
  | nil => cases hs
  | cons s' ss ih =>
    rcases List.mem_cons.1 hs with rfl | hs
    · exact h.1
    · exact ih h.2 hs

namespace Evaluation

open Routine (become fail modify)

/-! ## Statements without `return` -/

/-- Any goal may be called, and a statement without `return` does not leave a function. -/
def straight : Routine.Contract Goal.Result Fault State where
  pre _ := True
  post q :=
    match q with
    | (.eval _, _) => fun _ => True
    | (.exec st, _) => fun out => st.Returnless → ∀ v, out.1 ≠ .ok (.returned v)

namespace Eval

variable {α : Type} {x : Eval α}

/-- A routine that does not leave a function. -/
def Straight (x : Eval Flow) : Prop :=
  ∀ s, x.Meets straight s fun out => ∀ v, out.1 ≠ .ok (.returned v)

/-- Nothing is asked of expressions, whatever the functions return that they call. -/
theorem meets_straight (x : Eval α) (s : State) : x.Meets straight s fun _ => True := by
  show (x s).Meets straight fun _ => True
  induction x s with
  | done a => trivial
  | ask q k ih => exact ⟨trivial, fun r _ => ih r⟩
  | pass q h => exact ⟨trivial, fun _ _ => trivial⟩

/-- A statement that ends normally hands out no value. -/
theorem straight_normal : Straight (pure .normal) :=
  fun _ _ h => by cases h

/-- Executing a statement without a `return` hands out no value. -/
theorem straight_stmt {st : Stmt} (h : st.Returnless) : Straight (stmt st) :=
  fun _ => ⟨trivial, fun _ hout => hout h⟩

/-- Nor does becoming it. -/
theorem straight_become {st : Stmt} (h : st.Returnless) : Straight (become (Goal.exec st)) :=
  fun _ => ⟨trivial, fun _ hout => hout h⟩

/-- Only how a routine ends matters. -/
theorem straight_bind {f : α → Eval Flow} (hf : ∀ a, Straight (f a)) : Straight (x >>= f) := by
  intro s
  rw [Routine.meets_bind]
  refine (meets_straight x s).mono ?_
  rintro ⟨e | a, t⟩ -
  · exact fun v h => by cases h
  · exact hf a t

/-- Where the first part always goes on normally, only that case matters of the second. -/
theorem straight_next {x : Eval Flow} {f : Flow → Eval Flow} (hx : Straight x)
    (hf : Straight (f .normal)) : Straight (x >>= f) := by
  intro s
  rw [Routine.meets_bind]
  refine (hx s).mono ?_
  rintro ⟨e | flow, t⟩ hflow
  · exact fun v h => by cases h
  · cases flow with
    | normal => exact hf t
    | returned v => exact absurd rfl (hflow v)

/-- A choice hands out no value if neither side does. -/
theorem straight_ite {c : Prop} [Decidable c] {x y : Eval Flow} (hx : Straight x)
    (hy : Straight y) : Straight (if c then x else y) := by
  split
  · exact hx
  · exact hy

/-- Which frame is the present one makes no difference. -/
theorem straight_inFrame (frame : FrameId) {x : Eval Flow} (hx : Straight x) :
    Straight (inFrame frame x) := by
  intro s
  refine (Routine.meets_ensuring straight x (fun t => { t with current := s.current })
    { s with current := frame }).2 ?_
  exact (hx { s with current := frame }).mono fun _ hout => hout

/-- Statements without a `return` hand out no value. -/
theorem straight_execAll {body : List Stmt} (h : Stmt.ReturnlessAll body) :
    Straight (execAll body) := by
  induction body with
  | nil => exact straight_normal
  | cons st body ih => exact straight_next (straight_stmt h.1) (ih h.2)

/-- **A statement without a `return` hands out no value**, whatever form it has. -/
theorem straight_exec {st : Stmt} (h : st.Returnless) : Straight (exec st) := by
  cases st with
  | expression e => exact straight_bind fun _ => straight_normal
  | print keyword e => exact straight_bind fun _ => straight_bind fun _ => straight_normal
  | var name init =>
    cases init with
    | some e => exact straight_bind fun _ => straight_bind fun _ => straight_normal
    | none => exact straight_bind fun _ => straight_bind fun _ => straight_normal
  | block body =>
    exact straight_bind fun _ => straight_bind fun _ => straight_inFrame _ (straight_execAll h)
  | ifThen condition consequent =>
    exact straight_bind fun _ => straight_ite (straight_become h) straight_normal
  | ifElse condition consequent alternative =>
    exact straight_bind fun _ => straight_ite (straight_become h.1) (straight_become h.2)
  | «while» condition body =>
    exact straight_bind fun _ =>
      straight_ite (straight_next (straight_stmt h) (straight_become h)) straight_normal
  | function name params body => exact straight_bind fun _ => straight_normal
  | «return» keyword value => exact h.elim

end Eval

/-- The evaluator keeps this contract. -/
theorem straight_keeps : Routine.Keeps rules straight
  | .eval e, s, _ => Eval.meets_straight (eval e) s
  | .exec st, s, _ => by
    by_cases h : st.Returnless
    · exact (Eval.straight_exec h s).mono fun _ hout _ => hout
    · exact (Eval.meets_straight (exec st) s).mono fun _ _ hst => absurd hst h

/-- **Statements without `return` do not leave a function.** -/
theorem flow_of_returnless {program : List Stmt} (h : Stmt.ReturnlessAll program) {s t : State}
    {flow : Flow} (hvalue : Routine.value rules (execAll program) s = some (.ok flow, t)) :
    flow = .normal := by
  have hflow := straight_keeps.post_of_value (Eval.straight_execAll h s) hvalue
  cases flow with
  | normal => rfl
  | returned v => exact absurd rfl (hflow v)

/-! ## Two lists of statements -/

/-- Go on with more statements, if those before have come to their end. -/
noncomputable def goOn (program : List Stmt) :
    Except Fault Flow × State → Option (Except Fault Flow × State)
  | (.ok .normal, s) => Routine.value rules (execAll program) s
  | out => some out

/-- **Running one list of statements and then another is running the two joined.** -/
theorem value_execAll_append (program below : List Stmt) (s : State) :
    Routine.value rules (execAll (program ++ below)) s =
      (Routine.value rules (execAll program) s).bind (goOn below) := by
  induction program generalizing s with
  | nil => rfl
  | cons st program ih =>
    show Routine.value rules (execAll (st :: (program ++ below))) s = _
    unfold execAll
    rw [Routine.value_bind, Routine.value_bind, Option.bind_assoc]
    congr 1
    funext ⟨result, t⟩
    rcases result with e | flow
    · rfl
    · cases flow with
      | normal => exact ih t
      | returned v => rfl

/-! ## Whole programs -/

/-- How a program ends that is started in a state, and the state then; nothing if it never ends. -/
noncomputable def outcome (program : List Stmt) (s : State) : Option (Except Fault Unit × State) :=
  (Routine.value rules (execAll program) s).map fun (result, t) => (result.map fun _ => (), t)

/-- The outcome of a program is what running it comes to in enough steps. -/
theorem outcome_eq_some_iff {program : List Stmt} {s : State} {out : Except Fault Unit × State} :
    outcome program s = some out ↔ ∃ steps, interpret steps program s = some out := by
  unfold outcome interpret
  simp only [Option.map_eq_some_iff, Routine.value_eq_some_iff]
  constructor
  · rintro ⟨out, ⟨steps, hrun⟩, rfl⟩
    exact ⟨steps, out, hrun, rfl⟩
  · rintro ⟨steps, out, hrun, rfl⟩
    exact ⟨out, ⟨steps, hrun⟩, rfl⟩

/-- **Running one program and then another is running the two joined**: the second is run exactly if
the first did not fail. -/
theorem outcome_append {program : List Stmt} (h : Stmt.ReturnlessAll program) (below : List Stmt)
    (s : State) :
    outcome (program ++ below) s =
      (outcome program s).bind fun
        | (.ok _, t) => outcome below t
        | (.error f, t) => some (.error f, t) := by
  unfold outcome
  rw [value_execAll_append]
  cases hout : Routine.value rules (execAll program) s with
  | none => rfl
  | some out =>
    obtain ⟨result, t⟩ := out
    rcases result with f | flow
    · rfl
    · rw [flow_of_returnless h hout]
      rfl

/-! ## Statement by statement -/

/-- So a statement without a `return` that does not fail ends normally. -/
theorem flow_of_exec {st : Stmt} (h : st.Returnless) {s t : State} {flow : Flow}
    (hvalue : Routine.value rules (exec st) s = some (.ok flow, t)) : flow = .normal := by
  have hflow := straight_keeps.post_of_value (Eval.straight_exec h s) hvalue
  cases flow with
  | normal => rfl
  | returned v => exact absurd rfl (hflow v)

/-- Statements are executed one after the other, up to the last one or to one that fails. -/
inductive Executes : List Stmt → State → Except Fault Unit × State → Prop where
  | done (s : State) : Executes [] s (.ok (), s)
  | next {st : Stmt} {rest : List Stmt} {s t : State} {out : Except Fault Unit × State}
      (h : Routine.value rules (exec st) s = some (.ok .normal, t)) (hrest : Executes rest t out) :
      Executes (st :: rest) s out
  | failed {st : Stmt} (rest : List Stmt) {s t : State} {f : Fault}
      (h : Routine.value rules (exec st) s = some (.error f, t)) :
      Executes (st :: rest) s (.error f, t)

/-- **A program goes on with its second statement just if the first does not fail**, provided that this
has no `return`. -/
theorem outcome_cons {st : Stmt} (h : st.Returnless) (rest : List Stmt) (s : State) :
    outcome (st :: rest) s =
      (Routine.value rules (exec st) s).bind fun
        | (.ok _, t) => outcome rest t
        | (.error f, t) => some (.error f, t) := by
  have hcall : Routine.value rules (Eval.stmt st) s = Routine.value rules (exec st) s :=
    Routine.value_call rules (Goal.exec st) s
  unfold outcome
  rw [execAll, Routine.value_bind, hcall]
  cases hvalue : Routine.value rules (exec st) s with
  | none => rfl
  | some out =>
    obtain ⟨result, t⟩ := out
    rcases result with f | flow
    · rfl
    · obtain rfl := flow_of_exec h hvalue
      rfl

/-- **Every statement of a program is executed, unless one fails**, if the program has no `return`
outside functions. -/
theorem outcome_eq_some_iff_executes {program : List Stmt} (h : Stmt.ReturnlessAll program) {s : State}
    {out : Except Fault Unit × State} : outcome program s = some out ↔ Executes program s out := by
  induction program generalizing s with
  | nil =>
    constructor
    · intro hout
      cases hout
      exact .done s
    · rintro ⟨⟩
      rfl
  | cons st rest ih =>
    rw [outcome_cons h.1, Option.bind_eq_some_iff]
    constructor
    · rintro ⟨⟨f | flow, t⟩, hvalue, hout⟩
      · cases hout
        exact .failed rest hvalue
      · obtain rfl := flow_of_exec h.1 hvalue
        exact .next hvalue ((ih h.2).1 hout)
    · intro hexecutes
      cases hexecutes with
      | next hvalue hrest => exact ⟨_, hvalue, (ih h.2).2 hrest⟩
      | failed _ hvalue => exact ⟨_, hvalue, rfl⟩

end Evaluation

end Treewalk
