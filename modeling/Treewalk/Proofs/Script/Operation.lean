import Mathlib.Logic.Relation
import Treewalk.Proofs.Evaluation.Frames
import Treewalk.Proofs.Script.Run

/-!
# What is done with an interpreter from outside

A host can have a text run, a program interpreted and an expression evaluated; it can define, assign and
read global variables; it can create frames for functions of its own; and it can call a function, its own
argument values included (`Operates`). Any of these may fail. In all states that come of it the frames form a forest whose links never change, and no
value leads to a frame that does not exist (`frames_form_forest`).
-/

namespace Treewalk

namespace Evaluation

open Routine (value rulesOf)

/-- While a routine is carried out from `s`, every expression is evaluated and every statement executed
in a sound state, whose store has grown out of the one at the start, and leaves such a state and an
allocated value. -/
structure Eval.KeepsFrames {α : Type} (x : Eval α) (s : State) : Prop where
  begun : ∀ g t, Plan.Puts (rulesOf rules) (x s) (g, t) → t.Sound s.store
  evaluated : ∀ e t out, Plan.Puts (rulesOf rules) (x s) (.eval e, t) →
    value rules (eval e) t = some out → Leaves Store.Allocates t out
  executed : ∀ st t out, Plan.Puts (rulesOf rules) (x s) (.exec st, t) →
    value rules (exec st) t = some out → Leaves AllocatesFlow t out

/-- A tidy evaluation keeps the frames: whatever it calls or ends with, the store is still sound. -/
theorem Tidy.keepsFrames {α : Type} {good : Store → α → Prop} {x : Eval α} {s : State}
    (hx : Tidy s.store good x s) (hs : s.Sound s.store) : x.KeepsFrames s := by
  have hbegun : ∀ g t, Plan.Puts (rulesOf rules) (x s) (g, t) → t.Sound s.store := by
    intro g t hputs
    exact Plan.Contract.pre_of_puts (fun q => framing_keeps s.store q.1 q.2) (hx hs) hputs
  refine ⟨hbegun, fun e t out hputs hvalue => ?_, fun st t out hputs hvalue => ?_⟩
  · exact (tidy_eval e).leaves (hbegun _ t hputs).refl hvalue
  · exact (tidy_exec st).leaves (hbegun _ t hputs).refl hvalue

end Evaluation

namespace Script

open Evaluation

/-! ## Operations -/

/-- One operation on an interpreter in the state `s`, which comes to an end: the value that it hands
out, if there is one, and the state after it. Functions that are handed in were declared in frames that
exist, which may be frames that were created from outside. -/
inductive Operates (s : State) : Option Value → State → Prop where
  | run {steps : Nat} {source : String} {log log' : Log} {result : Except Failure Unit} {t : State}
      (h : Script.run steps source s log = some (result, t, log')) : Operates s none t
  | interpret {steps : Nat} {program : List Stmt} {result : Except Fault Unit} {t : State}
      (h : Evaluation.interpret steps program s = some (result, t)) : Operates s none t
  | evaluate {steps : Nat} {e : Expr} {result : Except Fault Value} {t : State}
      (h : Evaluation.evaluate steps e s = some (result, t)) : Operates s result.toOption t
  | define (name : String) {v : Value} (hv : s.store.Allocates v) :
      Operates s none { s with store := s.store.define globals name v }
  | assign (name : Token) {v : Value} (hv : s.store.Allocates v) :
      Operates s none { s with store := (s.store.assign globals name v).2 }
  | get (name : Token) : Operates s (s.store.get globals name).toOption s
  | newFrame {parent : Option FrameId} (hparent : ∀ p, parent = some p → p < s.store.frames.size) :
      Operates s none { s with store := (s.store.newFrame parent).2 }
  | call {steps : Nat} {f : Closure} {args : List Value} {result : Except Fault Value} {t : State}
      (hf : s.store.Allocates (.function f)) (hargs : ∀ v ∈ args, s.store.Allocates v)
      (h : Evaluation.callFunction steps f args s = some (result, t)) :
      Operates s result.toOption t

/-- A state that comes of a state by operations. -/
def Later : State → State → Prop :=
  Relation.ReflTransGen fun s t => ∃ result, Operates s result t

variable {s t : State}

/-- What interpreting a program leaves behind is as sound as what it began with. -/
theorem leaves_of_interpret (hs : s.Sound s.store) {steps : Nat} {program : List Stmt}
    {result : Except Fault Unit} (h : Evaluation.interpret steps program s = some (result, t)) :
    Leaves (fun _ _ => True) s (result, t) := by
  unfold Evaluation.interpret at h
  obtain ⟨⟨flow, u⟩, hrun, hout⟩ := Option.map_eq_some_iff.1 h
  cases hout
  have hleaves := (tidy_execAll program).leaves hs (Routine.value_of_run rules hrun)
  exact ⟨hleaves.sound, hleaves.current_eq, fun _ _ => trivial⟩

/-- Running a text leaves a sound state, and the current frame is again the one before, whether the text
was refused, failed or ran to its end. -/
theorem leaves_of_run (hs : s.Sound s.store) {steps : Nat} {source : String} {log log' : Log}
    {result : Except Failure Unit} (h : run steps source s log = some (result, t, log')) :
    t.Sound s.store ∧ t.current = s.current := by
  rcases run_cases h with ⟨-, -, rfl⟩ | ⟨program, flow, -, hvalue, -⟩
  · exact ⟨hs, rfl⟩
  · have hleaves := (tidy_execAll program).leaves hs hvalue
    exact ⟨hleaves.sound, hleaves.current_eq⟩

/-- What an operation leaves, if the state before it was sound. -/
theorem sound_of_operates (hs : s.Sound s.store) (hcurrent : s.current = globals)
    {result : Option Value} (h : Operates s result t) :
    t.Sound s.store ∧ t.current = globals ∧ ∀ v, result = some v → t.store.Allocates v := by
  -- how the three operations end that hand out what a routine has come to
  have hleaves : ∀ result : Except Fault Value, Leaves Store.Allocates s (result, t) →
      t.Sound s.store ∧ t.current = globals ∧ ∀ v, result.toOption = some v → t.store.Allocates v := by
    intro result h
    refine ⟨h.sound, h.current_eq.trans hcurrent, fun v hv => h.result v ?_⟩
    cases result with
    | error f => cases hv
    | ok w => cases hv; rfl
  cases h with
  | run h =>
    obtain ⟨hsound, hsame⟩ := leaves_of_run hs h
    exact ⟨hsound, hsame.trans hcurrent, fun v hv => by cases hv⟩
  | interpret h =>
    have hleaves := leaves_of_interpret hs h
    exact ⟨hleaves.sound, hleaves.current_eq.trans hcurrent, fun v hv => by cases hv⟩
  | evaluate h => exact hleaves _ ((tidy_eval _).leaves hs (Routine.value_of_run rules h))
  | @define name v hv =>
    have hstore := hs.wellFormed.define globals name hv
    exact ⟨hs.withStore hstore (s.store.grows_define globals name v), hcurrent, fun v hv => by cases hv⟩
  | @assign name v hv =>
    have hstore := hs.wellFormed.assign globals name hv
    exact ⟨hs.withStore hstore (s.store.grows_assign globals name v), hcurrent, fun v hv => by cases hv⟩
  | get name =>
    refine hleaves _ ⟨hs, rfl, fun v hv => hs.wellFormed.allocates_of_get hv⟩
  | @newFrame parent hparent =>
    have hstore := hs.wellFormed.newFrame hparent
    exact ⟨hs.withStore hstore (s.store.grows_newFrame parent), hcurrent, fun v hv => by cases hv⟩
  | call hf hargs h => exact hleaves _ ((tidy_apply hf hargs).leaves hs (Routine.value_of_run rules h))

/-- A state that is reached from a sound one by any operations from outside is sound, and its current
frame is the global one. -/
theorem sound_of_later (hs : s.Sound s.store) (hcurrent : s.current = globals) (h : Later s t) :
    t.Sound s.store ∧ t.current = globals := by
  induction h with
  | refl => exact ⟨hs, hcurrent⟩
  | tail _ hstep ih =>
    obtain ⟨result, hstep⟩ := hstep
    obtain ⟨hsound, hsame, -⟩ := sound_of_operates ih.1.refl ih.2 hstep
    exact ⟨ih.1.trans hsound, hsame⟩

/-- The state that an interpreter is created with is sound. -/
theorem sound_initial (sink : Sink) : (State.initial sink).Sound Store.initial :=
  ⟨Store.wellFormed_initial, .refl _, Nat.zero_lt_one⟩

/-- **The frames form a forest**, in every state `s` that comes of a new interpreter by any operations,
failed or not. Links lead to older frames and functions to frames that exist. Every frame is at the
beginning of one chain of links, which ends at a root and has no frame twice, and along which names are
looked for. Later operations keep the frames and their links, and every value that is handed out, or that
comes up while something is run, leads to a frame that exists. -/
theorem frames_form_forest {sink : Sink} {s : State} (h : Later (.initial sink) s) :
    s.store.WellFormed ∧
    (∀ f < s.store.frames.size, ∃ chain, s.store.Chain f chain ∧
      (∀ chain', s.store.Chain f chain' → chain' = chain) ∧
      (∀ g ∈ chain, g < s.store.frames.size) ∧ chain.Nodup ∧
      (∃ root, chain.getLast? = some root ∧ s.store.parent? root = none) ∧
      ∀ name, s.store.definer? f name = chain.find? (s.store.binds · name)) ∧
    (∀ t, Later s t → s.store.Grows t.store) ∧
    (∀ v t, Operates s (some v) t → t.store.Allocates v) ∧
    (∀ program, (execAll program).KeepsFrames s) ∧
    (∀ e, (eval e).KeepsFrames s) ∧
    ∀ f args, s.store.Allocates (.function f) → (∀ v ∈ args, s.store.Allocates v) →
      (apply f args).KeepsFrames s := by
  obtain ⟨hsound, hcurrent⟩ := sound_of_later (sound_initial sink) rfl h
  have hs := hsound.refl
  refine ⟨hs.wellFormed, ?_, ?_, ?_, ?_, ?_, ?_⟩
  · intro f hf
    obtain ⟨chain, hchain⟩ := hs.wellFormed.exists_chain hf
    refine ⟨chain, hchain, fun _ h' => hchain.unique h', fun _ hg => hchain.lt_size hg, ?_,
      hchain.getLast, hchain.definer?_eq_find? hs.wellFormed⟩
    exact (hchain.pairwise hs.wellFormed).imp Nat.ne_of_gt
  · intro t hlater
    exact (sound_of_later hs hcurrent hlater).1.grows
  · intro v t hoperates
    exact (sound_of_operates hs hcurrent hoperates).2.2 v rfl
  · intro program
    exact (tidy_execAll program).keepsFrames hs
  · intro e
    exact (tidy_eval e).keepsFrames hs
  · intro f args hf hargs
    exact (tidy_apply hf hargs).keepsFrames hs

/-- Two blocks, one in the other, leave three frames, and from the last of them a name is looked for in
all three. -/
theorem frames_form_forest_blocks :
    ∃ t, Later (.initial (.empty none)) t ∧ t.store.frames.size = 3 ∧ t.store.Chain 2 [2, 1, 0] ∧
      ∀ name, t.store.definer? 2 name = [2, 1, 0].find? (t.store.binds · name) := by
  obtain ⟨t, hrun, hsize, hchain⟩ : ∃ t,
      Evaluation.interpret 20 [.block [.block []]] (.initial (.empty none)) = some (.ok (), t) ∧
      t.store.frames.size = 3 ∧ t.store.Chain 2 [2, 1, 0] :=
    ⟨_, rfl, rfl, .outward rfl (.outward rfl (.root (by decide) rfl))⟩
  have hlater : Later (.initial (.empty none)) t := .single ⟨none, .interpret hrun⟩
  obtain ⟨-, hforest, -⟩ := frames_form_forest hlater
  obtain ⟨chain, -, hunique, -, -, -, hfind⟩ := hforest 2 (by rw [hsize]; decide)
  refine ⟨t, hlater, hsize, hchain, fun name => ?_⟩
  rw [hfind, ← hunique _ hchain]

end Script

end Treewalk
