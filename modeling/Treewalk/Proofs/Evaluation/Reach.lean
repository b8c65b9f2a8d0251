import Treewalk.Proofs.Evaluation.Frames
import Treewalk.Proofs.Evaluation.TwoRuns

/-!
# Execution stays in the frames that it can reach

A frame can be reached from the present one by going outwards and by following the functions that are
bound in a frame to the frames they were declared in. What cannot be reached before an execution
does not matter to it: such frames are not changed, and their contents are not read, not even by a
function that escapes through a variable, an argument or a result.

Both halves are one instance of `Likeness.rel_value`: visible are the frames that can be reached,
and those that are created later. The frames outside are held fixed in the first run and are
arbitrary in the second one.

The second run may also have given out a different number of identities to functions. Then the
functions that both runs create are numbered differently, and the outcomes are the same up to this
renumbering.
-/

namespace Treewalk

/-! ## Frames that can be reached -/

/-- A frame that can be reached from `start`: through enclosing frames, and through the functions
bound in a frame. -/
inductive Store.Reaches (store : Store) (start : FrameId) : FrameId → Prop where
  | here : Reaches store start start
  | outward {f p : FrameId} (h : Reaches store start f) (hp : store.parent? f = some p) :
      Reaches store start p
  | closure {f : FrameId} {frame : Frame} {name : String} {c : Closure}
      (h : Reaches store start f) (hf : store.frames[f]? = some frame)
      (hc : (name, Value.function c) ∈ frame.bindings) : Reaches store start c.frame

/-! ## Renumbering functions -/

/-- The identity that a function has in a run that started with `b` identities given out, if it has
the identity `i` in a run that started with `a`. -/
def renumber (a b i : Nat) : Nat :=
  if i < a then i else i - a + b

/-- If both runs have given out as many identities, nothing is renumbered. -/
@[simp] theorem renumber_self (a i : Nat) : renumber a a i = i := by
  unfold renumber
  split <;> omega

/-- A value with the identity of a function changed. -/
def Value.renumber (ρ : Nat → Nat) : Value → Value
  | .function c => .function { c with identity := ρ c.identity }
  | v => v

/-- A frame with the identities of the functions in it changed. -/
def Frame.renumber (ρ : Nat → Nat) (f : Frame) : Frame :=
  { f with bindings := f.bindings.map fun b => (b.1, b.2.renumber ρ) }

/-- A renumbering that changes no number changes no value. -/
theorem Value.renumber_id {ρ : Nat → Nat} (h : ∀ i, ρ i = i) (v : Value) : v.renumber ρ = v := by
  cases v with
  | function c =>
    show Value.function { c with identity := ρ c.identity } = .function c
    rw [h]
  | _ => rfl

/-- Nor does it change a frame. -/
theorem Frame.renumber_id {ρ : Nat → Nat} (h : ∀ i, ρ i = i) (f : Frame) : f.renumber ρ = f := by
  unfold Frame.renumber
  simp only [Value.renumber_id h, List.map_id']

namespace Evaluation

/-- The value that a statement hands out of a function. -/
def Flow.value? : Flow → Option Value
  | .normal => none
  | .returned v => some v

/-- How a statement ended, with the identity of a function changed. -/
def Flow.renumber (ρ : Nat → Nat) : Flow → Flow
  | .normal => .normal
  | .returned v => .returned (v.renumber ρ)

namespace State

/-- A frame that can be reached from the present one, or will be created later. -/
def Seen (s : State) (f : FrameId) : Prop :=
  s.store.Reaches s.current f ∨ s.store.frames.size ≤ f

/-- As many frames, the same ones where they can be reached, and the same present frame, depth and
output. Nothing is said of the frames that cannot be reached. -/
structure SameReach (s s' : State) : Prop where
  size_eq : s'.store.frames.size = s.store.frames.size
  frames_eq : ∀ f, s.store.Reaches s.current f → s'.store.frames[f]? = s.store.frames[f]?
  current_eq : s'.current = s.current
  depth_eq : s'.depth = s.depth
  sink_eq : s'.sink = s.sink

/-- The functions that can be reached have identities that were given out before, fewer than `n`. -/
def IdentitiesBelow (s : State) (n : Nat) : Prop :=
  ∀ f frame name c, s.store.Reaches s.current f → s.store.frames[f]? = some frame →
    (name, Value.function c) ∈ frame.bindings → c.identity < n

end State

/-! ## The instance -/

/-- Only the frames in sight of `s` are visible, and functions created from then on are numbered
from `b` in the second run. -/
def reachLikeness (s : State) (b : Nat) : Likeness where
  token t t' := t' = t
  identity i i' := i' = renumber s.store.identities b i ∧
    (i < s.store.identities → s.store.identities = b ∨ i < b)
  visible := s.Seen
  hidden f := s.store.frames[f]?
  loose := False
  kind_eq h := by rw [h]
  lexeme_like h := by rw [h]
  identity_iff := by
    rintro i _ j _ ⟨rfl, hi⟩ ⟨rfl, hj⟩
    constructor
    · intro h
      rw [h]
    · intro h
      unfold renumber at h
      split at h <;> split at h <;> omega

variable {s s' : State}

/-- A binding of a frame that can be reached is like itself: a function in it has an identity that both
runs know, and a frame that can be reached, too. -/
theorem bindingLike_of_reaches {b : Nat} {f : FrameId} {frame : Frame}
    (hb : s.store.identities = b ∨ s.IdentitiesBelow s.store.identities ∧ s.IdentitiesBelow b)
    (hreach : s.store.Reaches s.current f) (hf : s.store.frames[f]? = some frame)
    {binding : String × Value} (hmem : binding ∈ frame.bindings) :
    (reachLikeness s b).BindingLike binding binding := by
  obtain ⟨name, v⟩ := binding
  refine ⟨rfl, ?_⟩
  cases v with
  | nil => exact .nil
  | boolean x => exact .boolean x
  | number x => exact .number x
  | string x => exact .string x
  | function c =>
    refine .function ⟨?_, rfl, List.forall₂_same.2 fun _ _ => rfl,
      Likeness.stmtsLike_refl (fun _ => rfl) (fun _ => rfl) _, rfl, .inl (.closure hreach hf hmem)⟩
    rcases hb with rfl | ⟨ha, hb⟩
    · exact ⟨(renumber_self _ _).symm, fun _ => .inl rfl⟩
    · have hlt := ha f frame name c hreach hf hmem
      exact ⟨by rw [renumber, if_pos hlt], fun _ => .inr (hb f frame name c hreach hf hmem)⟩

/-- States that agree on what can be reached are alike. -/
theorem stateLike_of_sameReach (h : s.SameReach s')
    (hb : s.store.identities = s'.store.identities ∨
      s.IdentitiesBelow s.store.identities ∧ s.IdentitiesBelow s'.store.identities) :
    (reachLikeness s s'.store.identities).StateLike s s' where
  store :=
    { size_eq := h.size_eq
      frames := by
        rintro f (hreach | hnew)
        · rw [h.frames_eq f hreach]
          cases hf : s.store.frames[f]? with
          | none => exact .none
          | some frame =>
            refine .some ⟨List.forall₂_same.2 fun b hmem => ?_, rfl, fun p hp => ?_⟩
            · exact bindingLike_of_reaches hb hreach hf hmem
            · refine .inl (.outward hreach ?_)
              unfold Store.parent?
              rw [hf]
              exact hp
        · rw [Array.getElem?_eq_none hnew, Array.getElem?_eq_none (h.size_eq ▸ hnew)]
          exact .none
      hidden := fun _ _ => rfl
      visible := fun _ hf => .inr hf
      identities := by
        intro k
        refine ⟨?_, fun hlt => by omega⟩
        unfold renumber
        rw [if_neg (by omega)]
        omega }
  current_eq := h.current_eq
  visible := .inl .here
  depth_eq := h.depth_eq
  sink := h.sink_eq

/-! ## What likeness says here -/

/-- Values that are alike here are the same up to renumbering. -/
theorem value_eq_of_like {b : Nat} {v v' : Value} (h : (reachLikeness s b).ValueLike v v') :
    v' = v.renumber (renumber s.store.identities b) := by
  cases h with
  | @function c c' hc =>
    obtain ⟨i, ⟨n, ps, body⟩, f⟩ := c
    obtain ⟨i', ⟨n', ps', body'⟩, f'⟩ := c'
    have hid : i' = renumber s.store.identities b i := hc.identity.1
    have hn : n' = n := hc.name
    have hps : ps' = ps := Likeness.tokensLike_eq (fun _ _ h => h) (fun _ _ h => h) (fun h => h) hc.params
    have hbody : body' = body := hc.body.eq (fun _ _ h => h) (fun _ _ h => h) (fun h => h)
    have hf : f' = f := hc.frame_eq
    rw [hid, hn, hps, hbody, hf]
    rfl
  | _ => rfl

/-- So are frames. -/
theorem frame_eq_of_like {b : Nat} {f f' : Frame} (h : (reachLikeness s b).FrameLike f f') :
    f' = f.renumber (renumber s.store.identities b) := by
  obtain ⟨bs, p⟩ := f
  obtain ⟨bs', p'⟩ := f'
  have hp : p' = p := h.parent_eq
  have hbs : bs' = bs.map fun x => (x.1, x.2.renumber (renumber s.store.identities b)) := by
    have hlike := h.bindings
    dsimp only at hlike
    clear h
    induction hlike with
    | nil => rfl
    | @cons x x' bs bs' hx _ ih =>
      have hx' : x' = (x.1, x.2.renumber (renumber s.store.identities b)) :=
        Prod.ext hx.1 (value_eq_of_like hx.2)
      rw [ih, hx', List.map_cons]
  rw [hp, hbs]
  rfl

/-- Faults that are alike here are the same. -/
theorem fault_eq_of_like {b : Nat} {f f' : Fault} (h : (reachLikeness s b).FaultLike f f') :
    f' = f := by
  cases h with
  | typeMismatch m ht => rw [show _ = _ from ht]
  | undefinedVariable ht => rw [show _ = _ from ht]
  | notCallable ht => rw [show _ = _ from ht]
  | arityMismatch m n ht => rw [show _ = _ from ht]
  | stackOverflow ht => rw [show _ = _ from ht]
  | output ht => rw [show _ = _ from ht]

/-- In states that are alike, frames that are seen have the same contents up to renumbering. -/
theorem frames_eq_of_like {b : Nat} {t t' : State} (h : (reachLikeness s b).StateLike t t')
    {f : FrameId} (hf : s.Seen f) :
    t'.store.frames[f]? =
      t.store.frames[f]?.map (Frame.renumber (renumber s.store.identities b)) := by
  rcases h.store.frame_cases hf with ⟨ht, ht'⟩ | ⟨fr, fr', ht, ht', hfr⟩
  · rw [ht, ht']
    rfl
  · rw [ht, ht', frame_eq_of_like hfr]
    rfl

/-! ## Confinement -/

/-- What an execution does with the frames of the state that it starts in. `value?` picks the value
out of its result, and `renumbered` changes identities in it. -/
structure Eval.Confined {α : Type} (value? : α → Option Value)
    (renumbered : (Nat → Nat) → α → α) (x : Eval α) : Prop where
  /-- A frame that cannot be reached stays as it is. -/
  untouched : ∀ (s t : State) (steps : Nat) (result : Except Fault α),
    Routine.run rules steps x s = some (result, t) →
      ∀ f < s.store.frames.size, ¬s.store.Reaches s.current f →
        t.store.frames[f]? = s.store.frames[f]?
  /-- A function in the result was declared in a frame that could be reached or is new. -/
  closure : ∀ (s t : State) (steps : Nat) (a : α) (c : Closure),
    Routine.run rules steps x s = some (.ok a, t) → value? a = some (.function c) →
      s.Seen c.frame
  /-- If the functions and links of the store lead to frames that exist, then that frame could be
  reached or is one of those that the execution has created, and it exists afterwards. -/
  allocated : ∀ (s t : State) (steps : Nat) (a : α) (c : Closure), s.store.WellFormed →
    s.current < s.store.frames.size →
    Routine.run rules steps x s = some (.ok a, t) → value? a = some (.function c) →
      (s.store.Reaches s.current c.frame ∨ s.store.frames.size ≤ c.frame) ∧
        c.frame < t.store.frames.size
  /-- Frames that cannot be reached have no influence on the output, the result, and the frames
  that can be reached or are new. -/
  unread : ∀ s s' : State, s.SameReach s' → s'.store.identities = s.store.identities →
    ∀ (steps : Nat) (result : Except Fault α) (t : State),
      Routine.run rules steps x s = some (result, t) →
        ∃ (steps' : Nat) (t' : State), Routine.run rules steps' x s' = some (result, t') ∧
          t'.sink = t.sink ∧ ∀ f, s.Seen f → t'.store.frames[f]? = t.store.frames[f]?
  /-- The same if the two runs have given out different numbers of identities before, up to the
  identities that they give out themselves. -/
  unread_renumbered : ∀ s s' : State, s.SameReach s' → s.IdentitiesBelow s.store.identities →
    s.IdentitiesBelow s'.store.identities →
    ∀ (steps : Nat) (result : Except Fault α) (t : State),
      Routine.run rules steps x s = some (result, t) →
        ∃ (steps' : Nat) (t' : State),
          Routine.run rules steps' x s' =
            some (result.map (renumbered (renumber s.store.identities s'.store.identities)), t') ∧
          t'.sink = t.sink ∧ ∀ f, s.Seen f →
            t'.store.frames[f]? = t.store.frames[f]?.map
              (Frame.renumber (renumber s.store.identities s'.store.identities))

section Confined

variable {α : Type} {value? : α → Option Value} {renumbered : (Nat → Nat) → α → α} {x : Eval α}

/-- A routine is in step with itself if its runs from states that agree on what can be reached end alike,
their results being compared by `like`. -/
def InStepWithItself (like : Nat → State → α → α → Prop) (x : Eval α) : Prop :=
  ∀ (b : Nat) (s s' : State), (reachLikeness s b).StateLike s s' →
    Option.Rel ((reachLikeness s b).OutcomeLike (like b s)) (Routine.value rules x s)
      (Routine.value rules x s')

variable {like : Nat → State → α → α → Prop} {steps : Nat} {result : Except Fault α} {s t : State}

/-- One run, compared with itself, says what happens to its own frames and result. -/
theorem InStepWithItself.outcomeLike_self (hx : InStepWithItself like x)
    (hrun : Routine.run rules steps x s = some (result, t)) :
    (reachLikeness s s.store.identities).OutcomeLike (like s.store.identities s)
      (result, t) (result, t) := by
  have hself : (reachLikeness s s.store.identities).StateLike s s :=
    stateLike_of_sameReach ⟨rfl, fun _ _ => rfl, rfl, rfl, rfl⟩ (.inl rfl)
  have hrel := hx _ s s hself
  rw [Routine.value_of_run rules hrun] at hrel
  cases hrel with
  | some hrel => exact hrel

/-- So the function that it ends with, if there is one, was declared in a frame that is seen. -/
theorem InStepWithItself.seen_of_run (hx : InStepWithItself like x)
    (hvalue : ∀ b s a a', like b s a a' → ∀ c, value? a = some (.function c) → s.Seen c.frame)
    {a : α} {c : Closure} (hrun : Routine.run rules steps x s = some (.ok a, t))
    (hc : value? a = some (.function c)) : s.Seen c.frame := by
  obtain ⟨hresult, -⟩ := hx.outcomeLike_self hrun
  cases hresult with
  | ok ha => exact hvalue _ _ _ _ ha c hc

/-- The second run of two that agree on what can be reached. -/
theorem exists_run_of_sameReach (hx : InStepWithItself like x)
    (hlike : ∀ b s a a', like b s a a' → a' = renumbered (renumber s.store.identities b) a)
    (h : s.SameReach s')
    (hb : s.store.identities = s'.store.identities ∨
      s.IdentitiesBelow s.store.identities ∧ s.IdentitiesBelow s'.store.identities)
    (hrun : Routine.run rules steps x s = some (result, t)) :
    ∃ (steps' : Nat) (t' : State),
      Routine.run rules steps' x s' =
        some (result.map (renumbered (renumber s.store.identities s'.store.identities)), t') ∧
      t'.sink = t.sink ∧ ∀ f, s.Seen f →
        t'.store.frames[f]? = t.store.frames[f]?.map
          (Frame.renumber (renumber s.store.identities s'.store.identities)) := by
  have hrel := hx _ s s' (stateLike_of_sameReach h hb)
  rw [Routine.value_of_run rules hrun] at hrel
  cases hout : Routine.value rules x s' with
  | none =>
    rw [hout] at hrel
    cases hrel
  | some out =>
    rw [hout] at hrel
    obtain ⟨result', t'⟩ := out
    cases hrel with
    | some hrel =>
      obtain ⟨hresult, hstate⟩ := hrel
      obtain ⟨steps', hsteps'⟩ := (Routine.value_eq_some_iff rules).1 hout
      refine ⟨steps', t', ?_, hstate.sink, fun f hf => frames_eq_of_like hstate hf⟩
      rw [hsteps']
      cases hresult with
      | ok ha => rw [hlike _ _ _ _ ha]; rfl
      | error hf => rw [fault_eq_of_like hf]; rfl

/-- A routine that is in step with itself, and leaves functions that were declared in frames that exist,
is confined. -/
theorem confined_of_rel (hx : InStepWithItself like x)
    (hlike : ∀ b s a a', like b s a a' → a' = renumbered (renumber s.store.identities b) a)
    (hvalue : ∀ b s a a', like b s a a' → ∀ c, value? a = some (.function c) → s.Seen c.frame)
    (hid : ∀ {ρ : Nat → Nat}, (∀ i, ρ i = i) → ∀ a, renumbered ρ a = a) {good : Store → α → Prop}
    (htidy : ∀ s : State, Tidy s.store good x s)
    (hgood : ∀ t a, good t a → ∀ c, value? a = some (.function c) → c.frame < t.frames.size) :
    x.Confined value? renumbered := by
  refine ⟨?_, fun s t steps a c => hx.seen_of_run hvalue, ?_, ?_, ?_⟩
  · intro s t steps result hrun f hf hreach
    refine (hx.outcomeLike_self hrun).2.store.hidden f ?_
    rintro (h | h)
    · exact hreach h
    · omega
  · intro s t steps a c hstore hcurrent hrun hc
    have hleaves := (htidy s).leaves ⟨hstore, .refl _, hcurrent⟩ (Routine.value_of_run rules hrun)
    exact ⟨hx.seen_of_run hvalue hrun hc, hgood _ a (hleaves.result a rfl) c hc⟩
  · intro s s' h hb steps result t hrun
    obtain ⟨steps', t', hrun', hsink, hframes⟩ :=
      exists_run_of_sameReach hx hlike h (.inl hb.symm) hrun
    rw [hb] at hrun' hframes
    refine ⟨steps', t', ?_, hsink, fun f hf => ?_⟩
    · rw [hrun']
      cases result with
      | ok a => rw [Except.map, hid (renumber_self _)]
      | error e => rfl
    · rw [hframes f hf]
      cases t.store.frames[f]? with
      | none => rfl
      | some fr => rw [Option.map_some, Frame.renumber_id (renumber_self _)]
  · intro s s' h hs hs' steps result t hrun
    exact exists_run_of_sameReach hx hlike h (.inr ⟨hs, hs'⟩) hrun

end Confined

/-- **Execution stays in the frames that it can reach.** -/
theorem execution_confined :
    (∀ st : Stmt, (exec st).Confined Flow.value? Flow.renumber) ∧
    ∀ e : Expr, (eval e).Confined some Value.renumber := by
  constructor
  · intro st
    have hx : InStepWithItself (fun b s => (reachLikeness s b).FlowLike) (exec st) := by
      intro b s s' hst
      exact Likeness.rel_value (Likeness.exec_inStep (Likeness.stmtLike_refl (fun _ => rfl) (fun _ => rfl) st)) hst
    refine confined_of_rel hx ?_ ?_ ?_ (fun _ => tidy_exec st) ?_
    · intro b s flow flow' h
      cases h with
      | normal => rfl
      | returned hv => rw [value_eq_of_like hv]; rfl
    · intro b s flow flow' h c hc
      cases h with
      | normal => cases hc
      | returned hv =>
        cases hc
        cases hv with
        | function hf => exact hf.visible
    · intro ρ hρ flow
      cases flow with
      | normal => rfl
      | returned v => rw [Flow.renumber, Value.renumber_id hρ]
    · intro t flow hflow c hc
      cases flow with
      | normal => cases hc
      | returned v =>
        cases hc
        exact hflow
  · intro e
    have hx : InStepWithItself (fun b s => (reachLikeness s b).ValueLike) (eval e) := by
      intro b s s' hst
      exact Likeness.rel_value_eval (Likeness.exprLike_refl (fun _ => rfl) (fun _ => rfl) e) hst
    refine confined_of_rel hx ?_ ?_ ?_ (fun _ => tidy_eval e) ?_
    · intro b s v v' h
      exact value_eq_of_like h
    · intro b s v v' h c hc
      cases hc
      cases h with
      | function hf => exact hf.visible
    · intro ρ hρ v
      exact Value.renumber_id hρ v
    · rintro t v hv c ⟨⟩
      exact hv

end Evaluation

end Treewalk
