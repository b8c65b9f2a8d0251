import Treewalk.Proofs.Evaluation.Output

/-!
# The bound on calls is not seen until it is met

The same is run twice, the second time with `k` calls less under way at the start (`State.lower`). As long
as the first run meets no call that is one too many, the second does the same with `k` calls less under way
all the time. If the first run meets such a call it ends there, and the second may go on; but whatever that
prints comes after what both have printed.

`Assembled.follows` is this statement for one way in which the first run ends. It goes by the depth to which
goals are nested in the first run, and for each of them by the steps it is put together from, so that
nothing has to be assumed about whether the second run ends.
-/

namespace Treewalk.Evaluation

open Routine (denote value)

/-- A call was one too many. -/
def Overflows {α : Type} (result : Except Fault α) : Prop :=
  ∃ paren, result = .error (.stackOverflow paren)

/-- The state with `k` calls less under way. -/
def State.lower (k : Nat) (s : State) : State :=
  { s with depth := s.depth - k }

/-- How a routine ends with `k` calls less under way, given that it ended like this: in the same way, or
somehow later than at a call that was one too many. -/
inductive Follows {α : Type} (k : Nat) (x : Eval α) (s : State) (out : Except Fault α × State) :
    Prop where
  | same (hdepth : out.2.depth = s.depth)
      (h : value rules x (s.lower k) = some (out.1, out.2.lower k))
  | later (hresult : Overflows out.1)
      (h : ∀ out', value rules x (s.lower k) = some out' →
        ∃ more, out'.2.sink.written = out.2.sink.written ++ more)

variable {near : Goal → Prop} {α β : Type} {k : Nat} {x : Eval α} {s : State}

/-! ## Putting routines together -/

/-- Of two parts that are both followed, the sequence is followed: if the first part ends the first run,
what the second run does later comes after its output. -/
theorem Follows.bind {f : α → Eval β} {out : Except Fault β × State} {n : Nat}
    (hf : ∀ a, Assembled near (f a))
    (hx : ∀ out₁, denote rules n x s = some out₁ → Follows k x s out₁)
    (hrest : ∀ a t, t.depth = s.depth → denote rules n (f a) t = some out → Follows k (f a) t out)
    (h : denote rules n (x >>= f) s = some out) : Follows k (x >>= f) s out := by
  rw [Routine.denote_bind, Option.bind_eq_some_iff] at h
  obtain ⟨⟨r, t⟩, hfirst, h⟩ := h
  cases hx _ hfirst with
  | same hdepth hsame =>
    cases r with
    | error e =>
      obtain rfl : (.error e, t) = out := Option.some.inj h
      exact .same hdepth (by rw [Routine.value_bind, hsame]; rfl)
    | ok a =>
      have hagain := Routine.value_bind_ok rules f hsame
      cases hrest a t hdepth h with
      | same hdepth' hsame' => exact .same (hdepth'.trans hdepth) (hagain.trans hsame')
      | later hresult hlater => exact .later hresult fun out' hout' => hlater out' (hagain ▸ hout')
  | later hresult hlater =>
    obtain ⟨paren, rfl⟩ : Overflows r := hresult
    obtain rfl : (.error (.stackOverflow paren), t) = out := Option.some.inj h
    refine .later ⟨paren, rfl⟩ fun out' hout' => ?_
    -- the second run goes on after `x`, and adds to what it has printed there
    rw [Routine.value_bind, Option.bind_eq_some_iff] at hout'
    obtain ⟨⟨r', t'⟩, hfirst', hout'⟩ := hout'
    obtain ⟨more, hmore⟩ := hlater _ hfirst'
    cases r' with
    | error e =>
      obtain rfl : (.error e, t') = out' := Option.some.inj hout'
      exact ⟨more, hmore⟩
    | ok a =>
      obtain ⟨more', hmore'⟩ := exists_printed (hf a) hout'
      refine ⟨more ++ more', ?_⟩
      rw [hmore', hmore, ByteArray.append_assoc]

/-- What is restored after `x` makes no difference, if it is neither the output nor lost by lowering. -/
theorem Follows.ensuring (restore restore' : State → State) {s₁ : State} {y : Eval α}
    {out : Except Fault α × State} (h : Follows k x s₁ out)
    (hvalue : value rules y (s.lower k) =
      (value rules x (s₁.lower k)).map fun out => (out.1, restore' out.2))
    (hsink : ∀ t, (restore t).sink = t.sink) (hsink' : ∀ t, (restore' t).sink = t.sink)
    (hdepth : out.2.depth = s₁.depth → (restore out.2).depth = s.depth ∧
      restore' (out.2.lower k) = (restore out.2).lower k) :
    Follows k y s (out.1, restore out.2) := by
  cases h with
  | same hsame h =>
    obtain ⟨hback, hlower⟩ := hdepth hsame
    refine .same hback ?_
    rw [hvalue, h, Option.map_some, hlower]
  | later hresult h =>
    refine .later hresult fun out' hout' => ?_
    rw [hvalue, Option.map_eq_some_iff] at hout'
    obtain ⟨out₁, hout₁, rfl⟩ := hout'
    obtain ⟨more, hmore⟩ := h out₁ hout₁
    exact ⟨more, by rw [hsink, hsink', hmore]⟩

/-- Read by recursion, a guard that lets a call pass is the call. -/
theorem denote_guarded (paren : Token) (x : Eval α) {n : Nat} (h : s.depth < maxCallDepth) :
    denote rules n (Eval.guarded paren x) s = denote rules n (Eval.inCall x) s := by
  unfold denote
  rw [Eval.guarded_of_lt _ _ h]

/-- With fewer calls under way the guard lets pass what it lets pass with more. -/
theorem value_guarded_lower (paren : Token) (x : Eval α) (hk : k ≤ s.depth)
    (h : s.depth < maxCallDepth) : value rules (Eval.guarded paren x) (s.lower k) =
      (value rules x (State.lower k { s with depth := s.depth + 1 })).map fun out =>
        (out.1, { out.2 with depth := out.2.depth - 1 }) := by
  have hlower : (s.lower k).depth < maxCallDepth := Nat.lt_of_le_of_lt (Nat.sub_le _ _) h
  have hstate : State.lower k { s with depth := s.depth + 1 } =
      { s.lower k with depth := (s.lower k).depth + 1 } := by
    simp only [State.lower, Nat.sub_add_comm hk]
  have hinCall : value rules (Eval.guarded paren x) (s.lower k) =
      value rules (Eval.inCall x) (s.lower k) := by
    unfold value
    rw [Eval.guarded_of_lt _ _ hlower]
  rw [hinCall, hstate]
  exact Eval.value_inCall x (s.lower k)

/-! ## All routines -/

/-- What calls goals goes the same way, and maybe further, if the goals do that are nested less deep. -/
theorem Assembled.follows_of_goals {n : Nat} (hx : Assembled near x) (hk : k ≤ s.depth)
    (hgoals : ∀ g t out, k ≤ t.depth → denote rules n (Routine.call g) t = some out →
      Follows k (rules g) t out)
    {out : Except Fault α × State} (h : denote rules n x s = some out) : Follows k x s out := by
  induction hx generalizing s with
  | locally f =>
    obtain rfl := Option.some.inj h
    exact .same rfl rfl
  | print keyword v =>
    obtain rfl := Option.some.inj h
    exact .same rfl rfl
  | @call _ g _ =>
    cases hgoals g s out hk h with
    | same hdepth hsame => exact .same hdepth (by rw [Routine.value_call, hsame])
    | later hresult hlater => exact .later hresult (by simpa only [Routine.value_call] using hlater)
  | @become _ g _ =>
    rw [Routine.denote_become] at h
    cases hgoals g s out hk h with
    | same hdepth hsame => exact .same hdepth (by rw [Routine.value_become, hsame])
    | later hresult hlater => exact .later hresult (by simpa only [Routine.value_become] using hlater)
  | bind _ hf ihx ihf =>
    refine Follows.bind hf (fun out₁ hout₁ => ihx hk hout₁) ?_ h
    intro a t ht hrest
    exact ihf a (ht ▸ hk) hrest
  | @inFrame _ _ x frame _ ih =>
    rw [Eval.denote_inFrame, Option.map_eq_some_iff] at h
    obtain ⟨out₁, hout₁, rfl⟩ := h
    have hin : Follows k x { s with current := frame } out₁ := by
      apply ih
      · exact hk
      · exact hout₁
    refine hin.ensuring (fun t => { t with current := s.current }) (fun t => { t with current := s.current })
      (Eval.value_inFrame frame x (s.lower k)) (fun _ => rfl) (fun _ => rfl) ?_
    intro hdepth
    exact ⟨hdepth, rfl⟩
  | @guarded _ _ x paren hx ih =>
    by_cases hfull : maxCallDepth ≤ s.depth
    · have hguarded : denote rules n (Eval.guarded paren x) s = some (.error (.stackOverflow paren), s) := by
        unfold denote
        rw [Eval.guarded_of_le _ _ hfull]
        rfl
      obtain rfl := Option.some.inj (hguarded.symm.trans h)
      refine .later ⟨paren, rfl⟩ fun out' hout' => ?_
      have hassembled : Assembled (fun _ => True) (Eval.guarded paren x) := .guarded paren hx
      obtain ⟨more, hmore⟩ := exists_printed hassembled hout'
      exact ⟨more, hmore⟩
    · have hlt : s.depth < maxCallDepth := Nat.lt_of_not_le hfull
      rw [denote_guarded paren x hlt, Eval.denote_inCall, Option.map_eq_some_iff] at h
      obtain ⟨out₁, hout₁, rfl⟩ := h
      have hin : Follows k x { s with depth := s.depth + 1 } out₁ := ih (Nat.le_succ_of_le hk) hout₁
      refine hin.ensuring (fun t => { t with depth := t.depth - 1 }) (fun t => { t with depth := t.depth - 1 })
        (value_guarded_lower paren x hk hlt) (fun _ => rfl) (fun _ => rfl) ?_
      intro hdepth
      have hback : out₁.2.depth = s.depth + 1 := hdepth
      refine ⟨by simp [hback], ?_⟩
      simp only [State.lower, Nat.sub_right_comm]

/-- **With fewer calls under way a run goes the same way, and maybe further.** -/
theorem Assembled.follows {n : Nat} (hx : Assembled near x) (hk : k ≤ s.depth)
    {out : Except Fault α × State} (h : denote rules n x s = some out) : Follows k x s out := by
  refine hx.follows_of_goals hk ?_ h
  clear h
  induction n with
  | zero =>
    intro g t out _ hnone
    simp at hnone
  | succ n ih =>
    intro g t out ht hout
    rw [Routine.denote_call_succ] at hout
    exact (assembled_rules g).follows_of_goals ht ih hout

/-! ## The bound -/

/-- Two runs of a routine, of which the second begins with fewer calls under way. If the first comes to an end
other than at a call that is one too many, the second comes to the same end. If the first does meet such a
call and the second comes to some end, what the first has printed is the beginning of what the second has. -/
structure Unseen (x : Eval α) (s : State) (d d' : Nat) : Prop where
  same : ∀ steps result t, Routine.run rules steps x { s with depth := d } = some (result, t) →
    ¬Overflows result →
    ∃ steps', Routine.run rules steps' x { s with depth := d' } = some (result, { t with depth := d' })
  later : ∀ steps steps' result result' t t',
    Routine.run rules steps x { s with depth := d } = some (result, t) → Overflows result →
    Routine.run rules steps' x { s with depth := d' } = some (result', t') →
    ∃ more, t'.sink.written = t.sink.written ++ more

/-- **The depth at the start is not seen in a run that meets no call that is one too many**, and where it
does meet one, the other run prints the same and perhaps more. -/
theorem Assembled.unseen (hx : Assembled near x) (s : State) {d d' : Nat} (h : d' ≤ d) :
    Unseen x s d d' := by
  have hlower : State.lower (d - d') { s with depth := d } = { s with depth := d' } := by
    simp only [State.lower, Nat.sub_sub_self h]
  have hfollows : ∀ steps out, Routine.run rules steps x { s with depth := d } = some out →
      Follows (d - d') x { s with depth := d } out := by
    intro steps out hrun
    obtain ⟨n, hn⟩ := (Routine.exists_run_iff rules x _ out).1 ⟨steps, hrun⟩
    exact hx.follows (Nat.sub_le d d') hn
  constructor
  · intro steps result t hrun hresult
    cases hfollows steps _ hrun with
    | later hoverflows _ => exact absurd hoverflows hresult
    | same hdepth hvalue =>
      have ht : t.depth = d := hdepth
      have hlowered : t.lower (d - d') = { t with depth := d' } := by
        simp only [State.lower, ht, Nat.sub_sub_self h]
      rw [hlower, hlowered] at hvalue
      exact (Routine.value_eq_some_iff rules).1 hvalue
  · intro steps steps' result result' t t' hrun hresult hrun'
    have hvalue' := Routine.value_of_run rules hrun'
    cases hfollows steps _ hrun with
    | later _ hlater => exact hlater _ (hlower ▸ hvalue')
    | same _ hvalue =>
      rw [hlower, hvalue'] at hvalue
      obtain ⟨-, rfl⟩ := Prod.mk.inj (Option.some.inj hvalue)
      exact ⟨ByteArray.empty, by simp [State.lower]⟩

/-- **The bound on calls is not seen until it is met**: not by a statement, not by an expression and not by a
program, whatever the frames and the output are. -/
theorem depth_unseen (s : State) {d d' : Nat} (h : d' ≤ d) :
    (∀ st, Unseen (exec st) s d d') ∧ (∀ e, Unseen (eval e) s d d') ∧
      ∀ program, Unseen (execAll program) s d d' := by
  refine ⟨?_, ?_, ?_⟩
  · intro st
    exact (assembled_exec st).unseen s h
  · intro e
    exact (assembled_eval e).unseen s h
  · intro program
    have hprogram : Assembled (fun _ => True) (execAll program) := .execAll fun _ _ => trivial
    exact hprogram.unseen s h

/-- A function is declared and called when one more call can be nested, and hence when none is under way. -/
theorem depth_unseen_call : ∃ steps t,
    Routine.run rules steps
      (execAll
        [.function (.synthetic .identifier "f" 1) [] [],
        .expression (.call (.variable (.synthetic .identifier "f" 1)) (.synthetic .rightParen ")" 1) [])])
      (.initial (.empty none)) = some (.ok .normal, t) := by
  obtain ⟨t, hrun⟩ : ∃ t, Routine.run rules 40
      (execAll
        [.function (.synthetic .identifier "f" 1) [] [],
        .expression (.call (.variable (.synthetic .identifier "f" 1)) (.synthetic .rightParen ")" 1) [])])
      { State.initial (.empty none) with depth := 4095 } = some (.ok .normal, t) := by
    with_unfolding_all exact ⟨_, rfl⟩
  have hresult : ¬Overflows (.ok Flow.normal) := by
    rintro ⟨paren, h⟩
    cases h
  obtain ⟨-, -, hprogram⟩ := depth_unseen (.initial (.empty none)) (Nat.zero_le 4095)
  obtain ⟨steps, hsteps⟩ := (hprogram _).same 40 _ t hrun hresult
  exact ⟨steps, _, hsteps⟩

end Treewalk.Evaluation
