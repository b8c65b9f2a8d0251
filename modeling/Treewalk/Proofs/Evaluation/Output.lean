import Treewalk.Proofs.Evaluation.Assembly
import Treewalk.Proofs.Plan.InStep

/-!
# What was printed before makes no difference

A run does not look at what was printed before it: with more of that, it does the same, and adds the same
to the output (`value_behind`). So the output of a run can be split off from what was there before
(`exists_printed`), and never takes anything of it back.
-/

namespace Treewalk

/-- The sink with a text before everything that was written to it. -/
def Sink.behind (w : ByteArray) (sink : Sink) : Sink :=
  ⟨w ++ sink.written, sink.room⟩

/-- A write only looks at how much room there is. -/
theorem Sink.write_behind (w bytes : ByteArray) (sink : Sink) :
    (sink.behind w).write bytes = ((sink.write bytes).1, (sink.write bytes).2.behind w) := by
  unfold Sink.write Sink.behind
  rcases sink.room with _ | n
  · simp [ByteArray.append_assoc]
  · by_cases h : bytes.size ≤ n
    · simp [h, ByteArray.append_assoc]
    · simp [h, ByteArray.append_assoc]

namespace Evaluation

open Routine (call become value rulesOf)

/-- The state with a text before everything that was printed. -/
def State.behind (w : ByteArray) (s : State) : State :=
  { s with sink := s.sink.behind w }

/-- A goal is called in two states that differ by what was printed before, and ends alike in both. -/
def behindMatch (w : ByteArray) : Plan.Match (Reply Goal.Result Fault State) where
  asked q q' := q' = (q.1, q.2.behind w)
  replied _ _ r r' := HEq r'.1 r.1 ∧ r'.2 = r.2.behind w

variable {near : Goal → Prop} {α : Type} {x : Eval α} (w : ByteArray)

/-- **Single steps do not look at what was printed, and neither does what is put together from them.** -/
theorem Assembled.inStep_behind (hx : Assembled near x) (s : State) :
    Plan.InStep (behindMatch w) (fun out out' => out' = (out.1, out.2.behind w)) (x s)
      (x (s.behind w)) := by
  induction hx generalizing s with
  | locally f => exact .done rfl
  | print keyword v =>
    apply Plan.InStep.done
    simp only [State.behind, Sink.write_behind]
  | call _ =>
    apply Plan.InStep.ask rfl
    intro r r' hr
    exact .done (Prod.ext (eq_of_heq hr.1) hr.2)
  | become _ =>
    apply Plan.InStep.pass rfl
    intro r r' hr
    exact Prod.ext (eq_of_heq hr.1) hr.2
  | bind _ _ ihx ihf =>
    refine (ihx s).bind ?_
    rintro ⟨e | a, t⟩ _ rfl
    · exact .done rfl
    · exact ihf a t
  | inFrame frame _ ih =>
    refine (ih { s with current := frame }).bind ?_
    rintro out _ rfl
    exact .done rfl
  | guarded paren _ ih =>
    by_cases h : maxCallDepth ≤ s.depth
    · have hbehind : maxCallDepth ≤ (s.behind w).depth := h
      rw [Eval.guarded_of_le _ _ h, Eval.guarded_of_le _ _ hbehind]
      exact .done rfl
    · have hlt : s.depth < maxCallDepth := Nat.lt_of_not_le h
      have hbehind : (s.behind w).depth < maxCallDepth := hlt
      rw [Eval.guarded_of_lt _ _ hlt, Eval.guarded_of_lt _ _ hbehind]
      refine (ih { s with depth := s.depth + 1 }).bind ?_
      rintro out _ rfl
      exact .done rfl

/-- Whatever was printed before, the same goal comes to the same, or comes to no end in both cases. -/
theorem rel_behind (q q' : Goal × State) (hq : (behindMatch w).asked q q') :
    Option.Rel ((behindMatch w).replied q q') (Plan.value (rulesOf rules) q)
      (Plan.value (rulesOf rules) q') := by
  -- neither run ever waits for the other, so any weight will do
  have hrules : ∀ q q', (behindMatch w).asked q q' →
      Plan.InStep (behindMatch w) ((behindMatch w).replied q q') (rulesOf rules q) (rulesOf rules q') ∨
        (behindMatch w).Waits (rulesOf rules) (fun _ => 0) q q' := by
    rintro ⟨g, s⟩ _ rfl
    left
    refine ((assembled_rules g).inStep_behind w s).mono ?_
    rintro out _ rfl
    exact ⟨HEq.rfl, rfl⟩
  exact Plan.Match.rel_value hrules q q' hq

/-- **What was printed before makes no difference.** -/
theorem value_behind (hx : Assembled near x) (s : State) :
    value rules x (s.behind w) = (value rules x s).map fun out => (out.1, out.2.behind w) := by
  have hrel := Plan.Match.rel_eval (rel_behind w) (hx.inStep_behind w s)
  unfold value
  generalize (x s).eval _ = o at hrel ⊢
  generalize (x (s.behind w)).eval _ = o' at hrel ⊢
  cases hrel with
  | none => rfl
  | some h => rw [h, Option.map_some]

/-- What a run has printed comes after what was there. -/
theorem exists_printed (hx : Assembled near x) {s : State} {out : Except Fault α × State}
    (h : value rules x s = some out) : ∃ more, out.2.sink.written = s.sink.written ++ more := by
  have hs : s = { s with sink := .empty s.sink.room }.behind s.sink.written := by
    simp [State.behind, Sink.behind, Sink.empty]
  rw [hs, value_behind _ hx, Option.map_eq_some_iff] at h
  obtain ⟨out₀, -, rfl⟩ := h
  exact ⟨out₀.2.sink.written, rfl⟩

end Evaluation

end Treewalk
