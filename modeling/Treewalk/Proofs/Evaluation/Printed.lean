import Treewalk.Proofs.Evaluation.Assembly
import Treewalk.Proofs.Evaluation.TwoRuns
import Treewalk.Proofs.Plan.Answers

/-!
# The values that a run prints

A run prints the values of the expressions of its print statements, in the order in which these are done
(`Prints`). Where there is no limit to the output, it consists of the texts of these values, each on a
line of its own (`Prints.sink_eq`), after what was there before. Of two runs that are alike the second
prints like values (`Prints.exists_like`).
-/

namespace Treewalk

/-- The texts of values, each ended by a line feed. -/
def Value.lines : List Value → ByteArray
  | [] => .empty
  | v :: vs => (v.text ++ "\n").toUTF8 ++ Value.lines vs

/-- The lines of some values and of others are the lines of all of them. -/
theorem Value.lines_append (vs ws : List Value) :
    Value.lines (vs ++ ws) = Value.lines vs ++ Value.lines ws := by
  induction vs with
  | nil => exact ByteArray.empty_append.symm
  | cons v vs ih => rw [List.cons_append, Value.lines, ih, Value.lines, ByteArray.append_assoc]

namespace Evaluation

open Routine (call become value rulesOf)

/-- The value that a print statement prints itself, when it is executed in a state. -/
noncomputable def printedBy : Goal × State → Option Value
  | (.exec (.print _ e), s) =>
    match value rules (eval e) s with
    | some (.ok v, _) => some v
    | _ => none
  | _ => none

/-- Performed in a state, a routine ends in this way, and these values are printed on the way. -/
def Prints {α : Type} (x : Eval α) (s : State) (vs : List Value) (out : Except Fault α × State) :
    Prop :=
  ∃ qs, Plan.Answers (rulesOf rules) (x s) qs out ∧ qs.filterMap printedBy = vs

variable {α β : Type} {x : Eval α} {y : Eval β} {s t : State} {vs : List Value}
  {out : Except Fault α × State}

/-- What a run that prints these values comes to is its value. -/
theorem Prints.value (h : Prints x s vs out) : value rules x s = some out :=
  let ⟨_, hanswers, _⟩ := h
  hanswers.eval

/-- Every run that comes to an end prints some values. -/
theorem exists_prints (h : Routine.value rules x s = some out) : ∃ vs, Prints x s vs out :=
  let ⟨qs, hanswers⟩ := Plan.exists_answers h
  ⟨qs.filterMap printedBy, qs, hanswers, rfl⟩

/-- A run prints one list of values only. -/
theorem Prints.unique {vs' : List Value} {out' : Except Fault α × State} (h : Prints x s vs out)
    (h' : Prints x s vs' out') : vs' = vs ∧ out' = out := by
  obtain ⟨qs, hanswers, rfl⟩ := h
  obtain ⟨qs', hanswers', rfl⟩ := h'
  obtain ⟨rfl, rfl⟩ := hanswers.unique hanswers'
  exact ⟨rfl, rfl⟩

/-! ## What is printed and what is written -/

/-- The place for output has no limit and holds `w`. -/
def State.Wrote (s : State) (w : ByteArray) : Prop :=
  s.sink = ⟨w, none⟩

/-- A plan that begins when `w` has been written ends as `post` says of what has been written since the
last question was answered, whatever had been written until then. -/
def Tells (post : ByteArray → α → Prop) :
    Plan (Reply Goal.Result Fault State) α → ByteArray → Prop
  | .done a, w => post w a
  | .ask q k, w => q.2.Wrote w ∧
      ∀ r, Plan.value (rulesOf rules) q = some r → ∀ w', r.2.Wrote w' → Tells post (k r) w'
  | .pass q e, w => q.2.Wrote w ∧ ∀ r : Reply Goal.Result Fault State q, ∀ w', r.2.Wrote w' →
      post w' (cast e r)

/-- What is said of the output of a sequence can be said of one part after the other. -/
theorem Tells.bind {post : ByteArray → α → Prop} {post' : ByteArray → β → Prop}
    {p : Plan (Reply Goal.Result Fault State) α} {f : α → Plan (Reply Goal.Result Fault State) β}
    {w : ByteArray} (h : Tells post p w) (hf : ∀ a w', post w' a → Tells post' (f a) w') :
    Tells post' (p.bind f) w := by
  induction p generalizing w with
  | done a => exact hf a w h
  | ask q k ih => exact ⟨h.1, fun r hr w' hw' => ih r (h.2 r hr w' hw')⟩
  | pass q e =>
    cases e
    exact ⟨h.1, fun r _ w' hw' => hf r w' (h.2 r w' hw')⟩

variable {near : Goal → Prop}

/-- **What does not print itself leaves the output as it was after the last call.** -/
theorem AssembledIf.tells (hx : AssembledIf False near x) {w : ByteArray} (hs : s.Wrote w) :
    Tells (fun w' out => out.2.Wrote w') (x s) w := by
  induction hx generalizing s w with
  | locally f => exact hs
  | print _ _ h => exact h.elim
  | call _ => exact ⟨hs, fun r _ w' hr => hr⟩
  | become _ => exact ⟨hs, fun r w' hr => hr⟩
  | bind _ _ ihx ihf =>
    refine (ihx hs).bind ?_
    rintro ⟨e | a, t⟩ w' ht
    · exact ht
    · exact ihf a ht
  | inFrame frame _ ih =>
    have hin : State.Wrote { s with current := frame } w := hs
    exact (ih hin).bind fun out w' hout => hout
  | guarded paren _ ih =>
    by_cases h : maxCallDepth ≤ s.depth
    · rw [Eval.guarded_of_le _ _ h]
      exact hs
    · rw [Eval.guarded_of_lt _ _ (Nat.lt_of_not_le h)]
      have hin : State.Wrote { s with depth := s.depth + 1 } w := hs
      exact (ih hin).bind fun out w' hout => hout

/-- Without a limit to the output a value is printed on a line of its own, and this does not fail. -/
theorem State.Wrote.print {w : ByteArray} (h : s.Wrote w) (keyword : Token) (v : Value) :
    Eval.print keyword v s =
      .done (.ok (), { s with sink := ⟨w ++ (v.text ++ "\n").toUTF8, none⟩ }) := by
  obtain ⟨store, current, depth, sink⟩ := s
  obtain rfl : sink = ⟨w, none⟩ := h
  rfl

/-- Only `print` statements print something themselves. -/
theorem printedBy_of_ne {g : Goal} (h : ¬∃ keyword e, g = .exec (.print keyword e)) :
    printedBy (g, s) = none := by
  cases g with
  | eval e => rfl
  | exec st =>
    cases st with
    | print keyword e => exact absurd ⟨keyword, e, rfl⟩ h
    | _ => rfl

/-- A `print` statement prints the value of its expression. -/
theorem printedBy_print {v : Value} (keyword : Token) {e : Expr}
    (h : value rules (eval e) s = some (.ok v, t)) :
    printedBy (.exec (.print keyword e), s) = some v := by
  unfold printedBy
  dsimp only
  rw [h]

/-- If its expression fails, it prints nothing. -/
theorem printedBy_of_error {fault : Fault} (keyword : Token) {e : Expr}
    (h : value rules (eval e) s = some (.error fault, t)) :
    printedBy (.exec (.print keyword e), s) = none := by
  unfold printedBy
  dsimp only
  rw [h]

/-- What a `print` statement adds to the output is the line of the value that it prints, if any. -/
theorem tells_print (keyword : Token) (e : Expr) {w : ByteArray} (hs : s.Wrote w) :
    Tells (fun w' out => out.2.Wrote
        (w' ++ Value.lines ([(Goal.exec (.print keyword e), s)].filterMap printedBy)))
      (exec (.print keyword e) s) w := by
  refine ⟨hs, ?_⟩
  intro r hr w' ht
  have hvalue : value rules (eval e) s = some r := by
    rwa [Plan.value_eq] at hr
  obtain ⟨fault | v, t⟩ := r
  · have hprinted : [(Goal.exec (.print keyword e), s)].filterMap printedBy = [] := by
      rw [List.filterMap_cons, printedBy_of_error keyword hvalue, List.filterMap_nil]
    rw [hprinted]
    show State.Wrote t (w' ++ ByteArray.empty)
    rwa [ByteArray.append_empty]
  · have hprinted : [(Goal.exec (.print keyword e), s)].filterMap printedBy = [v] := by
      rw [List.filterMap_cons, printedBy_print keyword hvalue, List.filterMap_nil]
    rw [hprinted]
    show Tells _ ((Eval.print keyword v >>= fun _ => (pure Flow.normal : Eval Flow)) t) w'
    rw [Routine.bind_apply_of_ok (State.Wrote.print ht keyword v)]
    show _ = _
    dsimp only [Value.lines]
    rw [ByteArray.append_empty]

/-- Each goal adds what it prints itself to what the goals that it calls have written. -/
theorem tells_rules (q : Goal × State) {w : ByteArray} (hs : q.2.Wrote w) :
    Tells (fun w' (out : Reply Goal.Result Fault State q) =>
      out.2.Wrote (w' ++ Value.lines ([q].filterMap printedBy))) (rulesOf rules q) w := by
  obtain ⟨g, s⟩ := q
  by_cases hg : ∃ keyword e, g = .exec (.print keyword e)
  · obtain ⟨keyword, e, rfl⟩ := hg
    exact tells_print keyword e hs
  · have hnone : [(g, s)].filterMap printedBy = [] := by
      rw [List.filterMap_cons, printedBy_of_ne hg, List.filterMap_nil]
    simp only [hnone, Value.lines, ByteArray.append_empty]
    exact (assembledIf_rules g hg).tells hs

/-- The output grows by the lines of the values that are printed. -/
theorem Tells.post_of_answers {post : ByteArray → α → Prop}
    {p : Plan (Reply Goal.Result Fault State) α} {qs : List (Goal × State)} {a : α}
    (ha : Plan.Answers (rulesOf rules) p qs a) {w : ByteArray} (h : Tells post p w) :
    post (w ++ Value.lines (qs.filterMap printedBy)) a := by
  induction ha generalizing w with
  | done a =>
    rw [List.filterMap_nil, Value.lines, ByteArray.append_empty]
    exact h
  | @ask _ q k r qs qs' a hr _ ihr ih =>
    have hpost := ih (h.2 r hr.value _ (ihr (tells_rules q h.1)))
    rw [ByteArray.append_assoc, ByteArray.append_assoc, ← Value.lines_append,
      ← Value.lines_append, ← List.filterMap_append, ← List.filterMap_append] at hpost
    exact hpost
  | @pass _ q e r qs _ ihr =>
    have hwrote := ihr (tells_rules q h.1)
    rw [ByteArray.append_assoc, ← Value.lines_append, ← List.filterMap_append] at hwrote
    exact h.2 r _ hwrote

/-- **What a run writes are the lines of the values that it prints.** -/
theorem Prints.sink_eq (hx : AssembledIf False near x) (h : Prints x s vs out) {w : ByteArray}
    (hs : s.sink = ⟨w, none⟩) : out.2.sink = ⟨w ++ Value.lines vs, none⟩ := by
  obtain ⟨qs, hanswers, rfl⟩ := h
  exact (hx.tells hs).post_of_answers hanswers

/-! ## Printing alike -/

variable {L : Likeness} {like : α → β → Prop}

/-- Goals that are alike print values that are alike, or nothing, both of them. -/
theorem printedBy_like {q q' : Goal × State} (h : L.toMatch.asked q q') :
    Option.Rel L.ValueLike (printedBy q) (printedBy q') := by
  obtain ⟨g, s⟩ := q
  obtain ⟨g', s'⟩ := q'
  obtain ⟨hg, hst⟩ := h
  cases hg with
  | eval => exact .none
  | exec hstmt =>
    cases hstmt with
    | @print k k' e e' hk he =>
      have hrel := Likeness.rel_value_eval he hst
      show Option.Rel _
        (match value rules (eval e) s with | some (.ok v, _) => some v | _ => none)
        (match value rules (eval e') s' with | some (.ok v, _) => some v | _ => none)
      generalize value rules (eval e) s = out at hrel ⊢
      generalize value rules (eval e') s' = out' at hrel ⊢
      cases hrel with
      | none => exact .none
      | @some a b hout =>
        obtain ⟨r, t⟩ := a
        obtain ⟨r', t'⟩ := b
        obtain ⟨hr, -⟩ := hout
        cases hr with
        | ok hv => exact .some hv
        | error => exact .none
    | _ => exact .none

/-- **Of two runs that are alike, the second prints like values.** -/
theorem Prints.exists_like (hexact : ¬L.loose) (hxy : L.InStep like x y) (hst : L.StateLike s t)
    (h : Prints x s vs out) :
    ∃ vs' out', Prints y t vs' out' ∧ List.Forall₂ L.ValueLike vs vs' ∧
      L.OutcomeLike like out out' := by
  obtain ⟨qs, hanswers, rfl⟩ := h
  obtain ⟨qs', out', hanswers', hqs, hout⟩ :=
    (hxy s t hst).exists_answers (Likeness.rules_inStep_of_exact hexact) hanswers
  refine ⟨_, out', ⟨qs', hanswers', rfl⟩, ?_, hout⟩
  exact List.rel_filterMap (fun _ _ hq => printedBy_like hq) hqs

end Evaluation

end Treewalk
