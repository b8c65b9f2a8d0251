import Treewalk.Proofs.Plan.Answers

/-!
# What happens in a run, one after the other

A run that does not come to its end has no list of answered questions, but up to any moment there are the
questions that have been put, and those among them that have been answered (`History`). Nothing is left out:
every question that is put is in some history (`Puts.exists_history`), and a run that comes to its end has a
history up to there (`exists_history`).
-/

namespace Treewalk.Plan

variable {Q : Type} {A : Q → Type} {α β : Type}

/-- Something that happens in a run. -/
inductive Event {Q : Type} (A : Q → Type) where
  | put (q : Q)
  | answered (q : Q) (r : A q)

/-- This has happened, in this order, since a plan was begun. If a result is given, the plan has come to it;
otherwise it may still be under way. -/
inductive History (rules : (q : Q) → Plan A (A q)) : {α : Type} → Plan A α → List (Event A) →
    Option α → Prop where
  | done {α : Type} (a : α) : History rules (.done a) [] (some a)
  | begun {α : Type} (p : Plan A α) : History rules p [] none
  | insideAsk {α : Type} {q : Q} {k : A q → Plan A α} {es : List (Event A)}
      (h : History rules (rules q) es none) : History rules (.ask q k) (.put q :: es) none
  | insidePass {α : Type} {q : Q} (e : A q = α) {es : List (Event A)}
      (h : History rules (rules q) es none) : History rules (.pass q e) (.put q :: es) none
  | ask {α : Type} {q : Q} {k : A q → Plan A α} {r : A q} {es es' : List (Event A)} {out : Option α}
      (hr : History rules (rules q) es (some r)) (h : History rules (k r) es' out) :
      History rules (.ask q k) (.put q :: es ++ .answered q r :: es') out
  | pass {α : Type} {q : Q} (e : A q = α) {r : A q} {es : List (Event A)}
      (hr : History rules (rules q) es (some r)) :
      History rules (.pass q e) (.put q :: es ++ [.answered q r]) (some (cast e r))

variable {rules : (q : Q) → Plan A (A q)} {p : Plan A α} {es : List (Event A)} {out : Option α}
  {a : α} {q : Q} {r : A q}

/-- A history with a result is one of a run with this value. -/
theorem History.eval (h : History rules p es (some a)) : p.eval (value rules) = some a := by
  generalize hout : some a = out at h
  induction h with
  | done b =>
    cases hout
    rfl
  | begun | insideAsk | insidePass => cases hout
  | ask _ _ ihr ih =>
    rw [eval_ask, value_eq, ihr rfl, Option.bind_some]
    exact ih hout
  | pass e _ ihr =>
    cases e
    cases hout
    rw [eval_pass, value_eq]
    exact ihr rfl

/-- What happened up to a reply and after it: the question was put, something happened inside it, the
reply came, something happened later. -/
theorem mem_answered {e : Event A} {es' : List (Event A)} :
    e ∈ .put q :: es ++ .answered q r :: es' ↔ e = .put q ∨ e ∈ es ∨ e = .answered q r ∨ e ∈ es' := by
  simp

/-- What is put in a history is put in the run. -/
theorem History.puts (h : History rules p es out) (he : .put q ∈ es) : Puts rules p q := by
  induction h with
  | done | begun => cases he
  | insideAsk _ ih =>
    rcases List.mem_cons.1 he with he | he
    · cases he
      exact .ask _ _
    · exact .insideAsk _ (ih he)
  | insidePass e _ ih =>
    rcases List.mem_cons.1 he with he | he
    · cases he
      exact .pass _ e
    · exact .insidePass e (ih he)
  | ask hr _ ihr ih =>
    rcases mem_answered.1 he with he | he | he | he
    · cases he
      exact .ask _ _
    · exact .insideAsk _ (ihr he)
    · cases he
    · exact .later (by rw [value_eq, hr.eval]) (ih he)
  | pass e hr ihr =>
    rcases mem_answered.1 he with he | he | he | he
    · cases he
      exact .pass _ e
    · exact .insidePass e (ihr he)
    · cases he
    · cases he

/-! ## Nothing is left out -/

/-- A run that comes to its end has a history that goes up to the end. -/
theorem Answers.exists_history {qs : List Q} (h : Answers rules p qs a) :
    ∃ es, History rules p es (some a) := by
  induction h with
  | done a => exact ⟨[], .done a⟩
  | ask _ _ ihr ih =>
    obtain ⟨es₁, hr⟩ := ihr
    obtain ⟨es₂, h⟩ := ih
    exact ⟨_, .ask hr h⟩
  | pass e _ ihr =>
    obtain ⟨es₁, hr⟩ := ihr
    exact ⟨_, .pass e hr⟩

/-- A run that comes to its end has a history up to there. -/
theorem exists_history (h : p.eval (value rules) = some a) : ∃ es, History rules p es (some a) :=
  let ⟨_, hanswers⟩ := exists_answers h
  hanswers.exists_history

/-- **Every question that is put is in a history**, whether or not the run comes to its end. -/
theorem Puts.exists_history (h : Puts rules p q) : ∃ es, History rules p (es ++ [.put q]) none := by
  induction h with
  | ask q k => exact ⟨[], .insideAsk (.begun _)⟩
  | pass q e => exact ⟨[], .insidePass e (.begun _)⟩
  | insideAsk k _ ih =>
    obtain ⟨es, hes⟩ := ih
    exact ⟨_ :: es, .insideAsk hes⟩
  | insidePass e _ ih =>
    obtain ⟨es, hes⟩ := ih
    exact ⟨_ :: es, .insidePass e hes⟩
  | @later _ q₁ q k r hr _ ih =>
    obtain ⟨es, hes⟩ := ih
    rw [value_eq] at hr
    obtain ⟨es₁, hes₁⟩ := Plan.exists_history hr
    refine ⟨.put q₁ :: es₁ ++ .answered q₁ r :: es, ?_⟩
    rw [List.append_assoc]
    exact .ask hes₁ hes

end Treewalk.Plan
