import Treewalk.Proofs.Grammar.Derivation
import Treewalk.Proofs.Plan.Budget

/-!
# What a production does to the tokens

One judgement is made of every part of the parser, and one rule stands for every step that a part
can be made of. `Reads k c n x s P` says of a part `x` that starts in the state `s`:

* it ends, and `c` steps on top of a hundred for each token that is left suffice for it; of these
  steps, a hundred for each token that is left at the end are not used, nor are, if `k` is true and
  any token was taken, fifty more (`Goal.cost` and `Goal.saves` give `c` and `k` for each goal);
* it takes some tokens `us` from the front and notes some complaints `ds`, and changes nothing else
  (`Passed`);
* it takes at least `n` tokens, unless it is abandoned;
* unless one of the complaints is fatal, it is not abandoned, and `P` holds of the tokens, its
  result, the complaints and the state at the end.

For a goal, `Built` is the `P`: the tokens are a phrase of the grammar, the result is what the phrase
stands for, and the complaints are what is wrong with it. A goal that goes on with something read
before extends whatever phrase that was. `budget` collects all this in one budget, which
`Treewalk.Proofs.Grammar.Soundness` shows the productions to stay within.
-/

namespace Treewalk

/-- Whether the production that a complaint is about is abandoned. -/
def Complaint.fatal : Complaint → Bool
  | expected _ => true
  | literalWithoutValue => true
  | _ => false

namespace Grammar

/-! ## States -/

/-- No complaint is fatal. -/
def Harmless (ds : List Diagnostic) : Prop :=
  ∀ d ∈ ds, d.complaint.fatal = false

/-- Where nothing was complained about, nothing was fatal. -/
@[simp] theorem harmless_nil : Harmless [] := fun _ h => nomatch h

/-- Complaints in two parts are harmless if both parts are. -/
@[simp] theorem harmless_append {ds es : List Diagnostic} :
    Harmless (ds ++ es) ↔ Harmless ds ∧ Harmless es :=
  List.forall_mem_append

/-- From `s` to `s'`, the tokens `us` were taken and the complaints `ds` were noted. -/
structure Passed (s : State) (us : List Token) (ds : List Diagnostic) (s' : State) : Prop where
  rest : s.rest = us ++ s'.rest
  index : s'.index = s.index + us.length
  diagnostics : s'.diagnostics = s.diagnostics ++ ds
  finish : s'.finish = s.finish
  depth : s'.depth = s.depth

/-- Where nothing happens, nothing is taken or noted. -/
theorem Passed.refl (s : State) : Passed s [] [] s :=
  ⟨rfl, rfl, by simp, rfl, rfl⟩

/-- What is taken and noted first stands before what is taken and noted then. -/
theorem Passed.trans {s s' s'' : State} {us vs : List Token} {ds es : List Diagnostic}
    (h : Passed s us ds s') (h' : Passed s' vs es s'') : Passed s (us ++ vs) (ds ++ es) s'' where
  rest := by rw [h.rest, h'.rest, List.append_assoc]
  index := by rw [h'.index, h.index, List.length_append, Nat.add_assoc]
  diagnostics := by rw [h'.diagnostics, h.diagnostics]; exact Array.ext' (by simp)
  finish := h'.finish.trans h.finish
  depth := h'.depth.trans h.depth

/-- The tokens taken and those left are the tokens that were left before. -/
theorem Passed.length {s s' : State} {us : List Token} {ds : List Diagnostic}
    (h : Passed s us ds s') : s.rest.length = us.length + s'.rest.length := by
  rw [h.rest, List.length_append]

/-- Taking a token takes just this token. -/
theorem passed_advance {s : State} {t : Token} {rest : List Token} (h : s.rest = t :: rest) :
    Passed s [t] [] s.advance := by
  unfold State.advance
  rw [h]
  exact ⟨h, rfl, by simp, rfl, rfl⟩

/-- Noting a complaint takes nothing. -/
theorem passed_report (s : State) (t : Token) (complaint : Complaint) :
    Passed s [] [.atToken t complaint] (s.report t complaint) :=
  ⟨rfl, rfl, by simp [State.report], rfl, rfl⟩

namespace State

/-- The token that marks the end does, and none before it. -/
def Sealed (s : State) : Prop :=
  s.finish.kind = .eof ∧ ∀ t ∈ s.rest, t.kind ≠ .eof

/-- Whether the present place is in a function body. -/
def inBody (s : State) : Bool :=
  s.depth ≠ 0

end State

/-- Taking tokens does not lead into a function body or out of it. -/
theorem Passed.inBody {s s' : State} {us : List Token} {ds : List Diagnostic}
    (h : Passed s us ds s') : s'.inBody = s.inBody := by
  unfold State.inBody
  rw [h.depth]

/-- Beyond some tokens the end is still marked, and only the end. -/
theorem Passed.sealed {s s' : State} {us : List Token} {ds : List Diagnostic}
    (h : Passed s us ds s') (hs : s.Sealed) : s'.Sealed := by
  refine ⟨by rw [h.finish]; exact hs.1, fun t ht => hs.2 t ?_⟩
  rw [h.rest]
  exact List.mem_append_right us ht

/-- Before a token that is not the end, there is such a token. -/
theorem State.Sealed.exists_rest {s : State} (hs : s.Sealed) (h : s.peek.kind ≠ .eof) :
    ∃ rest, s.rest = s.peek :: rest := by
  unfold State.peek at h ⊢
  rcases hrest : s.rest with _ | ⟨t, rest⟩
  · rw [hrest] at h
    exact absurd hs.1 h
  · exact ⟨rest, rfl⟩

/-- At a token that marks the end, there is no token before it. -/
theorem State.Sealed.rest_eq_nil {s : State} (hs : s.Sealed) (h : s.peek.kind = .eof) :
    s.rest = [] := by
  rcases hrest : s.rest with _ | ⟨t, rest⟩
  · rfl
  · unfold State.peek at h
    rw [hrest] at h
    exact absurd h (hs.2 t (by rw [hrest]; exact List.mem_cons_self))

/-- The next token is not of one of some kinds. -/
def Clear (kinds : List Kind) (us : List Token) : Prop :=
  ∀ t ∈ us.head?, t.kind ∉ kinds

/-- At the end no token is next. -/
@[simp] theorem clear_nil (kinds : List Kind) : Clear kinds [] := by
  simp [Clear]

/-- Whether one of some tokens is next goes by the first token. -/
@[simp] theorem clear_cons {kinds : List Kind} {t : Token} {us : List Token} :
    Clear kinds (t :: us) ↔ t.kind ∉ kinds := by
  simp [Clear]

/-- Tokens of more kinds can be ruled out separately. -/
theorem clear_append {kinds kinds' : List Kind} {us : List Token} :
    Clear (kinds ++ kinds') us ↔ Clear kinds us ∧ Clear kinds' us := by
  rcases us with _ | ⟨t, us⟩ <;> simp

/-! ## Single steps -/

namespace Parse

variable {s : State} {kinds : List Kind} {kind : Kind} {what : Expected} {t : Token}
  {rest : List Token}

/-- An expected token that is next is taken. -/
theorem expect_taken (hrest : s.rest = t :: rest) (hkind : t.kind = kind) :
    expect kind what s = .done (.ok t, s.advance) := by
  simp only [expect, Routine.step, hrest, if_pos hkind]

/-- If another one is next, this is complained about there, and the part is abandoned. -/
theorem expect_refused (h : Clear [kind] s.rest) :
    expect kind what s = .done (.error ⟨⟩, s.report s.peek (.expected what)) := by
  unfold State.peek
  rcases hrest : s.rest with _ | ⟨t, rest⟩
  · simp only [expect, Routine.step, hrest, List.headD_nil]
  · have hkind : t.kind ≠ kind := by simpa [hrest] using h
    simp only [expect, Routine.step, hrest, if_neg hkind, List.headD_cons]

/-- An accepted token that is next is taken. -/
theorem accept_taken (hrest : s.rest = t :: rest) (hkind : t.kind ∈ kinds) :
    accept? kinds s = .done (.ok (some t), s.advance) := by
  simp only [accept?, Routine.step, hrest, if_pos hkind]

/-- If another one is next, nothing happens. -/
theorem accept_none (h : Clear kinds s.rest) : accept? kinds s = .done (.ok none, s) := by
  rcases hrest : s.rest with _ | ⟨t, rest⟩
  · simp only [accept?, Routine.step, hrest]
  · have hkind : t.kind ∉ kinds := by simpa [hrest] using h
    simp only [accept?, Routine.step, hrest, if_neg hkind]

end Parse

/-- The next token is of one of some kinds, or it is not. -/
theorem exists_or_clear (kinds : List Kind) (us : List Token) :
    (∃ t vs, us = t :: vs ∧ t.kind ∈ kinds) ∨ Clear kinds us := by
  rcases us with _ | ⟨t, vs⟩
  · exact .inr (clear_nil kinds)
  · by_cases h : t.kind ∈ kinds
    · exact .inl ⟨t, vs, rfl, h⟩
    · exact .inr (clear_cons.2 h)

/-! ## Goals -/

/-- The steps that a goal may need on top of those for the tokens that are left. -/
def Level.cost : Level → Nat
  | or => 26
  | and => 22
  | equality => 18
  | comparison => 14
  | addition => 10
  | multiplication => 6

/-- How many steps a goal needs besides those for the tokens that are left. -/
def Goal.cost : Goal → Nat
  | program _ => 36
  | block _ => 36
  | declaration => 32
  | statement => 30
  | expression => 28
  | operation level => level.cost
  | unary => 2
  | _ => 0

/-- Whether a goal that takes a token leaves half of the steps for it to what comes next. A loop does
not: it pays for its next round with them. -/
def Goal.saves : Goal → Bool
  | program _ => false
  | block _ => false
  | _ => true

/-- The least number of tokens that a goal takes, unless it is abandoned. -/
def Goal.least (s : State) : Goal → Nat
  | declaration => if s.rest = [] then 0 else 1
  | statement => 1
  | _ => 0

/-- What is read for a goal, put in the state `s`, if there is no fatal complaint: the tokens that
were taken, the result, the complaints, and the state at the end. -/
def Built (s : State) : (g : Goal) → List Token → g.Result → List Diagnostic → State → Prop
  | .program read => fun us r ds s' => s'.rest = [] ∧
      ∀ ts es, Derives (.declarations s.inBody) ts read.reverse es →
        Derives (.declarations s.inBody) (ts ++ us) r (es ++ ds)
  | .block read => fun us r ds _ =>
      ∀ ts es, Derives (.declarations s.inBody) ts read.reverse es →
        Derives (.declarations s.inBody) (ts ++ us) r (es ++ ds)
  | .declaration => fun us r ds _ => ∃ d, r = some d ∧ Derives (.declaration s.inBody) us d ds
  | .statement => fun us r ds s' => ∃ hanging, Derives (.statement s.inBody hanging) us r ds ∧
      (hanging = true → Clear [.kwElse] s'.rest)
  | .expression => fun us r ds _ => Derives .expression us r ds
  | .operation level => fun us r ds _ => Derives (.operation level) us r ds
  | .operatorTail level left => fun us r ds _ =>
      ∀ ts es, Derives (.operation level) ts left es →
        Derives (.operation level) (ts ++ us) r (es ++ ds)
  | .unary => fun us r ds _ => Derives .unary us r ds
  | .calls callee => fun us r ds _ =>
      ∀ ts es, Derives .call ts callee es → Derives .call (ts ++ us) r (es ++ ds)
  | .arguments read => fun us r ds _ =>
      ∀ ts es, Derives .arguments ts read.reverse es → Derives .arguments (ts ++ us) r (es ++ ds)
  | .parameters read => fun us r ds _ =>
      (read = [] → Derives .parameters us r ds) ∧
      ∀ ts es comma, Derives .parameters ts read.reverse es → comma.kind = .comma →
        Derives .parameters (ts ++ comma :: us) r (es ++ ds)

/-! ## The judgement -/

section Judgement

variable {α β : Type}

/-- A part of the parser ended with `r` after it took the tokens `us` and noted the complaints `ds`:
it took `n` tokens or was abandoned, and was not abandoned, with a result as `P` says, if no complaint
is fatal. -/
structure Ended (n : Nat) (P : List Token → α → List Diagnostic → State → Prop)
    (r : Except Abandoned α) (us : List Token) (ds : List Diagnostic) (s' : State) : Prop where
  least : ∀ v, r = .ok v → n ≤ us.length
  sound : Harmless ds → ∃ v, r = .ok v ∧ P us v ds s'

/-- The steps for the tokens that are left when the parser has come from `s` to `s'`, and, if `k` is
true, half of the steps for a token that was taken. -/
def worth (k : Bool) (s s' : State) : Nat :=
  100 * s'.rest.length + if k = true ∧ s'.rest.length < s.rest.length then 50 else 0

/-- A part that saves steps leaves no less than one that does not. -/
theorem worth_mono {k k' : Bool} (h : k ≤ k') (s s' : State) : worth k s s' ≤ worth k' s s' := by
  unfold worth
  split
  next hk => exact Nat.le_of_eq (by rw [if_pos ⟨h hk.1, hk.2⟩])
  next => omega

/-- What two parts leave together is no more than what the second leaves, and what the first has saved.
-/
theorem worth_le {s s' s'' : State} {us vs : List Token} {ds es : List Diagnostic}
    (h : Passed s us ds s') (h' : Passed s' vs es s'') (k : Bool) :
    worth k s s'' ≤ worth k s' s'' + (worth k s s' - 100 * s'.rest.length) := by
  have h₁ := h.length
  have h₂ := h'.length
  unfold worth
  cases k
  · simp only [Bool.false_eq_true, false_and, if_false]
    omega
  · simp only [true_and]
    split <;> split <;> split <;> omega

/-- Taking more tokens leaves no more. -/
theorem worth_antitone {s s' s'' : State} {us vs : List Token} {ds es : List Diagnostic}
    (h : Passed s us ds s') (h' : Passed s' vs es s'') (k : Bool) : worth k s s'' ≤ worth k s s' := by
  have h₁ := h.length
  have h₂ := h'.length
  unfold worth
  cases k
  · simp only [Bool.false_eq_true, false_and, if_false]
    omega
  · simp only [true_and]
    split <;> split <;> omega

/-- The budget of the parser. -/
def budget : Routine.Budget Goal.Result Abandoned State where
  pre q := q.2.Sealed
  post q out := ∃ us ds, Passed q.2 us ds out.2 ∧
    Ended (q.1.least q.2) (Built q.2 q.1) out.1 us ds out.2
  grant q := 100 * q.2.rest.length + q.1.cost
  refund q out := worth q.1.saves q.2 out.2

/-- The judgement that is explained at the head of this file. -/
def Reads (k : Bool) (c n : Nat) (x : Parse α) (s : State)
    (P : List Token → α → List Diagnostic → State → Prop) : Prop :=
  s.Sealed → x.Affords budget s (100 * s.rest.length + c) fun out left =>
    worth k s out.2 ≤ left ∧ ∃ us ds, Passed s us ds out.2 ∧ Ended n P out.1 us ds out.2

variable {k : Bool} {c n : Nat} {s : State} {P : List Token → α → List Diagnostic → State → Prop}
  {Q : List Token → β → List Diagnostic → State → Prop}

/-- Less may be said of what was read. -/
theorem Ended.mono {P' : List Token → α → List Diagnostic → State → Prop}
    {r : Except Abandoned α} {us : List Token} {ds : List Diagnostic} {s' : State}
    (h : Ended n P r us ds s') (himp : ∀ us v ds s', P us v ds s' → P' us v ds s') :
    Ended n P' r us ds s' := by
  refine ⟨h.least, fun hds => ?_⟩
  obtain ⟨v, rfl, hP⟩ := h.sound hds
  exact ⟨v, rfl, himp _ _ _ _ hP⟩

/-- The judgement is about states in which the end is marked, so this can be assumed. -/
theorem Reads.of_sealed {x : Parse α} (h : s.Sealed → Reads k c n x s P) : Reads k c n x s P :=
  fun hs => h hs hs

/-- More steps may be allowed, and less said of what was read. -/
theorem Reads.mono {k' : Bool} {c' : Nat} {x : Parse α}
    {P' : List Token → α → List Diagnostic → State → Prop} (h : Reads k' c n x s P)
    (hle : c ≤ c' ∧ k ≤ k') (himp : ∀ us v ds s', P us v ds s' → P' us v ds s') :
    Reads k c' n x s P' := by
  intro hs
  obtain ⟨more, rfl⟩ := Nat.exists_eq_add_of_le hle.1
  rw [← Nat.add_assoc]
  refine ((h hs).add more).mono ?_
  rintro ⟨r, s'⟩ _ ⟨left, rfl, hleft, us, ds, hpassed, hended⟩
  have hworth := Nat.le_trans (worth_mono hle.2 s s') hleft
  exact ⟨Nat.le_add_right_of_le hworth, us, ds, hpassed, hended.mono himp⟩

/-- How two parts end together. What is known of the first one may be used only to show what is known
of both: a complaint of the first one may have been fatal. -/
theorem Ended.bind {m : Nat} {s' s'' : State} {v : α} {r : Except Abandoned β} {us vs : List Token}
    {ds es : List Diagnostic} (h : Ended m P (.ok v) us ds s')
    (h' : Ended (n - m) (fun vs w es s'' => P us v ds s' → Q (us ++ vs) w (ds ++ es) s'') r vs es s'') :
    Ended n Q r (us ++ vs) (ds ++ es) s'' := by
  constructor
  · intro w hw
    have h₁ := h.least v rfl
    have h₂ := h'.least w hw
    rw [List.length_append]
    omega
  · intro hds
    rw [harmless_append] at hds
    obtain ⟨_, ⟨⟩, hP⟩ := h.sound hds.1
    obtain ⟨w, rfl, hQ⟩ := h'.sound hds.2
    exact ⟨w, rfl, hQ hP⟩

/-- A part that is abandoned has made a fatal complaint. -/
theorem Ended.of_error {m : Nat} {s' : State} {e : Abandoned} {us : List Token}
    {ds : List Diagnostic} (h : Ended m P (.error e) us ds s') :
    Ended n Q (.error e) us ds s' := by
  refine ⟨nofun, fun hds => ?_⟩
  obtain ⟨_, ⟨⟩, -⟩ := h.sound hds

/-- What follows goes on in the state that was reached, at the cost that is left. -/
theorem Reads.bind {k' : Bool} {a m : Nat} {x : Parse α} {f : α → Parse β} (hx : Reads k' a m x s P)
    (hle : a ≤ c ∧ k ≤ k')
    (hf : ∀ v us ds s', Passed s us ds s' → m ≤ us.length → Reads k (c - a) (n - m) (f v) s'
      fun vs w es s'' => P us v ds s' → Q (us ++ vs) w (ds ++ es) s'') :
    Reads k c n (x >>= f) s Q := by
  intro hs
  obtain ⟨b, rfl⟩ := Nat.exists_eq_add_of_le hle.1
  rw [Nat.add_sub_cancel_left] at hf
  rw [Routine.affords_bind, ← Nat.add_assoc]
  refine ((hx hs).add b).mono ?_
  rintro ⟨e | v, s'⟩ _ ⟨left, rfl, hleft, us, ds, hpassed, hended⟩
  · have hworth := Nat.le_trans (worth_mono hle.2 s s') hleft
    exact ⟨Nat.le_add_right_of_le hworth, us, ds, hpassed, hended.of_error⟩
  · obtain ⟨spare, rfl⟩ := Nat.exists_eq_add_of_le (Nat.le_trans (worth_mono hle.2 s s') hleft)
    rw [show worth k s s' + spare + b
      = 100 * s'.rest.length + b + (worth k s s' - 100 * s'.rest.length + spare) by
        unfold worth; omega]
    refine ((hf v us ds s' hpassed (hended.least v rfl) (hpassed.sealed hs)).add _).mono ?_
    rintro ⟨r, s''⟩ _ ⟨left', rfl, hleft', vs, es, hpassed', hended'⟩
    refine ⟨?_, us ++ vs, ds ++ es, hpassed.trans hpassed', hended.bind hended'⟩
    calc worth k s s'' ≤ worth k s' s'' + (worth k s s' - 100 * s'.rest.length) :=
          worth_le hpassed hpassed' k
      _ ≤ left' + (worth k s s' - 100 * s'.rest.length + spare) := by
          dsimp only at hleft'
          omega

/-- What follows may use what is left for the tokens that were taken, if it leaves nothing of it. -/
theorem Reads.bind_spending {a : Nat} {x : Parse α} {f : α → Parse β} (hx : Reads true a 1 x s P)
    (hle : a ≤ c)
    (hf : ∀ v us ds s', Passed s us ds s' → Reads false (c - a + 50) (n - 1) (f v) s'
      fun vs w es s'' => P us v ds s' → Q (us ++ vs) w (ds ++ es) s'') :
    Reads false c n (x >>= f) s Q := by
  intro hs
  obtain ⟨b, rfl⟩ := Nat.exists_eq_add_of_le hle
  rw [Nat.add_sub_cancel_left] at hf
  rw [Routine.affords_bind, ← Nat.add_assoc]
  refine ((hx hs).add b).mono ?_
  rintro ⟨e | v, s'⟩ _ ⟨left, rfl, hleft, us, ds, hpassed, hended⟩
  · have hworth := Nat.le_trans (worth_mono (k := false) nofun s s') hleft
    exact ⟨Nat.le_add_right_of_le hworth, us, ds, hpassed, hended.of_error⟩
  · have hlength := hpassed.length
    have htaken := hended.least v rfl
    obtain ⟨spare, rfl⟩ := Nat.exists_eq_add_of_le hleft
    dsimp only at hlength
    rw [show worth true s s' + spare + b = 100 * s'.rest.length + (b + 50) + spare by
      unfold worth; rw [if_pos ⟨rfl, by omega⟩]; omega]
    refine ((hf v us ds s' hpassed (hpassed.sealed hs)).add _).mono ?_
    rintro ⟨r, s''⟩ _ ⟨left', rfl, hleft', vs, es, hpassed', hended'⟩
    refine ⟨?_, us ++ vs, ds ++ es, hpassed.trans hpassed', hended.bind hended'⟩
    simp [worth] at hleft' ⊢
    omega

/-! ## The rules for single steps -/

/-- What is pure takes no token. -/
theorem reads_pure {v : α} (h : P [] v [] s) : Reads k c 0 (pure v) s P := by
  intro _
  rw [Routine.affords_pure]
  refine ⟨by simp [worth], [], [], Passed.refl s, fun _ _ => Nat.zero_le _, fun _ => ⟨v, rfl, h⟩⟩

/-- Taking a token pays fifty steps for what follows, and leaves the other fifty. -/
theorem reads_taken {f : α → Parse β} {v : α} {t : Token} {x : Parse α}
    (hx : x s = .done (.ok v, s.advance)) {rest : List Token} (hrest : s.rest = t :: rest)
    (h : ∀ s', Passed s [t] [] s' →
      Reads false (c + 50) (n - 1) (f v) s' fun vs w es s'' => Q (t :: vs) w es s'') :
    Reads k c n (x >>= f) s Q := by
  intro hs
  have hpassed := passed_advance hrest
  have hlength := hpassed.length
  rw [List.length_singleton] at hlength
  unfold Routine.Affords
  rw [Routine.bind_apply_of_ok hx f]
  have hf := (h _ hpassed (hpassed.sealed hs)).add 50
  rw [show 100 * s.rest.length + c = 100 * s.advance.rest.length + (c + 50) + 50 by omega]
  refine hf.mono ?_
  rintro ⟨r, s''⟩ _ ⟨left, rfl, hleft, us, ds, hpassed', hended⟩
  refine ⟨?_, t :: us, ds, hpassed.trans hpassed', ?_, ?_⟩
  · have hmore := hpassed'.length
    dsimp only at hmore hleft ⊢
    simp only [worth, Bool.false_eq_true, false_and, if_false] at hleft ⊢
    split <;> omega
  · intro w hw
    have := hended.least w hw
    rw [List.length_cons]
    omega
  · exact hended.sound

/-- Nothing follows once a part is abandoned. -/
theorem reads_refused {x : Parse α} {t : Token} {complaint : Complaint}
    (hx : x s = .done (.error ⟨⟩, s.report t complaint)) (hfatal : complaint.fatal = true) :
    Reads k c n x s P := by
  intro _
  unfold Routine.Affords
  rw [hx]
  refine ⟨by simp [worth, State.report], [], _, passed_report s t complaint, nofun, fun hds => ?_⟩
  have := hds _ (List.mem_singleton_self _)
  rw [show (Diagnostic.atToken t complaint).complaint = complaint from rfl, hfatal] at this
  cases this

/-- A part that is abandoned with a fatal complaint need not read anything. -/
theorem reads_refuse {t : Token} {complaint : Complaint} (hfatal : complaint.fatal = true) :
    Reads k c n (Parse.refuse t complaint) s P :=
  reads_refused rfl hfatal

/-- A part that looks at the next token reads what it goes on with. -/
theorem reads_peek {f : Token → Parse β} (h : Reads k c n (f s.peek) s Q) :
    Reads k c n (Parse.peek >>= f) s Q := h

/-- So does a part that looks at its kind. -/
theorem reads_peekKind {f : Kind → Parse β} (h : Reads k c n (f s.peek.kind) s Q) :
    Reads k c n (Parse.peekKind >>= f) s Q := h

/-- So does a part that looks at the count of tokens taken. -/
theorem reads_index {f : Nat → Parse β} (h : Reads k c n (f s.index) s Q) :
    Reads k c n (Parse.index >>= f) s Q := h

/-- A token that is taken pays for fifty steps of what follows it. -/
theorem reads_advance {f : Unit → Parse β} (hkind : s.peek.kind ≠ .eof)
    (h : ∀ s', Passed s [s.peek] [] s' →
      Reads false (c + 50) (n - 1) (f ()) s' fun vs w es s'' => Q (s.peek :: vs) w es s'') :
    Reads k c n (Parse.advance >>= f) s Q := by
  intro hs
  obtain ⟨rest, hrest⟩ := hs.exists_rest hkind
  exact reads_taken rfl hrest h hs

/-- So does a token that is expected; where it is missing, the part is abandoned. -/
theorem reads_expect {kind : Kind} {what : Expected} {f : Token → Parse β}
    (h : ∀ t s', t.kind = kind → Passed s [t] [] s' →
      Reads false (c + 50) (n - 1) (f t) s' fun vs w es s'' => Q (t :: vs) w es s'') :
    Reads k c n (Parse.expect kind what >>= f) s Q := by
  rcases exists_or_clear [kind] s.rest with ⟨t, rest, hrest, hkind⟩ | hclear
  · rw [List.mem_singleton] at hkind
    exact reads_taken (Parse.expect_taken hrest hkind) hrest fun s' => h t s' hkind
  · exact reads_refused (Routine.bind_apply_of_error (Parse.expect_refused hclear) f) rfl

/-- Accepting a token leads to one of two ways to go on. If one was taken, it pays for fifty steps. -/
theorem reads_accept {kinds : List Kind} {f : Option Token → Parse β}
    (hsome : ∀ t s', t.kind ∈ kinds → Passed s [t] [] s' →
      Reads false (c + 50) (n - 1) (f (some t)) s' fun vs w es s'' => Q (t :: vs) w es s'')
    (hnone : Clear kinds s.rest → Reads k c n (f none) s Q) :
    Reads k c n (Parse.accept? kinds >>= f) s Q := by
  rcases exists_or_clear kinds s.rest with ⟨t, rest, hrest, hkind⟩ | hclear
  · exact reads_taken (Parse.accept_taken hrest hkind) hrest fun s' => hsome t s' hkind
  · intro hs
    unfold Routine.Affords
    rw [Routine.bind_apply_of_ok (Parse.accept_none hclear) f]
    exact hnone hclear hs

/-- A part that only notes complaints costs nothing. -/
theorem reads_noted {f : Unit → Parse β} {x : Parse Unit} {s' : State} {ds : List Diagnostic}
    (hx : x s = .done (.ok (), s')) (hpassed : Passed s [] ds s')
    (h : Reads k c n (f ()) s' fun vs w es s'' => Q vs w (ds ++ es) s'') :
    Reads k c n (x >>= f) s Q := by
  intro hs
  have hrest : s.rest = s'.rest := hpassed.rest
  unfold Routine.Affords
  rw [Routine.bind_apply_of_ok hx f, hrest]
  refine Plan.Affords.mono (h (hpassed.sealed hs)) ?_
  rintro ⟨r, s''⟩ left ⟨hleft, us, es, hpassed', hended⟩
  refine ⟨?_, us, ds ++ es, hpassed.trans hpassed', hended.least, fun hds => ?_⟩
  · unfold worth at hleft ⊢
    rw [hrest]
    exact hleft
  · exact hended.sound (harmless_append.1 hds).2

/-- A complaint that is reported is the first of those noted. -/
theorem reads_report {f : Unit → Parse β} {t : Token} {complaint : Complaint}
    (h : ∀ s', Passed s [] [.atToken t complaint] s' →
      Reads k c n (f ()) s' fun vs w es s'' => Q vs w (.atToken t complaint :: es) s'') :
    Reads k c n (Parse.report t complaint >>= f) s Q :=
  have hpassed := passed_report s t complaint
  reads_noted rfl hpassed (h _ hpassed)

/-- An entry beyond the limit is complained about before it is read. -/
theorem reads_reportBeyond {f : Unit → Parse β} {before : Nat} {complaint : Complaint}
    (h : ∀ s', Passed s [] (overLimit before s.peek complaint) s' →
      Reads k c n (f ()) s' fun vs w es s'' => Q vs w (overLimit before s.peek complaint ++ es) s'') :
    Reads k c n (Parse.reportBeyond before complaint >>= f) s Q := by
  have hpassed : Passed s [] (overLimit before s.peek complaint)
      (if maxArguments ≤ before then s.report s.peek complaint else s) := by
    unfold overLimit
    split
    · exact passed_report s s.peek complaint
    · exact Passed.refl s
  exact reads_noted rfl hpassed (h _ hpassed)

/-- A `return` is complained about outside function bodies only. -/
theorem reads_reportOutside {f : Unit → Parse β} {t : Token}
    (h : ∀ s', Passed s [] (strayReturn t s.inBody) s' →
      Reads k c n (f ()) s' fun vs w es s'' => Q vs w (strayReturn t s.inBody ++ es) s'') :
    Reads k c n (Parse.reportOutside t .returnOutsideFunction >>= f) s Q := by
  have hpassed : Passed s [] (strayReturn t s.inBody)
      (if s.depth ≠ 0 then s else s.report t .returnOutsideFunction) := by
    unfold strayReturn State.inBody
    by_cases hdepth : s.depth ≠ 0
    · simpa [hdepth] using Passed.refl s
    · simpa [hdepth] using passed_report s t .returnOutsideFunction
  exact reads_noted rfl hpassed (h _ hpassed)

/-! ## The rules for goals -/

/-- A goal that is called costs two steps more than its production. -/
theorem reads_call (g : Goal) :
    Reads g.saves (g.cost + 2) (g.least s) (Routine.call g) s (Built s g) := by
  intro hs
  rw [Routine.affords_call]
  refine ⟨hs, by simp [budget]; omega, ?_⟩
  rintro ⟨r, s'⟩ hpost
  exact ⟨by simp [budget], hpost⟩

/-- So does a goal that is become. -/
theorem reads_become (g : Goal) {P : List Token → g.Result → List Diagnostic → State → Prop}
    (hle : g.cost + 2 ≤ c ∧ k ≤ g.saves)
    (himp : ∀ us v ds s', Built s g us v ds s' → P us v ds s') :
    Reads k c (g.least s) (Routine.become g) s P :=
  (reads_call g).mono hle himp

end Judgement

end Grammar

end Treewalk
