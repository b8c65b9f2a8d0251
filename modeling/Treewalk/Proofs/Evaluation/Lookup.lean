import Treewalk.Proofs.Evaluation.Declarations

/-!
# The laws of looking a variable up

A frame is on the chains of all frames inside it, so one variable can be read from many frames, and a change
of it has to be seen from just these. Which they are is told here without the walk that looks for a name:
a binding in `f` is seen from `g` if `f` is on the chain of `g` and no frame nearer to `g` binds the name
(`Store.Unshadowed`). Reading finds such a frame that binds the name (`Store.Ordered.nearest_iff_definer?`).
What is read after a definition is told by a walk down the chain that stops at `f`
(`Store.Ordered.lookup_define_of_unshadowed`, `Store.Ordered.lookup_define_of_not`). An assignment is a
definition in the frame that reading finds. All of it is put together in `Store.lookup_laws`, for any forest of
frames that can be built (`Store.Built`).
-/

namespace Treewalk

namespace Store

variable {s : Store} {f g d p : FrameId} {name key : String} {v w : Value}

/-! ## Which frame is found -/

/-- The value that a frame itself has for a name. -/
def bound? (s : Store) (f : FrameId) (name : String) : Option Value :=
  s.frames[f]?.bind (·.find? name)

/-- `f` is on the chain of `g`, and no frame that is nearer to `g` binds the name. -/
def Unshadowed (s : Store) (name : String) (g f : FrameId) : Prop :=
  ∃ nearer farther, s.Chain g (nearer ++ f :: farther) ∧ ∀ x ∈ nearer, ¬s.binds x name

/-- Of the frames on the chain of `g` that bind the name, `f` is the nearest. -/
def Nearest (s : Store) (name : String) (g f : FrameId) : Prop :=
  s.Unshadowed name g f ∧ s.binds f name

/-- In `t`, a name has the value `v` where it is seen, and everything else that is read is as it was in `s`. -/
def Changes (s t : Store) (name : String) (v : Value) (seen : FrameId → Prop) : Prop :=
  ∀ (g : FrameId) (m : Token),
    (m.lexeme = name ∧ seen g → t.get g m = .ok v) ∧
    (¬(m.lexeme = name ∧ seen g) → t.get g m = s.get g m)

/-- Forests of frames that are built step by step: by creating a root, or a frame inside one that exists,
and by defining and assigning variables in frames that exist. -/
inductive Built : Store → Prop where
  | empty (identities : Nat) : Built ⟨#[], identities⟩
  | root {s : Store} (h : Built s) : Built (s.newFrame none).2
  | child {s : Store} {parent : FrameId} (h : Built s) (hparent : parent < s.frames.size) :
      Built (s.newFrame (some parent)).2
  | define {s : Store} {f : FrameId} (h : Built s) (hf : f < s.frames.size) (name : String)
      (v : Value) : Built (s.define f name v)
  | assign {s : Store} {f : FrameId} (h : Built s) (hf : f < s.frames.size) (name : Token)
      (v : Value) : Built (s.assign f name v).2

/-- In a forest that can be built links go to older frames. -/
theorem Built.ordered (h : s.Built) : s.Ordered := by
  induction h with
  | empty => intro f p hp; cases hp
  | root _ ih => exact ih.newFrame fun p hp => by cases hp
  | child _ hparent ih => exact ih.newFrame fun p hp => by cases hp; exact hparent
  | define _ _ name v ih => exact ih.define _ name v
  | @assign s f _ _ name v ih =>
    unfold Store.assign
    cases s.definer? f name.lexeme with
    | none => exact ih
    | some g => exact ih.define g name.lexeme v

/-- A frame binds a name if the name has a value there. -/
theorem binds_eq_isSome (s : Store) (f : FrameId) (name : String) :
    s.binds f name = (s.bound? f name).isSome := by
  unfold binds bound?
  cases s.frames[f]? <;> rfl

/-- A frame that does not exist has no link. -/
theorem parent?_of_le (hf : s.frames.size ≤ f) : s.parent? f = none := by
  rw [parent?, Array.getElem?_eq_none hf]
  rfl

/-- A frame that does not exist binds nothing. -/
theorem bound?_of_le (hf : s.frames.size ≤ f) : s.bound? f name = none := by
  rw [bound?, Array.getElem?_eq_none hf]
  rfl

/-- The walk to the definer, as a law of the frames that are passed. -/
theorem Ordered.lookup_eq (h : s.Ordered) (g : FrameId) (name : String) :
    s.lookup g name = (s.bound? g name).or ((s.parent? g).bind (s.lookup · name)) := by
  show (s.definer? g name).bind (s.bound? · name) = _
  by_cases hg : g < s.frames.size
  · rw [h.definer?_eq hg, binds_eq_isSome]
    cases hbound : s.bound? g name with
    | some w => exact hbound
    | none => cases s.parent? g <;> rfl
  · have hle := Nat.le_of_not_lt hg
    rw [bound?_of_le hle, parent?_of_le hle, definer?, Array.getElem?_eq_none hle]
    rfl

/-- A chain begins with its frame, and goes on with the chain of the frame around it, if there is one. -/
theorem Chain.cons_cases {rest : List FrameId} (h : s.Chain g (d :: rest)) :
    d = g ∧ (rest = [] ∨ ∃ p, s.parent? g = some p ∧ s.Chain p rest) := by
  cases h with
  | root => exact ⟨rfl, .inl rfl⟩
  | outward hp h => exact ⟨rfl, .inr ⟨_, hp, h⟩⟩

/-- From a frame itself its bindings are always seen. -/
theorem Ordered.unshadowed_self (h : s.Ordered) (hf : f < s.frames.size) (name : String) :
    s.Unshadowed name f f := by
  obtain ⟨chain, hchain⟩ := h.exists_chain hf
  cases chain with
  | nil => cases hchain
  | cons d farther =>
    obtain ⟨rfl, -⟩ := hchain.cons_cases
    exact ⟨[], farther, hchain, fun x hx => absurd hx List.not_mem_nil⟩

/-- From another frame than `f`, the binding of `f` is seen through the enclosing frame. -/
theorem unshadowed_iff_outward (hgf : g ≠ f) :
    s.Unshadowed name g f ↔
      ¬s.binds g name ∧ ∃ p, s.parent? g = some p ∧ s.Unshadowed name p f := by
  constructor
  · rintro ⟨nearer, farther, hchain, hnearer⟩
    cases nearer with
    | nil => exact absurd hchain.cons_cases.1.symm hgf
    | cons x nearer =>
      obtain ⟨rfl, hnil | ⟨p, hp, hchain⟩⟩ := hchain.cons_cases
      · exact absurd hnil (by simp)
      · exact ⟨hnearer x List.mem_cons_self, p, hp, nearer, farther, hchain,
          fun y hy => hnearer y (List.mem_cons_of_mem _ hy)⟩
  · rintro ⟨hg, p, hp, nearer, farther, hchain, hnearer⟩
    refine ⟨g :: nearer, farther, .outward hp hchain, fun x hx => ?_⟩
    rcases List.mem_cons.1 hx with rfl | hx
    · exact hg
    · exact hnearer x hx

/-- **Reading finds the nearest frame** on the chain that binds the name. -/
theorem Ordered.nearest_iff_definer? (h : s.Ordered) :
    s.Nearest name g d ↔ s.definer? g name = some d := by
  constructor
  · rintro ⟨⟨nearer, farther, hchain, hnearer⟩, hd⟩
    rw [hchain.find?_eq h, List.find?_eq_some_iff_append]
    exact ⟨hd, nearer, farther, rfl, fun x hx => by simpa using hnearer x hx⟩
  · intro hdefiner
    have hg : g < s.frames.size := by
      refine Nat.lt_of_not_le fun hle => ?_
      rw [definer?, Array.getElem?_eq_none hle] at hdefiner
      cases hdefiner
    obtain ⟨chain, hchain⟩ := h.exists_chain hg
    rw [hchain.find?_eq h, List.find?_eq_some_iff_append] at hdefiner
    obtain ⟨hd, nearer, farther, rfl, hnearer⟩ := hdefiner
    exact ⟨⟨nearer, farther, hchain, fun x hx => by simpa using hnearer x hx⟩, hd⟩

/-! ## What is read after a definition -/

/-- After a definition a name is bound to the new value where it was defined, and elsewhere as before. -/
theorem bound?_define :
    (s.define f key v).bound? g name =
      if g = f ∧ name = key ∧ f < s.frames.size then some v else s.bound? g name := by
  unfold bound? Store.define
  rw [Array.getElem?_modify]
  by_cases hgf : f = g
  · subst hgf
    by_cases hf : f < s.frames.size
    · rw [Array.getElem?_eq_getElem hf]
      by_cases hname : name = key
      · simp [hname, hf, Frame.find?_set]
      · simp [hname, Frame.find?_set, beq_false_of_ne hname]
    · simp [hf]
  · simp [hgf, Ne.symm hgf]

/-- Where the binding of `f` is seen, the value is the new one. -/
theorem Ordered.lookup_define_of_unshadowed (h : s.Ordered) (hseen : s.Unshadowed name g f) :
    (s.define f name v).lookup g name = some v := by
  have hf : f < s.frames.size := by
    obtain ⟨nearer, farther, hchain, -⟩ := hseen
    exact hchain.lt_size (by simp)
  induction g using Nat.strongRecOn with
  | _ g ih =>
    rw [(h.define f name v).lookup_eq, bound?_define, parent?_define]
    by_cases hgf : g = f
    · rw [if_pos ⟨hgf, rfl, hf⟩]
      rfl
    · obtain ⟨hg, p, hp, hseen⟩ := (unshadowed_iff_outward hgf).1 hseen
      rw [binds_eq_isSome, Option.not_isSome_iff_eq_none] at hg
      rw [if_neg fun hand => hgf hand.1, hg, hp]
      exact ih p (h g p hp) hseen

/-- Everywhere else the walk passes the same bindings as before, and stops at the same place. -/
theorem Ordered.lookup_define_of_not (h : s.Ordered)
    (hnot : ¬(name = key ∧ s.Unshadowed key g f)) :
    (s.define f key v).lookup g name = s.lookup g name := by
  induction g using Nat.strongRecOn with
  | _ g ih =>
    have hbound : (s.define f key v).bound? g name = s.bound? g name := by
      rw [bound?_define, if_neg]
      rintro ⟨rfl, rfl, hf⟩
      exact hnot ⟨rfl, h.unshadowed_self hf name⟩
    rw [(h.define f key v).lookup_eq, h.lookup_eq, hbound, parent?_define]
    cases hg : s.bound? g name with
    | some w => rfl
    | none =>
      cases hp : s.parent? g with
      | none => rfl
      | some p =>
        refine ih p (h g p hp) ?_
        rintro ⟨rfl, hseen⟩
        by_cases hgf : g = f
        · exact hnot ⟨rfl, hgf ▸ h.unshadowed_self (lt_of_parent? hp) name⟩
        · have hfree : ¬s.binds g name := by
            rw [binds_eq_isSome, hg]
            simp
          exact hnot ⟨rfl, (unshadowed_iff_outward hgf).2 ⟨hfree, p, hp, hseen⟩⟩

/-- Reading succeeds with the value that the name is looked up to. -/
theorem get_eq_ok_iff {n : Token} : s.get f n = .ok w ↔ s.lookup f n.lexeme = some w := by
  unfold get
  cases s.lookup f n.lexeme <;> simp

/-- **A definition is seen from exactly the frames from which its frame is unshadowed.** -/
theorem Ordered.changes_define (h : s.Ordered) (f : FrameId) (name : String) (v : Value) :
    s.Changes (s.define f name v) name v (s.Unshadowed name · f) := by
  intro g m
  constructor
  · rintro ⟨rfl, hseen⟩
    exact get_eq_ok_iff.2 (h.lookup_define_of_unshadowed hseen)
  · intro hnot
    unfold get
    rw [h.lookup_define_of_not hnot]

/-! ## What is read after an assignment -/

/-- Reading finds the value in the nearest frame that binds the name. -/
theorem Ordered.exists_get_of_nearest (h : s.Ordered) {n : Token} (hd : s.Nearest n.lexeme f d) :
    ∃ w, s.bound? d n.lexeme = some w ∧ s.get f n = .ok w := by
  have hbinds := hd.2
  rw [binds_eq_isSome, Option.isSome_iff_exists] at hbinds
  obtain ⟨w, hw⟩ := hbinds
  refine ⟨w, hw, get_eq_ok_iff.2 ?_⟩
  show (s.definer? f n.lexeme).bind (s.bound? · n.lexeme) = some w
  rw [h.nearest_iff_definer?.1 hd]
  exact hw

/-- Where no frame on the chain binds the name, reading fails at the token. -/
theorem Ordered.get_of_not_nearest (h : s.Ordered) {n : Token}
    (hnone : ¬∃ d, s.Nearest n.lexeme f d) : s.get f n = .error (.undefinedVariable n) := by
  have hdefiner : s.definer? f n.lexeme = none := by
    refine Option.eq_none_iff_forall_ne_some.2 fun d hd => hnone ⟨d, ?_⟩
    exact h.nearest_iff_definer?.2 hd
  unfold get lookup
  rw [hdefiner]
  rfl

/-- An assignment is a definition in the nearest frame that binds the name. -/
theorem Ordered.assign_of_nearest (h : s.Ordered) {n : Token} (hd : s.Nearest n.lexeme f d)
    (v : Value) : s.assign f n v = (.ok (), s.define d n.lexeme v) := by
  unfold Store.assign
  rw [h.nearest_iff_definer?.1 hd]

/-- Where no frame on the chain binds the name, an assignment fails at the token and changes nothing. -/
theorem Ordered.assign_of_not_nearest (h : s.Ordered) {n : Token}
    (hnone : ¬∃ d, s.Nearest n.lexeme f d) (v : Value) :
    s.assign f n v = (.error (.undefinedVariable n), s) := by
  unfold Store.assign
  cases hdefiner : s.definer? f n.lexeme with
  | none => rfl
  | some d => exact absurd ⟨d, h.nearest_iff_definer?.2 hdefiner⟩ hnone

/-- **An assignment is seen from exactly the frames from which the same binding is read.** -/
theorem Ordered.changes_assign (h : s.Ordered) {n : Token} (hd : s.Nearest n.lexeme f d) :
    s.Changes (s.define d n.lexeme v) n.lexeme v
      (fun g => ∃ d, s.Nearest n.lexeme g d ∧ s.Nearest n.lexeme f d) := by
  have hseen : ∀ g, (∃ d, s.Nearest n.lexeme g d ∧ s.Nearest n.lexeme f d) ↔
      s.Unshadowed n.lexeme g d := by
    intro g
    constructor
    · rintro ⟨e, hg, he⟩
      have hsame := (h.nearest_iff_definer?.1 he).symm.trans (h.nearest_iff_definer?.1 hd)
      obtain rfl : e = d := Option.some.inj hsame
      exact hg.1
    · intro hg
      exact ⟨d, ⟨hg, hd.2⟩, hd⟩
  simp only [hseen]
  exact h.changes_define d n.lexeme v

/-- A definition of a name that the frame binds already changes nothing in what is bound. -/
theorem binds_define_of_binds (hd : s.binds d name) (g : FrameId) (m : String) :
    (s.define d name v).binds g m = s.binds g m := by
  rw [Bool.eq_iff_iff, binds_define]
  constructor
  · rintro (h | ⟨rfl, rfl, -⟩)
    · exact h
    · exact hd
  · exact .inl

/-- **The laws of reading, assigning and defining** in a forest of frames, however it was built. From a frame
`f`, reading finds the binding of the nearest frame that has one, and fails if there is none. Assigning
succeeds when reading does. It changes what is read of the name from the frames with the same nearest
binding, and nothing else, and it binds no name anywhere; if it fails, it changes nothing. Defining a name in
`f` changes what is read of it from the frames inside `f` with no binding on the way, and nothing else. -/
theorem lookup_laws (h : s.Built) (f : FrameId) (n : Token) (v : Value) :
    (∀ d, s.Nearest n.lexeme f d → ∃ w, s.bound? d n.lexeme = some w ∧ s.get f n = .ok w) ∧
    (s.get f n = .error (.undefinedVariable n) ↔ ¬∃ d, s.Nearest n.lexeme f d) ∧
    ((s.assign f n v).1 = .ok () ↔ ∃ w, s.get f n = .ok w) ∧
    ((s.assign f n v).1 = .ok () →
      s.Changes (s.assign f n v).2 n.lexeme v
        (fun g => ∃ d, s.Nearest n.lexeme g d ∧ s.Nearest n.lexeme f d) ∧
      ∀ g name, (s.assign f n v).2.binds g name = s.binds g name) ∧
    (∀ e, (s.assign f n v).1 = .error e → e = .undefinedVariable n ∧ (s.assign f n v).2 = s) ∧
    ∀ name, s.Changes (s.define f name v) name v (s.Unshadowed name · f) := by
  have hordered := h.ordered
  by_cases hnearest : ∃ d, s.Nearest n.lexeme f d
  · obtain ⟨d, hd⟩ := hnearest
    obtain ⟨w, -, hget⟩ := hordered.exists_get_of_nearest hd
    have hassign := hordered.assign_of_nearest hd v
    refine ⟨fun d hd => hordered.exists_get_of_nearest hd, ⟨?_, ?_⟩, ?_, ?_, ?_,
      fun name => hordered.changes_define f name v⟩
    · intro herror
      rw [hget] at herror
      cases herror
    · intro hnone
      exact absurd ⟨d, hd⟩ hnone
    · rw [hassign]
      exact ⟨fun _ => ⟨w, hget⟩, fun _ => rfl⟩
    · intro _
      rw [hassign]
      exact ⟨hordered.changes_assign hd, binds_define_of_binds hd.2⟩
    · intro e he
      rw [hassign] at he
      cases he
  · have hget := hordered.get_of_not_nearest hnearest
    have hassign := hordered.assign_of_not_nearest hnearest v
    refine ⟨fun d hd => absurd ⟨d, hd⟩ hnearest, ⟨fun _ => hnearest, fun _ => hget⟩, ?_, ?_, ?_,
      fun name => hordered.changes_define f name v⟩
    · rw [hassign, hget]
      constructor
      · intro hok
        cases hok
      · rintro ⟨w, hok⟩
        cases hok
    · intro hok
      rw [hassign] at hok
      cases hok
    · intro e he
      rw [hassign] at he ⊢
      cases he
      exact ⟨rfl, rfl⟩

/-- Two frames inside a root that binds `x`: what is assigned from the one is read from the other. -/
theorem lookup_laws_siblings :
    let x := Token.synthetic .identifier "x" 1
    let root := (newFrame ⟨#[], 0⟩ none).2.define 0 "x" .nil
    let s := ((root.newFrame (some 0)).2.newFrame (some 0)).2
    s.Built ∧ (s.assign 1 x (.boolean true)).2.get 2 x = .ok (.boolean true) := by
  intro x root s
  have hroot : root.Built := .define (.root (.empty 0)) Nat.zero_lt_one "x" .nil
  have hbuilt : s.Built := .child (.child hroot (by decide)) (by decide)
  have hnearest : ∀ f, s.Chain f [f, 0] → ¬s.binds f x.lexeme → s.Nearest x.lexeme f 0 :=
    fun f hchain hf => ⟨⟨[f], [], hchain, by simpa using hf⟩, rfl⟩
  have hroot : s.Chain 0 [0] := .root (by decide) rfl
  have hone : s.Nearest x.lexeme 1 0 := hnearest 1 (.outward rfl hroot) nofun
  have htwo : s.Nearest x.lexeme 2 0 := hnearest 2 (.outward rfl hroot) nofun
  obtain ⟨hread, -, hassign, hchanges, -, -⟩ := lookup_laws hbuilt 1 x (.boolean true)
  obtain ⟨w, -, hget⟩ := hread 0 hone
  refine ⟨hbuilt, ?_⟩
  exact ((hchanges (hassign.2 ⟨w, hget⟩)).1 2 x).1 ⟨rfl, 0, htwo, hone⟩

end Store

end Treewalk
