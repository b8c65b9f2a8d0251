import Treewalk.Proofs.Evaluation.Heritage

/-!
# The frames of an interpreter form a forest

A frame is created inside a frame that exists, and its link to that frame is never changed; a function
is declared in a frame that exists. So every link and every function leads to a frame that exists
(`Store.WellFormed`), links lead to older frames, and whoever follows them comes to a root, at which he
stops, without passing a frame twice (`Store.WellFormed.exists_chain`, `Store.Chain.pairwise`). The walk
for the definer of a name is such a walk. It looks at a number before it follows a link, and in a
well-formed store that makes no difference (`Store.Ordered.definer?_eq`).

A store that is changed keeps its frames with their links and may get new ones (`Store.Grows`). That it
stays well-formed is a contract of the evaluator (`framing_keeps`), which speaks of all values at once:
those of variables, those that are passed on as arguments, and those that are handed back.
-/

namespace Treewalk

namespace Store

variable {s t u : Store} {f g p : FrameId} {v w : Value}

/-! ## Stores that grow -/

/-- The frame that a function was declared in exists. Other values have none. -/
def Allocates (s : Store) : Value → Prop
  | .function c => c.frame < s.frames.size
  | _ => True

/-- The frames of `s` are those of `t` that were created first, each with the same link. -/
structure Grows (s t : Store) : Prop where
  size_le : s.frames.size ≤ t.frames.size
  parent?_eq : ∀ f < s.frames.size, t.parent? f = s.parent? f

/-- A store that does not change has grown by nothing. -/
theorem Grows.refl (s : Store) : s.Grows s :=
  ⟨Nat.le_refl _, fun _ _ => rfl⟩

/-- Growing twice is growing. -/
theorem Grows.trans (h : s.Grows t) (h' : t.Grows u) : s.Grows u where
  size_le := Nat.le_trans h.size_le h'.size_le
  parent?_eq f hf :=
    (h'.parent?_eq f (Nat.lt_of_lt_of_le hf h.size_le)).trans (h.parent?_eq f hf)

/-- The frame of a function still exists in a store that has grown. -/
theorem Allocates.mono (h : s.Allocates v) (hgrows : s.Grows t) : t.Allocates v := by
  cases v with
  | function c => exact Nat.lt_of_lt_of_le h hgrows.size_le
  | _ => trivial

/-- Only frames that exist have links. -/
theorem lt_of_parent? (h : s.parent? f = some p) : f < s.frames.size := by
  obtain ⟨frame, hframe, -⟩ := Option.bind_eq_some_iff.1 h
  exact (Array.getElem?_eq_some_iff.1 hframe).1

/-- A declaration creates no frame. -/
theorem size_define (name : String) : (s.define f name v).frames.size = s.frames.size :=
  Array.size_modify

/-- A declaration changes no link. -/
theorem parent?_define (name : String) : (s.define f name v).parent? g = s.parent? g := by
  unfold parent? define
  rw [Array.getElem?_modify]
  by_cases hfg : f = g
  · rw [if_pos hfg]
    cases s.frames[g]? <;> rfl
  · rw [if_neg hfg]

/-- A new frame is one frame more. -/
theorem size_newFrame (parent : Option FrameId) :
    (s.newFrame parent).2.frames.size = s.frames.size + 1 :=
  Array.size_push _

/-- The new frame has the link that it was created with, and the others have theirs. -/
theorem parent?_newFrame (parent : Option FrameId) :
    (s.newFrame parent).2.parent? g = if g = s.frames.size then parent else s.parent? g := by
  unfold parent? newFrame
  rw [Array.getElem?_push]
  split <;> rfl

/-- A store with a declaration made in it has grown. -/
theorem grows_define (f : FrameId) (name : String) (v : Value) : s.Grows (s.define f name v) :=
  ⟨Nat.le_of_eq (size_define name).symm, fun _ _ => parent?_define name⟩

/-- A store with a new frame has grown. -/
theorem grows_newFrame (parent : Option FrameId) : s.Grows (s.newFrame parent).2 where
  size_le := by rw [size_newFrame]; exact Nat.le_succ _
  parent?_eq f hf := by rw [parent?_newFrame, if_neg (Nat.ne_of_lt hf)]

/-- A store with an assignment made in it has grown, or is the same if nothing was there to assign to. -/
theorem grows_assign (f : FrameId) (name : Token) (v : Value) : s.Grows (s.assign f name v).2 := by
  unfold assign
  cases s.definer? f name.lexeme with
  | none => exact .refl s
  | some g => exact grows_define g name.lexeme v

/-! ## Stores that are well-formed -/

/-- Links lead to older frames, whatever the values of variables are. -/
def Ordered (s : Store) : Prop :=
  ∀ f p, s.parent? f = some p → p < f

/-- A declaration keeps all links going to older frames. -/
theorem Ordered.define (h : s.Ordered) (f : FrameId) (name : String) (v : Value) :
    (s.define f name v).Ordered := by
  intro g p hp
  rw [parent?_define] at hp
  exact h g p hp

/-- A new frame that is linked to one that exists keeps all links going to older frames. -/
theorem Ordered.newFrame (h : s.Ordered) {parent : Option FrameId}
    (hparent : ∀ p, parent = some p → p < s.frames.size) : (s.newFrame parent).2.Ordered := by
  intro g p hp
  rw [parent?_newFrame] at hp
  by_cases hg : g = s.frames.size
  · rw [if_pos hg] at hp
    rw [hg]
    exact hparent p hp
  · rw [if_neg hg] at hp
    exact h g p hp

/-- Links lead to older frames, and every function that is the value of a variable was declared in a
frame that exists. -/
structure WellFormed (s : Store) : Prop where
  older : ∀ f p, s.parent? f = some p → p < f
  allocates : ∀ v, s.Binds v → s.Allocates v

/-- The store of a new interpreter is well-formed: its one frame is a root, and it is empty. -/
theorem wellFormed_initial : initial.WellFormed := by
  have hframe : ∀ (f : FrameId) (frame : Frame), initial.frames[f]? = some frame →
      frame = ⟨[], none⟩ := by
    intro f frame h
    cases f with
    | zero => exact (Option.some.inj h).symm
    | succ f => cases h
  constructor
  · intro f p h
    obtain ⟨frame, hf, hp⟩ := Option.bind_eq_some_iff.1 h
    rw [hframe f frame hf] at hp
    cases hp
  · rintro v ⟨f, frame, name, hf, hmem⟩
    rw [hframe f frame hf] at hmem
    cases hmem

namespace WellFormed

/-- In a well-formed store links go to older frames. -/
theorem ordered (h : s.WellFormed) : s.Ordered :=
  h.older

/-- A declaration keeps the store well-formed, if the frame of the value exists. -/
theorem define (h : s.WellFormed) (f : FrameId) (name : String) (hv : s.Allocates v) :
    (s.define f name v).WellFormed where
  older := h.ordered.define f name v
  allocates w hw := by
    have hw' : s.Allocates w := by
      rcases binds_of_define hw with rfl | hw
      · exact hv
      · exact h.allocates w hw
    exact hw'.mono (grows_define f name v)

/-- So does a new frame, if the frame around it exists. -/
theorem newFrame (h : s.WellFormed) {parent : Option FrameId}
    (hparent : ∀ p, parent = some p → p < s.frames.size) : (s.newFrame parent).2.WellFormed where
  older := h.ordered.newFrame hparent
  allocates w hw := (h.allocates w (binds_of_newFrame hw)).mono (grows_newFrame _)

/-- So does an assignment, if the frame of the value exists. -/
theorem assign (h : s.WellFormed) (f : FrameId) (name : Token) (hv : s.Allocates v) :
    (s.assign f name v).2.WellFormed := by
  unfold Store.assign
  cases s.definer? f name.lexeme with
  | none => exact h
  | some g => exact h.define g name.lexeme hv

/-- The value of a variable has a frame that exists. -/
theorem allocates_of_get (h : s.WellFormed) {name : Token} (hget : s.get f name = .ok v) :
    s.Allocates v := by
  unfold Store.get at hget
  cases hlookup : s.lookup f name.lexeme with
  | none =>
    rw [hlookup] at hget
    cases hget
  | some w =>
    rw [hlookup] at hget
    cases hget
    exact h.allocates v (binds_of_lookup hlookup)

end WellFormed

/-! ## Chains of enclosing frames -/

/-- **The walk outwards follows every link**: it never stops because of the number of a frame. -/
theorem Ordered.definer?_eq (h : s.Ordered) (hf : f < s.frames.size) (name : String) :
    s.definer? f name =
      if s.binds f name then some f else (s.parent? f).bind (s.definer? · name) := by
  obtain ⟨frame, hframe⟩ : ∃ frame, s.frames[f]? = some frame :=
    ⟨_, Array.getElem?_eq_getElem hf⟩
  rw [definer?, binds, parent?, hframe]
  show (if frame.binds name then _ else _) = if frame.binds name then _ else _
  congr 1
  cases hp : frame.parent with
  | none => simp [hp]
  | some outer =>
    have hlt : outer < f := h f outer (by rw [parent?, hframe]; exact hp)
    simp [hp, hlt]

/-- From a frame along its links to a root: all frames that are passed, the root being the last. -/
inductive Chain (s : Store) : FrameId → List FrameId → Prop where
  | root {f : FrameId} (hf : f < s.frames.size) (h : s.parent? f = none) : Chain s f [f]
  | outward {f p : FrameId} {chain : List FrameId} (hp : s.parent? f = some p)
      (h : Chain s p chain) : Chain s f (f :: chain)

/-- Every frame is at the beginning of a chain. -/
theorem Ordered.exists_chain (h : s.Ordered) (hf : f < s.frames.size) :
    ∃ chain, s.Chain f chain := by
  induction f using Nat.strongRecOn with
  | _ f ih =>
    cases hp : s.parent? f with
    | none => exact ⟨[f], .root hf hp⟩
    | some p =>
      have hlt := h f p hp
      obtain ⟨chain, hchain⟩ := ih p hlt (Nat.lt_trans hlt hf)
      exact ⟨f :: chain, .outward hp hchain⟩

/-- In a well-formed store every frame is at the beginning of a chain. -/
theorem WellFormed.exists_chain (h : s.WellFormed) (hf : f < s.frames.size) :
    ∃ chain, s.Chain f chain :=
  h.ordered.exists_chain hf

namespace Chain

variable {chain : List FrameId}

/-- There is one way outwards only. -/
theorem unique {chain' : List FrameId} (h : s.Chain f chain) (h' : s.Chain f chain') :
    chain' = chain := by
  induction h generalizing chain' with
  | root _ hroot =>
    cases h' with
    | root => rfl
    | outward hp =>
      rw [hroot] at hp
      cases hp
  | outward hp _ ih =>
    cases h' with
    | root _ hroot =>
      rw [hp] at hroot
      cases hroot
    | outward hp' h' =>
      rw [hp] at hp'
      cases hp'
      rw [ih h']

/-- All frames that are passed exist. -/
theorem lt_size (h : s.Chain f chain) (hg : g ∈ chain) : g < s.frames.size := by
  induction h with
  | root hf =>
    rw [List.mem_singleton] at hg
    rwa [hg]
  | outward hp _ ih =>
    rcases List.mem_cons.1 hg with rfl | hg
    · exact lt_of_parent? hp
    · exact ih hg

/-- The last frame on the way outwards is a root. -/
theorem getLast (h : s.Chain f chain) : ∃ root, chain.getLast? = some root ∧
    s.parent? root = none := by
  induction h with
  | root _ hroot => exact ⟨_, rfl, hroot⟩
  | outward _ h ih =>
    obtain ⟨root, hlast, hroot⟩ := ih
    refine ⟨root, ?_, hroot⟩
    rw [List.getLast?_cons, hlast]
    rfl

/-- Nothing that is passed is newer than the frame itself. -/
theorem le_of_mem (h : s.Chain f chain) (hs : s.WellFormed) (hg : g ∈ chain) : g ≤ f := by
  induction h with
  | root =>
    rw [List.mem_singleton] at hg
    exact Nat.le_of_eq hg
  | outward hp _ ih =>
    rcases List.mem_cons.1 hg with rfl | hg
    · exact Nat.le_refl _
    · exact Nat.le_of_lt (Nat.lt_of_le_of_lt (ih hg) (hs.older _ _ hp))

/-- **No frame is passed twice**: each is older than all before it. -/
theorem pairwise (h : s.Chain f chain) (hs : s.WellFormed) : chain.Pairwise (· > ·) := by
  induction h with
  | root => exact List.pairwise_singleton _ _
  | outward hp h ih =>
    refine List.pairwise_cons.2 ⟨fun g hg => ?_, ih⟩
    exact Nat.lt_of_le_of_lt (h.le_of_mem hs hg) (hs.older _ _ hp)

/-- **A name is looked for along the chain**, from the frame itself to the root. -/
theorem find?_eq (h : s.Chain f chain) (hs : s.Ordered) (name : String) :
    s.definer? f name = chain.find? (s.binds · name) := by
  induction h with
  | root hf hroot =>
    rw [hs.definer?_eq hf, hroot, List.find?_singleton]
    rfl
  | @outward f p chain hp h ih =>
    rw [hs.definer?_eq (lt_of_parent? hp), hp, List.find?_cons, Option.bind_some, ih]
    cases s.binds f name <;> rfl

/-- In a well-formed store, whoever defines a name is the first on the chain that binds it. -/
theorem definer?_eq_find? (h : s.Chain f chain) (hs : s.WellFormed) (name : String) :
    s.definer? f name = chain.find? (s.binds · name) :=
  h.find?_eq hs.ordered name

end Chain

end Store

/-! ## The contract -/

namespace Evaluation

open Routine (call become fail modify)

/-- The store is well-formed and has grown out of `s₀`, and the present frame exists. -/
structure State.Sound (s₀ : Store) (s : State) : Prop where
  wellFormed : s.store.WellFormed
  grows : s₀.Grows s.store
  current : s.current < s.store.frames.size

/-- What has grown out of a sound state is sound for what that has grown out of. -/
theorem State.Sound.trans {s₀ : Store} {s t : State} (h : s.Sound s₀) (h' : t.Sound s.store) :
    t.Sound s₀ :=
  ⟨h'.wellFormed, h.grows.trans h'.grows, h'.current⟩

/-- A well-formed store that has grown out of the store of a sound state may take its place. -/
theorem State.Sound.withStore {s₀ : Store} {s : State} (h : s.Sound s₀) {store : Store}
    (hstore : store.WellFormed) (hgrows : s.store.Grows store) :
    State.Sound s.store { s with store := store } :=
  ⟨hstore, hgrows, Nat.lt_of_lt_of_le h.current hgrows.size_le⟩

/-- The value that a statement leaves a function with is allocated. -/
def AllocatesFlow (s : Store) : Flow → Prop
  | .normal => True
  | .returned v => s.Allocates v

/-- From `s` on, the store has grown and is sound, the present frame is the same, and a result is good
for the store as it is now. -/
structure Leaves {α : Type} (good : Store → α → Prop) (s : State) (out : Except Fault α × State) :
    Prop where
  sound : out.2.Sound s.store
  current_eq : out.2.current = s.current
  result : ∀ a, out.1 = .ok a → good out.2.store a

/-- Goals are put in sound states, and leave sound states and allocated values. -/
def framing (s₀ : Store) : Routine.Contract Goal.Result Fault State where
  pre q := q.2.Sound s₀
  post q :=
    match q with
    | (.eval _, s) => Leaves Store.Allocates s
    | (.exec _, s) => Leaves AllocatesFlow s

/-- A routine that starts in `s`, if this is a sound state, keeps the contract. -/
def Tidy {α : Type} (s₀ : Store) (good : Store → α → Prop) (x : Eval α) (s : State) : Prop :=
  s.Sound s₀ → x.Meets (framing s₀) s (Leaves good s)

section Tidy

variable {α β : Type} {s₀ : Store} {good : Store → α → Prop} {good' : Store → β → Prop} {s : State}

/-- A sound state is sound for its own store. -/
theorem State.Sound.refl (h : s.Sound s₀) : s.Sound s.store :=
  ⟨h.wellFormed, .refl _, h.current⟩

/-! ### Putting routines together -/

/-- What is pure leaves the state as it is, so that its result must be good for it. -/
theorem tidy_pure {a : α} (h : good s.store a) : Tidy s₀ good (pure a) s :=
  fun hs => ⟨hs.refl, rfl, by rintro _ ⟨⟩; exact h⟩

/-- The value `nil` has no frame that could be missing. -/
theorem tidy_nil : Tidy s₀ Store.Allocates (pure .nil) s :=
  tidy_pure trivial

/-- A failure has no result that could be bad. -/
theorem tidy_fail (e : Fault) : Tidy s₀ good (fail e) s :=
  fun hs => ⟨hs.refl, rfl, by rintro _ ⟨⟩⟩

/-- A goal for an expression leaves a value whose frame exists. -/
theorem tidy_expr (e : Expr) : Tidy s₀ Store.Allocates (Eval.expr e) s :=
  fun hs => ⟨hs, fun _ hout => hout⟩

/-- A goal for a statement leaves a value whose frame exists, if any. -/
theorem tidy_stmt (st : Stmt) : Tidy s₀ AllocatesFlow (Eval.stmt st) s :=
  fun hs => ⟨hs, fun _ hout => hout⟩

/-- So does a goal for an expression that is become. -/
theorem tidy_becomeEval (e : Expr) : Tidy s₀ Store.Allocates (become (Goal.eval e)) s :=
  fun hs => ⟨hs, fun _ hout => hout⟩

/-- So does a goal for a statement that is become. -/
theorem tidy_becomeExec (st : Stmt) : Tidy s₀ AllocatesFlow (become (Goal.exec st)) s :=
  fun hs => ⟨hs, fun _ hout => hout⟩

/-- What follows starts in a store that has grown, with a result that is good for it. -/
theorem tidy_bind {x : Eval α} {f : α → Eval β} (hx : Tidy s₀ good x s)
    (hf : ∀ a t, s.store.Grows t.store → t.current = s.current → good t.store a →
      Tidy s₀ good' (f a) t) : Tidy s₀ good' (x >>= f) s := by
  intro hs
  rw [Routine.meets_bind]
  refine (hx hs).mono ?_
  rintro ⟨e | a, t⟩ ⟨hsound, hcurrent, hresult⟩
  · exact ⟨hsound, hcurrent, by rintro _ ⟨⟩⟩
  · have htidy := hf a t hsound.grows hcurrent (hresult a rfl) (hs.trans hsound)
    refine htidy.mono ?_
    rintro out ⟨hsound', hcurrent', hresult'⟩
    exact ⟨hsound.trans hsound', hcurrent'.trans hcurrent, hresult'⟩

/-- A choice is tidy if both sides are. -/
theorem tidy_ite {c : Prop} [Decidable c] {x y : Eval α} (hx : Tidy s₀ good x s)
    (hy : Tidy s₀ good y s) : Tidy s₀ good (if c then x else y) s := by
  split
  · exact hx
  · exact hy

/-- A frame that exists is entered and left again. -/
theorem tidy_inFrame {frame : FrameId} (hframe : frame < s.store.frames.size) {x : Eval α}
    (hx : Tidy s₀ good x { s with current := frame }) : Tidy s₀ good (Eval.inFrame frame x) s := by
  intro hs
  refine (Routine.meets_ensuring (framing s₀) x (fun t => { t with current := s.current })
    { s with current := frame }).2 ?_
  refine (hx ⟨hs.wellFormed, hs.grows, hframe⟩).mono ?_
  rintro out ⟨hsound, -, hresult⟩
  have hcurrent := Nat.lt_of_lt_of_le hs.current hsound.grows.size_le
  exact ⟨⟨hsound.wellFormed, hsound.grows, hcurrent⟩, rfl, hresult⟩

/-- Counting calls has nothing to do with frames. -/
theorem tidy_inCall {x : Eval α} (hx : Tidy s₀ good x { s with depth := s.depth + 1 }) :
    Tidy s₀ good (Eval.inCall x) s := by
  intro hs
  refine (Routine.meets_ensuring (framing s₀) x (fun t => { t with depth := t.depth - 1 })
    { s with depth := s.depth + 1 }).2 ?_
  refine (hx ⟨hs.wellFormed, hs.grows, hs.current⟩).mono ?_
  rintro out ⟨hsound, hcurrent, hresult⟩
  exact ⟨⟨hsound.wellFormed, hsound.grows, hsound.current⟩, hcurrent, hresult⟩

/-! ### The steps that call no goal -/

/-- A change of the state is tidy if it keeps the present frame, the store well-formed, and the frames
that there are. -/
theorem tidy_modify {f : State → State} (hcurrent : (f s).current = s.current)
    (hwellFormed : s.Sound s₀ → (f s).store.WellFormed) (hgrows : s.store.Grows (f s).store) :
    Tidy s₀ (fun _ _ => True) (modify f) s := by
  intro hs
  refine ⟨⟨hwellFormed hs, hgrows, ?_⟩, hcurrent, fun _ _ => trivial⟩
  show (f s).current < _
  rw [hcurrent]
  exact Nat.lt_of_lt_of_le hs.current hgrows.size_le

/-- The present frame exists. -/
theorem tidy_current : Tidy s₀ (fun t f => f < t.frames.size) Eval.current s :=
  fun hs => ⟨hs.refl, rfl, by rintro _ ⟨⟩; exact hs.current⟩

/-- Looking at the depth of calls changes nothing. -/
theorem tidy_depth : Tidy s₀ (fun _ _ => True) Eval.depth s :=
  fun hs => ⟨hs.refl, rfl, fun _ _ => trivial⟩

/-- A frame created inside one that exists is a frame that exists. -/
theorem tidy_newFrame {parent : FrameId} (hparent : parent < s.store.frames.size) :
    Tidy s₀ (fun t f => f < t.frames.size) (Eval.newFrame parent) s := by
  intro hs
  have hgrows := s.store.grows_newFrame (some parent)
  have hwellFormed : (s.store.newFrame (some parent)).2.WellFormed := by
    refine hs.wellFormed.newFrame fun p hp => ?_
    cases hp
    exact hparent
  refine ⟨⟨hwellFormed, hgrows, ?_⟩, rfl, ?_⟩
  · exact Nat.lt_of_lt_of_le hs.current hgrows.size_le
  · rintro _ ⟨⟩
    show s.store.frames.size < (s.store.newFrame (some parent)).2.frames.size
    rw [Store.size_newFrame]
    exact Nat.lt_succ_self _

/-- A declaration is tidy if the frame of the value exists. -/
theorem tidy_define (name : String) {v : Value} (hv : s.store.Allocates v) :
    Tidy s₀ (fun _ _ => True) (Eval.define name v) s :=
  tidy_modify rfl (fun hs => hs.wellFormed.define _ _ hv) (Store.grows_define _ _ _)

/-- What is read of a variable has a frame that exists. -/
theorem tidy_get (name : Token) : Tidy s₀ Store.Allocates (Eval.get name) s :=
  fun hs => ⟨hs.refl, rfl, fun _ hget => hs.wellFormed.allocates_of_get hget⟩

/-- An assignment is tidy if the frame of the value exists. -/
theorem tidy_assign (name : Token) {v : Value} (hv : s.store.Allocates v) :
    Tidy s₀ (fun _ _ => True) (Eval.assign name v) s := by
  intro hs
  have hgrows := s.store.grows_assign s.current name v
  refine ⟨⟨hs.wellFormed.assign _ _ hv, hgrows, ?_⟩, rfl, fun _ _ => trivial⟩
  exact Nat.lt_of_lt_of_le hs.current hgrows.size_le

/-- Output has nothing to do with frames. -/
theorem tidy_print (keyword : Token) (v : Value) :
    Tidy s₀ (fun _ _ => True) (Eval.print keyword v) s :=
  fun hs => ⟨⟨hs.wellFormed, .refl _, hs.current⟩, rfl, fun _ _ => trivial⟩

/-- A result that is a failure or not must be good as it is. -/
theorem tidy_ofExcept {x : Except Fault α} (h : ∀ a, x = .ok a → good s.store a) :
    Tidy s₀ good (Eval.ofExcept x) s :=
  fun hs => ⟨hs.refl, rfl, h⟩

/-! ### The routines of the evaluator -/

/-- Operators make no functions. -/
theorem allocates_of_unary {t : Store} {o : Token} {v w : Value} (h : unary o v = .ok w) :
    t.Allocates w := by
  cases w with
  | function c => exact absurd rfl (ne_function_of_unary h c)
  | _ => trivial

/-- Nor do binary operators. -/
theorem allocates_of_binary {t : Store} {o : Token} {v w x : Value} (h : binary o v w = .ok x) :
    t.Allocates x := by
  cases x with
  | function c => exact absurd rfl (ne_function_of_binary h c)
  | _ => trivial

/-- All arguments have frames that exist, the earlier ones also after the later ones are evaluated,
because frames stay. -/
theorem tidy_evalAll (es : List Expr) {values : List Value}
    (hvalues : ∀ v ∈ values, s.store.Allocates v) :
    Tidy s₀ (fun t vs => ∀ v ∈ vs, t.Allocates v) (evalAll es values) s := by
  induction es generalizing values s with
  | nil =>
    refine tidy_pure fun v hv => hvalues v ?_
    rwa [List.mem_reverse] at hv
  | cons e es ih =>
    refine tidy_bind (tidy_expr e) fun value t hgrows _ hvalue => ih ?_
    exact List.forall_mem_cons.2 ⟨hvalue, fun v hv => (hvalues v hv).mono hgrows⟩

/-- A value that statements return has a frame that exists. -/
theorem tidy_execAll (body : List Stmt) : Tidy s₀ AllocatesFlow (execAll body) s := by
  induction body generalizing s with
  | nil => exact tidy_pure trivial
  | cons st body ih =>
    refine tidy_bind (tidy_stmt st) fun flow t _ _ hflow => ?_
    cases flow with
    | normal => exact ih
    | returned v => exact tidy_pure hflow

/-- Binding the parameters of a call keeps the store well-formed and its frames. -/
theorem wellFormed_defineAll (frame : FrameId) {bindings : List (Token × Value)} {t : Store}
    (ht : t.WellFormed) (h : ∀ b ∈ bindings, t.Allocates b.2) :
    (defineAll t frame bindings).WellFormed ∧ t.Grows (defineAll t frame bindings) := by
  induction bindings generalizing t with
  | nil => exact ⟨ht, .refl t⟩
  | cons b bindings ih =>
    obtain ⟨param, v⟩ := b
    rw [List.forall_mem_cons] at h
    have hgrows := t.grows_define frame param.lexeme v
    obtain ⟨hwellFormed, hgrows'⟩ :=
      ih (ht.define frame param.lexeme h.1) fun b hb => (h.2 b hb).mono hgrows
    exact ⟨hwellFormed, hgrows.trans hgrows'⟩

/-- Applying a function whose frame exists is tidy: its own frame is created inside that one. -/
theorem tidy_apply {c : Closure} (hc : s.store.Allocates (.function c)) {args : List Value}
    (hargs : ∀ v ∈ args, s.store.Allocates v) : Tidy s₀ Store.Allocates (apply c args) s := by
  refine tidy_bind (tidy_newFrame hc) fun frame t hgrows _ hframe => ?_
  have hbindings : ∀ b ∈ c.declaration.params.zip args, t.store.Allocates b.2 :=
    fun b hb => (hargs b.2 (List.of_mem_zip hb).2).mono hgrows
  intro ht
  obtain ⟨hwellFormed, hgrows'⟩ := wellFormed_defineAll frame ht.wellFormed hbindings
  refine tidy_bind (tidy_modify rfl (fun _ => hwellFormed) hgrows') (fun _ u hgrows'' _ _ => ?_) ht
  refine tidy_bind (tidy_inFrame (Nat.lt_of_lt_of_le hframe hgrows''.size_le)
    (tidy_execAll c.declaration.body)) fun flow _ _ _ hflow => ?_
  cases flow with
  | normal => exact tidy_pure trivial
  | returned v => exact tidy_pure hflow

/-- What is done with a function and its arguments. -/
theorem tidy_enter {c : Closure} (hc : s.store.Allocates (.function c)) (paren : Token)
    {values : List Value} (hvalues : ∀ v ∈ values, s.store.Allocates v) :
    Tidy s₀ Store.Allocates (do
      if values.length ≠ c.arity then
        fail (.arityMismatch paren c.arity values.length)
      else if maxCallDepth ≤ (← Eval.depth) then
        fail (.stackOverflow paren)
      else
        Eval.inCall (apply c values)) s := by
  apply tidy_ite
  · exact tidy_fail _
  · refine tidy_bind tidy_depth fun d t hgrows _ _ => tidy_ite (tidy_fail _) ?_
    refine tidy_inCall (tidy_apply ?_ fun v hv => ?_)
    · exact Store.Allocates.mono hc hgrows
    · exact (hvalues v hv).mono hgrows

/-- Every form of expression is tidy. -/
theorem tidy_eval (e : Expr) : Tidy s₀ Store.Allocates (eval e) s := by
  cases e with
  | literal value =>
    refine tidy_pure ?_
    cases value <;> trivial
  | grouping inner => exact tidy_becomeEval inner
  | unary operator right =>
    exact tidy_bind (tidy_expr right) fun _ _ _ _ _ => tidy_ofExcept fun _ => allocates_of_unary
  | binary left operator right =>
    exact tidy_bind (tidy_expr left) fun _ _ _ _ _ => tidy_bind (tidy_expr right) fun _ _ _ _ _ =>
      tidy_ofExcept fun _ => allocates_of_binary
  | logical left operator right =>
    exact tidy_bind (tidy_expr left) fun _ _ _ _ hv =>
      tidy_ite (tidy_pure hv) (tidy_becomeEval right)
  | «variable» name => exact tidy_get name
  | assign name value =>
    exact tidy_bind (tidy_expr value) fun _ _ _ _ hv =>
      tidy_bind (tidy_assign name hv) fun _ _ hgrows _ _ => tidy_pure (hv.mono hgrows)
  | call callee paren args =>
    refine tidy_bind (tidy_expr callee) fun v t _ _ hv => ?_
    cases v with
    | function c =>
      refine tidy_bind (tidy_evalAll args fun _ hv => nomatch hv) fun values u hgrows _ hvalues => ?_
      exact tidy_enter (hv.mono hgrows) paren hvalues
    | _ => exact tidy_fail _

/-- Every form of statement is tidy. A function is declared in the present frame, which exists. -/
theorem tidy_exec (st : Stmt) : Tidy s₀ AllocatesFlow (exec st) s := by
  cases st with
  | expression e => exact tidy_bind (tidy_expr e) fun _ _ _ _ _ => tidy_pure trivial
  | print keyword e =>
    exact tidy_bind (tidy_expr e) fun v _ _ _ _ => tidy_bind (tidy_print keyword v) fun _ _ _ _ _ =>
      tidy_pure trivial
  | var name init =>
    cases init with
    | some e =>
      exact tidy_bind (tidy_expr e) fun _ _ _ _ hv => tidy_bind (tidy_define _ hv) fun _ _ _ _ _ =>
        tidy_pure trivial
    | none =>
      exact tidy_bind tidy_nil fun _ _ _ _ hv => tidy_bind (tidy_define _ hv) fun _ _ _ _ _ =>
        tidy_pure trivial
  | block body =>
    exact tidy_bind tidy_current fun _ _ _ _ hparent => tidy_bind (tidy_newFrame hparent)
      fun _ _ _ _ hframe => tidy_inFrame hframe (tidy_execAll body)
  | ifThen condition consequent =>
    exact tidy_bind (tidy_expr condition) fun _ _ _ _ _ =>
      tidy_ite (tidy_becomeExec consequent) (tidy_pure trivial)
  | ifElse condition consequent alternative =>
    exact tidy_bind (tidy_expr condition) fun _ _ _ _ _ =>
      tidy_ite (tidy_becomeExec consequent) (tidy_becomeExec alternative)
  | «while» condition body =>
    refine tidy_bind (tidy_expr condition) fun _ _ _ _ _ => tidy_ite ?_ (tidy_pure trivial)
    refine tidy_bind (tidy_stmt body) fun flow _ _ _ hflow => ?_
    cases flow with
    | normal => exact tidy_becomeExec _
    | returned v => exact tidy_pure hflow
  | function name params body =>
    refine tidy_bind (tidy_modify rfl (fun hs => ?_) ?_) fun _ _ _ _ _ => tidy_pure trivial
    · -- the function is declared in the present frame, and no frame has changed yet
      let made : Store := { s.store with identities := s.store.identities + 1 }
      have hmade : made.WellFormed := ⟨hs.wellFormed.older, hs.wellFormed.allocates⟩
      exact hmade.define s.current name.lexeme
        (v := .function ⟨s.store.identities, ⟨name, params, body⟩, s.current⟩) hs.current
    · exact ⟨(Store.grows_define _ _ _).size_le, fun f hf => Store.parent?_define _⟩
  | «return» keyword value =>
    cases value with
    | some e => exact tidy_bind (tidy_expr e) fun _ _ _ _ hv => tidy_pure hv
    | none => exact tidy_bind tidy_nil fun _ _ _ _ hv => tidy_pure hv

end Tidy

/-- **Well-formed stores stay well-formed, whatever is done.** -/
theorem framing_keeps (s₀ : Store) : Routine.Keeps rules (framing s₀)
  | .eval e, _, h => tidy_eval e h
  | .exec st, _, h => tidy_exec st h

/-- What is tidy, started in a sound state, leaves a sound state and a good result in every run. -/
theorem Tidy.leaves {α : Type} {good : Store → α → Prop} {x : Eval α} {s : State}
    (hx : Tidy s.store good x s) (hs : s.Sound s.store) {out : Except Fault α × State}
    (h : Routine.value rules x s = some out) : Leaves good s out :=
  (framing_keeps s.store).post_of_value (hx hs) h

end Evaluation

end Treewalk
