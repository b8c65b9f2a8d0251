import Mathlib.Data.List.TakeWhile
import Mathlib.Logic.Function.Iterate
import Treewalk.Proofs.Grammar.Plain
import Treewalk.Proofs.Grammar.Soundness

/-!
# The parser is safe and moves on, whatever the tokens

The state of the parser holds the tokens that are left and a count of those taken. Here the tokens are
kept in one list, with a token at its end that marks the end (`supplied`), and the count is a place in
that list. `InBounds` says what has to hold before a token is looked at there: the place is not beyond
the first token that marks the end, and the next token and the last one are those of the list.

To say that this holds all the time, the parts that the productions are put together from are collected
(`Assembled`), and `Enters x s y t` says that while `x` is carried out from `s`, the part `y` is begun in
`t`. One invariant, which every single step keeps (`Assembled.meets`), then holds wherever a part is begun
(`Enters.placed`).

That the parser ends is known from its budget. That it ends at the end of the tokens is a matter of its
outermost loop: a declaration that does not begin at the end takes a token, whether or not it is abandoned
(`declaration_moves`).
-/

namespace Treewalk.Grammar

open Routine (call become attempt value)

/-! ## Places in a list of tokens -/

/-- The tokens with one at their end that marks the end. -/
def supplied (tokens : List Token) : List Token :=
  if tokens.getLast?.map (·.kind) = some .eof then tokens else tokens ++ [State.suppliedEnd tokens]

/-- The place of the first token that marks the end. -/
def endIndex (tokens : List Token) : Nat :=
  (supplied tokens).findIdx (·.kind = .eof)

/-- The tokens up to the first one that marks the end. -/
def cut (tokens : List Token) : List Token :=
  tokens.take (tokens.findIdx (·.kind = .eof) + 1)

/-- The parser stands at a place of the list, not beyond the first token that marks the end, and looks at
the tokens before and after this place. -/
structure InBounds (tokens : List Token) (s : State) : Prop where
  index : s.index ≤ endIndex tokens
  next : (supplied tokens)[s.index]? = some s.peek
  last : ∀ i, s.index = i + 1 → ∃ t, (supplied tokens)[i]? = some t ∧ s.last = some t

/-- The list is made of the tokens taken, those left, the one that marks the end, and whatever follows
it. -/
def Placed (tokens : List Token) (s : State) : Prop :=
  s.Sealed ∧ ∃ taken beyond, supplied tokens = taken ++ s.rest ++ s.finish :: beyond ∧
    (∀ t ∈ taken, t.kind ≠ .eof) ∧ s.index = taken.length ∧ s.last = taken.getLast?

variable {tokens : List Token} {s s' t : State}

/-- The parser begins on the tokens before the first one that marks the end. -/
theorem rest_ofTokens_of_split {us : List Token} {t : Token} (hus : ∀ u ∈ us, u.kind ≠ .eof)
    (ht : t.kind = .eof) (vs : List Token) : (State.ofTokens (us ++ t :: vs)).rest = us := by
  show (us ++ t :: vs).takeWhile _ = us
  rw [List.takeWhile_append_of_pos fun u hu => by simpa using hus u hu]
  simp [ht]

/-- That one is the token that it keeps for the end. -/
theorem finish_ofTokens_of_split {us : List Token} {t : Token} (hus : ∀ u ∈ us, u.kind ≠ .eof)
    (ht : t.kind = .eof) (vs : List Token) : (State.ofTokens (us ++ t :: vs)).finish = t := by
  have hnone : us.find? (·.kind = .eof) = none := by simpa using hus
  simp [State.ofTokens, List.find?_append, hnone, ht]

/-- So this is the state that the parser begins in. -/
theorem ofTokens_of_split {us : List Token} {t : Token} (hus : ∀ u ∈ us, u.kind ≠ .eof)
    (ht : t.kind = .eof) (vs : List Token) :
    State.ofTokens (us ++ t :: vs) = ⟨us, t, 0, none, 0, #[], false⟩ := by
  have hrest := rest_ofTokens_of_split hus ht vs
  have hfinish := finish_ofTokens_of_split hus ht vs
  simp only [State.ofTokens] at hrest hfinish ⊢
  rw [hrest, hfinish]

/-- The place of the end is the number of tokens before it. -/
theorem findIdx_of_split {us vs : List Token} {t : Token} (hus : ∀ u ∈ us, u.kind ≠ .eof)
    (ht : t.kind = .eof) : (us ++ t :: vs).findIdx (·.kind = .eof) = us.length := by
  have hall : us.findIdx (·.kind = .eof) = us.length :=
    List.findIdx_eq_length.2 fun u hu => by simpa using hus u hu
  simp [List.findIdx_append, hall, List.findIdx_cons, ht]

/-- Either no token marks the end, or there is a first one that does. -/
theorem split_at_end (tokens : List Token) : (∀ u ∈ tokens, u.kind ≠ .eof) ∨
    ∃ us t vs, tokens = us ++ t :: vs ∧ (∀ u ∈ us, u.kind ≠ .eof) ∧ t.kind = .eof := by
  rcases h : tokens.find? (·.kind = .eof) with _ | t
  · exact .inl fun u hu => by simpa using List.find?_eq_none.1 h u hu
  · obtain ⟨ht, us, vs, hsplit, hus⟩ := List.find?_eq_some_iff_append.1 h
    exact .inr ⟨us, t, vs, hsplit, by simpa using hus, by simpa using ht⟩

/-- The list with its end supplied is what the parser begins on, then the end, then what it never sees. -/
theorem exists_supplied (tokens : List Token) : ∃ beyond, supplied tokens =
    (State.ofTokens tokens).rest ++ (State.ofTokens tokens).finish :: beyond := by
  rcases split_at_end tokens with hnone | ⟨us, t, vs, rfl, hus, ht⟩
  · have hlast : tokens.getLast?.map (·.kind) ≠ some .eof := by
      intro h
      obtain ⟨t, hmem, hkind⟩ := Option.map_eq_some_iff.1 h
      exact hnone t (List.mem_of_getLast? hmem) hkind
    have hrest : tokens.takeWhile (·.kind ≠ .eof) = tokens :=
      List.takeWhile_eq_self_iff.2 fun u hu => by simpa using hnone u hu
    have hfinish : tokens.find? (·.kind = .eof) = none := by simpa using hnone
    refine ⟨[], ?_⟩
    rw [supplied, if_neg hlast]
    simp only [State.ofTokens, hrest, hfinish, Option.getD_none]
  · rw [rest_ofTokens_of_split hus ht, finish_ofTokens_of_split hus ht, supplied]
    split
    · exact ⟨vs, rfl⟩
    · exact ⟨vs ++ [State.suppliedEnd (us ++ t :: vs)], by simp⟩

/-- What follows the first token that marks the end plays no part. -/
theorem ofTokens_cut (tokens : List Token) : State.ofTokens (cut tokens) = State.ofTokens tokens := by
  rcases split_at_end tokens with hnone | ⟨us, t, vs, rfl, hus, ht⟩
  · have hall : tokens.findIdx (·.kind = .eof) = tokens.length :=
      List.findIdx_eq_length.2 fun u hu => by simpa using hnone u hu
    rw [cut, hall, List.take_of_length_le (Nat.le_succ _)]
  · have hcut : cut (us ++ t :: vs) = us ++ [t] := by
      rw [cut, findIdx_of_split hus ht, List.take_length_add_append]
      rfl
    rw [hcut, ofTokens_of_split hus ht, ofTokens_of_split hus ht]

/-- The state that the parser begins in belongs to the list. -/
theorem placed_ofTokens (tokens : List Token) : Placed tokens (State.ofTokens tokens) := by
  obtain ⟨beyond, hsupplied⟩ := exists_supplied tokens
  exact ⟨sealed_ofTokens tokens, [], beyond, by simpa using hsupplied, by simp, rfl, rfl⟩

namespace Placed

/-- What has been taken and what is left make up the tokens before the end. -/
theorem endIndex_eq (h : Placed tokens s) : endIndex tokens = s.index + s.rest.length := by
  obtain ⟨⟨hfinish, hrest⟩, taken, beyond, hsupplied, htaken, hindex, -⟩ := h
  have hbefore : ∀ t ∈ taken ++ s.rest, t.kind ≠ .eof := by
    rw [List.forall_mem_append]
    exact ⟨htaken, hrest⟩
  rw [endIndex, hsupplied, findIdx_of_split hbefore hfinish, List.length_append, hindex]

/-- A state that belongs to the list has its place in bounds. -/
theorem inBounds (h : Placed tokens s) : InBounds tokens s := by
  refine ⟨by rw [h.endIndex_eq]; omega, ?_, ?_⟩
  · obtain ⟨-, taken, beyond, hsupplied, -, hindex, -⟩ := h
    rw [hsupplied, hindex, List.append_assoc, List.getElem?_append_right (Nat.le_refl _), Nat.sub_self]
    unfold State.peek
    rcases s.rest <;> simp
  · intro i hi
    obtain ⟨-, taken, beyond, hsupplied, -, hindex, hlast⟩ := h
    rcases List.eq_nil_or_concat taken with rfl | ⟨before, t, rfl⟩
    · rw [hi] at hindex
      cases hindex
    · obtain rfl : i = before.length := by simpa [hi] using hindex
      exact ⟨t, by simp [hsupplied], by simp [hlast]⟩

/-- Taking a token keeps the state in its list; at the end nothing is taken. -/
theorem advance (h : Placed tokens s) : Placed tokens s.advance := by
  rcases hrest : s.rest with _ | ⟨t, rest⟩
  · have hsame : s.advance = s := by simp [State.advance, hrest]
    rwa [hsame]
  · obtain ⟨hsealed, taken, beyond, hsupplied, htaken, hindex, hlast⟩ := h
    have hpassed := passed_advance hrest
    refine ⟨hpassed.sealed hsealed, taken ++ [t], beyond, ?_, ?_, ?_, ?_⟩
    · rw [hsupplied, hpassed.rest, hpassed.finish]
      simp
    · rw [List.forall_mem_append]
      exact ⟨htaken, by simpa using hsealed.2 t (by simp [hrest])⟩
    · rw [hpassed.index, hindex, List.length_append]
    · simp [State.advance, hrest]

/-- So does noting a complaint. -/
theorem report (h : Placed tokens s) (t : Token) (complaint : Complaint) :
    Placed tokens (s.report t complaint) :=
  h

/-- So does going into a function body or out of it. -/
theorem withDepth (h : Placed tokens s) (depth : Nat) : Placed tokens { s with depth } :=
  h

/-- So does taking any number of tokens. -/
theorem iterate (h : Placed tokens s) (n : Nat) : Placed tokens (State.advance^[n] s) := by
  induction n with
  | zero => exact h
  | succ n ih =>
    rw [Function.iterate_succ_apply']
    exact ih.advance

end Placed

/-- Finding a place to go on is taking tokens one by one. -/
theorem skip_eq_iterate (s : State) : ∃ n, s.skip = State.advance^[n] s := by
  have hgo : ∀ rest last index, ∃ n,
      State.skip.go s last index rest = State.advance^[n] { s with rest, last, index } := by
    intro rest
    induction rest with
    | nil => exact fun last index => ⟨0, rfl⟩
    | cons t rest ih =>
      intro last index
      unfold State.skip.go
      split
      · exact ⟨0, rfl⟩
      · obtain ⟨n, hn⟩ := ih (some t) (index + 1)
        exact ⟨n + 1, hn⟩
  exact hgo s.rest s.last s.index

/-- Finding a place to go on is taking a number of tokens. -/
theorem synchronize_eq_iterate (start : Nat) (s : State) :
    ∃ n, s.synchronize start = State.advance^[n] s := by
  unfold State.synchronize
  split
  · obtain ⟨n, hn⟩ := skip_eq_iterate s.advance
    exact ⟨n + 1, hn⟩
  · exact skip_eq_iterate s

/-! ## What productions are put together from -/

/-- A part of the parser that is put together from its single steps. -/
inductive Assembled : {α : Type} → Parse α → Prop where
  | pure {α : Type} (a : α) : Assembled (pure a)
  | peek : Assembled Parse.peek
  | peekKind : Assembled Parse.peekKind
  | advance : Assembled Parse.advance
  | index : Assembled Parse.index
  | accept (kinds : List Kind) : Assembled (Parse.accept? kinds)
  | expect (kind : Kind) (what : Expected) : Assembled (Parse.expect kind what)
  | report (t : Token) (complaint : Complaint) : Assembled (Parse.report t complaint)
  | reportBeyond (before : Nat) (complaint : Complaint) :
      Assembled (Parse.reportBeyond before complaint)
  | reportOutside (t : Token) (complaint : Complaint) : Assembled (Parse.reportOutside t complaint)
  | refuse {α : Type} (t : Token) (complaint : Complaint) :
      Assembled (Parse.refuse t complaint : Parse α)
  | synchronize (start : Nat) : Assembled (Routine.modify (State.synchronize start))
  | call (g : Goal) : Assembled (call g : Parse g.Result)
  | become (g : Goal) : Assembled (become g : Parse g.Result)
  | bind {α β : Type} {x : Parse α} {f : α → Parse β} (hx : Assembled x)
      (hf : ∀ a, Assembled (f a)) : Assembled (x >>= f)
  | attempt {α : Type} {x : Parse α} (hx : Assembled x) : Assembled (attempt x)
  | inFunction {α : Type} {x : Parse α} (hx : Assembled x) : Assembled (Parse.inFunction x)

/-- Parts that go by the next token are put together from the steps of the parser. -/
theorem Plain.assembled {kinds : Kind → Prop} {goals : Goal → Prop} {next : Option Token} {α : Type}
    {x : Parse α} (hx : Plain kinds goals next x) : Assembled x := by
  induction hx with
  | pure a => exact .pure a
  | look _ ih => exact .bind .peek ih
  | advance _ _ ih => exact .bind .advance fun _ => ih
  | peekKind => exact .peekKind
  | accept accepted => exact .accept accepted
  | expect kind what => exact .expect kind what
  | report t complaint => exact .report t complaint
  | reportBeyond before complaint => exact .reportBeyond before complaint
  | reportOutside t complaint => exact .reportOutside t complaint
  | refuse t complaint => exact .refuse t complaint
  | call g => exact .call g
  | become g => exact .become g
  | bind _ _ ihx ihf => exact .bind ihx ihf
  | inFunction _ ih => exact .inFunction ih

namespace Assembled

/-- So is a declaration, before it counts its tokens. -/
theorem declarationBody : Assembled declarationBody :=
  (@Outer.declarationBody none).assembled

/-- So is a declaration with what is done if it is given up. -/
theorem declaration : Assembled declaration := by
  refine .bind .index fun start => .bind (.attempt declarationBody) fun result => ?_
  split
  · exact .pure _
  · exact .bind (.synchronize start) fun _ => .pure _

/-- So is a program. -/
theorem program (read : List Stmt) : Assembled (program read) :=
  (@Outer.program none read).assembled

/-- **Every production is put together from single steps.** -/
theorem goal (g : Goal) : Assembled (rules g) := by
  by_cases hg : g = .declaration
  · rw [hg]
    exact declaration
  · exact (@Outer.goal none g hg).assembled

end Assembled

/-! ## Every part keeps the parser in its place -/

/-- Goals are put in a place of the list, and leave the parser in one, in as many function bodies. -/
def placing (tokens : List Token) : Routine.Contract Goal.Result Abandoned State where
  pre q := Placed tokens q.2
  post q out := Placed tokens out.2 ∧ out.2.depth = q.2.depth

variable {α β : Type} {x : Parse α} {y : Parse β}

/-- Taking a token does not lead into a function body or out of it. -/
theorem depth_advance (s : State) : s.advance.depth = s.depth := by
  unfold State.advance
  split <;> rfl

/-- Nor does taking any number of tokens. -/
theorem depth_iterate (n : Nat) (s : State) : (State.advance^[n] s).depth = s.depth := by
  induction n with
  | zero => rfl
  | succ n ih => rw [Function.iterate_succ_apply', depth_advance, ih]

/-- **Single steps keep the parser in its place, and so does what is put together from them.** -/
theorem Assembled.meets (hx : Assembled x) (h : Placed tokens s) :
    x.Meets (placing tokens) s fun out => Placed tokens out.2 ∧ out.2.depth = s.depth := by
  induction hx generalizing s with
  | pure | peek | peekKind | index | report | refuse => exact ⟨h, rfl⟩
  | advance => exact ⟨h.advance, depth_advance s⟩
  | accept kinds =>
    rw [Parse.accept?, Routine.meets_step]
    split
    · split
      · exact ⟨h.advance, depth_advance s⟩
      · exact ⟨h, rfl⟩
    · exact ⟨h, rfl⟩
  | expect kind what =>
    rw [Parse.expect, Routine.meets_step]
    split
    · split
      · exact ⟨h.advance, depth_advance s⟩
      · exact ⟨h, rfl⟩
    · exact ⟨h, rfl⟩
  | reportBeyond before complaint =>
    rw [Parse.reportBeyond, Routine.meets_modify]
    split <;> exact ⟨h, rfl⟩
  | reportOutside t complaint =>
    rw [Parse.reportOutside, Routine.meets_modify]
    split <;> exact ⟨h, rfl⟩
  | synchronize start =>
    rw [Routine.meets_modify]
    obtain ⟨n, hn⟩ := synchronize_eq_iterate start s
    rw [hn]
    exact ⟨h.iterate n, depth_iterate n s⟩
  | call g | become g => exact ⟨h, fun out hout => hout⟩
  | bind hx hf ihx ihf =>
    rw [Routine.meets_bind]
    refine (ihx h).mono ?_
    rintro ⟨e | a, s'⟩ ⟨hplaced, hdepth⟩
    · exact ⟨hplaced, hdepth⟩
    · refine (ihf a hplaced).mono ?_
      rintro out ⟨hplaced', hdepth'⟩
      exact ⟨hplaced', hdepth'.trans hdepth⟩
  | attempt hx ih =>
    rw [Routine.meets_attempt]
    exact ih h
  | @inFunction α x hx ih =>
    show (x.ensuring _).Meets (placing tokens) { s with depth := s.depth + 1 } _
    rw [Routine.meets_ensuring]
    refine (ih (h.withDepth (s.depth + 1))).mono ?_
    rintro out ⟨hplaced, hdepth⟩
    exact ⟨hplaced.withDepth _, by simp [hdepth]⟩

/-- All productions keep the state in its list, and restore the depth. -/
theorem rules_keep_placing (tokens : List Token) : Routine.Keeps rules (placing tokens) :=
  fun g _ h => (Assembled.goal g).meets h

/-- So does whatever is put together from the steps of the parser. -/
theorem Assembled.placed (hx : Assembled x) (h : Placed tokens s) {r : Except Abandoned α}
    (hvalue : value rules x s = some (r, s')) : Placed tokens s' ∧ s'.depth = s.depth :=
  (rules_keep_placing tokens).post_of_value (hx.meets h) hvalue

/-- Reading inside a function body is reading one body deeper; afterwards the depth is counted down. -/
theorem value_inFunction (x : Parse α) (s : State) : value rules (Parse.inFunction x) s =
    (value rules x { s with depth := s.depth + 1 }).map fun out =>
      (out.1, { out.2 with depth := out.2.depth - 1 }) :=
  Routine.value_ensuring rules x _ _

/-- **Every part ends.** -/
theorem Assembled.exists_value (hx : Assembled x) (h : Placed tokens s) :
    ∃ out, value rules x s = some out := by
  have hgoal : ∀ g s, Placed tokens s → ∃ out, value rules (rules g) s = some out := by
    intro g s h
    obtain ⟨out, -, hrun, -⟩ := rules_within.exists_run (rules_reads g h.1)
    exact ⟨out, Routine.value_of_run rules hrun⟩
  induction hx generalizing s with
  | call g =>
    rw [Routine.value_call]
    exact hgoal g s h
  | become g =>
    rw [Routine.value_become]
    exact hgoal g s h
  | bind hx hf ihx ihf =>
    obtain ⟨⟨e | a, s'⟩, hout⟩ := ihx h
    · exact ⟨_, by rw [Routine.value_bind, hout]; rfl⟩
    · rw [Routine.value_bind_ok rules _ hout]
      exact ihf a (hx.placed h hout).1
  | attempt hx ih =>
    obtain ⟨out, hout⟩ := ih h
    exact ⟨_, by rw [Routine.value_attempt, hout]; rfl⟩
  | @inFunction α x hx ih =>
    obtain ⟨out, hout⟩ := ih (h.withDepth (s.depth + 1))
    exact ⟨_, by rw [value_inFunction, hout]; rfl⟩
  | _ => exact ⟨_, rfl⟩

/-! ## Wherever a part is begun -/

/-- While `x` is carried out from `s`, the part `y` is begun in `t`. -/
inductive Enters : {α β : Type} → Parse α → State → Parse β → State → Prop where
  | here {α : Type} {x : Parse α} {s : State} (hx : Assembled x) : Enters x s x s
  | first {α β γ : Type} {x : Parse α} {f : α → Parse β} {y : Parse γ} {s t : State}
      (hx : Assembled x) (hf : ∀ a, Assembled (f a)) (h : Enters x s y t) : Enters (x >>= f) s y t
  | later {α β γ : Type} {x : Parse α} {f : α → Parse β} {y : Parse γ} {s s' t : State} {a : α}
      (hx : Assembled x) (hf : ∀ a, Assembled (f a)) (hvalue : value rules x s = some (.ok a, s'))
      (h : Enters (f a) s' y t) : Enters (x >>= f) s y t
  | call {γ : Type} {g : Goal} {y : Parse γ} {s t : State} (h : Enters (rules g) s y t) :
      Enters (call g : Parse g.Result) s y t
  | become {γ : Type} {g : Goal} {y : Parse γ} {s t : State} (h : Enters (rules g) s y t) :
      Enters (become g : Parse g.Result) s y t
  | attempt {α γ : Type} {x : Parse α} {y : Parse γ} {s t : State} (h : Enters x s y t) :
      Enters (attempt x) s y t
  | inFunction {α γ : Type} {x : Parse α} {y : Parse γ} {s t : State}
      (h : Enters x { s with depth := s.depth + 1 } y t) : Enters (Parse.inFunction x) s y t
  /-- Finding a place to go on takes tokens one by one. -/
  | synchronize (start n : Nat) (s : State) :
      Enters (Routine.modify (State.synchronize start)) s Parse.advance (State.advance^[n] s)

/-- **Wherever a part is begun, the parser is in its place.** -/
theorem Enters.placed (h : Enters x s y t) (hs : Placed tokens s) : Placed tokens t := by
  induction h with
  | here hx => exact hs
  | first hx hf h ih => exact ih hs
  | later hx hf hvalue h ih => exact ih (hx.placed hs hvalue).1
  | call h ih | become h ih | attempt h ih => exact ih hs
  | inFunction h ih => exact ih (hs.withDepth _)
  | synchronize start n s => exact hs.iterate n

/-! ## The parser moves on -/

/-- A declaration that is abandoned is dropped, and nothing else with it. -/
theorem declaration_ends_ok {r : Except Abandoned (Option Stmt)}
    (h : value rules declaration s = some (r, s')) : ∃ d, r = .ok d := by
  have hindex : value rules Parse.index s = some (.ok s.index, s) := rfl
  rw [declaration, Routine.value_bind_ok rules _ hindex, Routine.value_bind, Routine.value_attempt] at h
  rcases hbody : value rules declarationBody s with _ | ⟨e | d, s₁⟩
  · simp [hbody] at h
  · simp only [hbody, Option.map_some, Option.bind_some, Routine.value_bind, Routine.value_modify,
      Routine.value_pure, Option.some.injEq, Prod.mk.injEq] at h
    exact ⟨none, h.1.symm⟩
  · simp only [hbody, Option.map_some, Option.bind_some, Routine.value_pure, Option.some.injEq,
      Prod.mk.injEq] at h
    exact ⟨some d, h.1.symm⟩

/-- **A declaration that does not begin at the end takes a token**, whether or not it is abandoned. -/
theorem declaration_moves (hs : s.Sealed) (h : s.peek.kind ≠ .eof) :
    ∃ d s', value rules declaration s = some (.ok d, s') ∧ s.index < s'.index ∧ s'.Sealed ∧
      s'.rest.length < s.rest.length := by
  obtain ⟨⟨r, s'⟩, -, hrun, -, us, ds, hpassed, hended⟩ :=
    rules_within.exists_run (declaration_reads hs)
  have hvalue := Routine.value_of_run rules hrun
  obtain ⟨d, rfl⟩ := declaration_ends_ok hvalue
  obtain ⟨rest, hrest⟩ := hs.exists_rest h
  have htaken : 1 ≤ us.length := by simpa [Goal.least, hrest] using hended.least d rfl
  have hindex := hpassed.index
  have hlength := hpassed.length
  dsimp only at hindex hlength
  exact ⟨d, s', hvalue, by omega, hpassed.sealed hs, by omega⟩

/-! ### The outermost loop, round by round -/

/-- At the end a program is what has been read of it. -/
theorem value_program_of_end (h : s.peek.kind = .eof) (read : List Stmt) :
    value rules (program read) s = some (.ok read.reverse, s) := by
  simp [program, Parse.peekKind, h]

/-- Before the end a program goes on with a declaration. One that was dropped adds no statement. -/
theorem value_program_of_declaration {d : Option Stmt} (h : s.peek.kind ≠ .eof)
    (hvalue : value rules declaration s = some (.ok d, s')) (read : List Stmt) :
    value rules (program read) s = value rules (program (d.toList ++ read)) s' := by
  have hlook : value rules Parse.peekKind s = some (.ok s.peek.kind, s) := rfl
  have hround : value rules (call Goal.declaration) s = some (.ok d, s') := by
    rw [Routine.value_call]
    exact hvalue
  rw [program, Routine.value_bind_ok rules _ hlook, if_neg h, Routine.value_bind_ok rules _ hround,
    Routine.value_become]
  rfl

/-- **The parser ends at the end of the tokens.** -/
theorem program_reaches_end (read : List Stmt) (hs : s.Sealed) :
    ∃ program s', value rules (Grammar.program read) s = some (.ok program, s') ∧ s'.rest = [] := by
  -- on the tokens that are left, of which each round takes some
  induction hlength : s.rest.length using Nat.strong_induction_on generalizing s read with
  | _ n ih =>
    by_cases h : s.peek.kind = .eof
    · exact ⟨read.reverse, s, value_program_of_end h read, hs.rest_eq_nil h⟩
    · obtain ⟨d, s', hvalue, -, hs', hshorter⟩ := declaration_moves hs h
      rw [value_program_of_declaration h hvalue]
      exact ih _ (hlength ▸ hshorter) (d.toList ++ read) hs' rfl

/-- What the parser comes to within its budget of steps is the value of its outermost goal. -/
theorem outcome_eq_value (tokens : List Token) :
    outcome tokens = value rules (program []) (State.ofTokens tokens) := by
  obtain ⟨r, s', -, -, houtcome, -⟩ := exists_outcome tokens
  rw [houtcome, Routine.value_of_run rules houtcome]

/-- So what the parser returns can be read off this value. -/
theorem parse_eq_of_value {read : List Stmt}
    (h : value rules (program []) (State.ofTokens tokens) = some (.ok read, s)) :
    parse tokens = ⟨read, s.diagnostics, s.hadError⟩ := by
  unfold parse
  rw [outcome_eq_value, h]

/-- **The parser always comes to an end**, with a program and diagnostics. -/
theorem exists_parse (tokens : List Token) : ∃ read s,
    value rules (program []) (State.ofTokens tokens) = some (.ok read, s) ∧
      parse tokens = ⟨read, s.diagnostics, s.hadError⟩ := by
  obtain ⟨read, s, hvalue, -⟩ := program_reaches_end [] (sealed_ofTokens tokens)
  exact ⟨read, s, hvalue, parse_eq_of_value hvalue⟩

/-- Tokens behind the first one that marks the end make no difference. -/
theorem outcome_cut (tokens : List Token) : outcome (cut tokens) = outcome tokens := by
  rw [outcome_eq_value, outcome_eq_value, ofTokens_cut]

/-- **The parser is safe and moves on, whatever the tokens.** It ends at the first token that marks the
end, outside all function bodies. Wherever one of its parts is begun, its place in the list is not beyond
that token, and it sees the tokens that stand before and after this place. Each declaration that it begins
before the end takes a token, whether or not it is abandoned, and each function body ends in as many
function bodies as it begins in. What follows the first token that marks the end makes no difference to the
statements or the diagnostics. -/
theorem parse_moves_safely (tokens : List Token) :
    (∃ program s, outcome tokens = some (.ok program, s) ∧ s.index = endIndex tokens ∧ s.depth = 0) ∧
    (∀ {β : Type} (y : Parse β) (t : State), Enters (program []) (State.ofTokens tokens) y t →
      InBounds tokens t) ∧
    (∀ t, Enters (program []) (State.ofTokens tokens) declaration t → t.peek.kind ≠ .eof →
      ∃ d t', value rules declaration t = some (.ok d, t') ∧ t.index < t'.index) ∧
    (∀ {β : Type} (y : Parse β) (t : State), Assembled y →
      Enters (program []) (State.ofTokens tokens) (Parse.inFunction y) t →
      ∃ r t', value rules y { t with depth := t.depth + 1 } = some (r, t') ∧
        t'.depth = t.depth + 1) ∧
    parse (cut tokens) = parse tokens := by
  have hplaced := placed_ofTokens tokens
  refine ⟨?_, fun y t h => (h.placed hplaced).inBounds, ?_, ?_, ?_⟩
  · obtain ⟨program, s, hvalue, hrest⟩ := program_reaches_end [] hplaced.1
    obtain ⟨hs, hdepth⟩ := (Assembled.program []).placed hplaced hvalue
    refine ⟨program, s, by rw [outcome_eq_value, hvalue], ?_, hdepth⟩
    rw [hs.endIndex_eq, hrest, List.length_nil, Nat.add_zero]
  · intro t h hpeek
    obtain ⟨d, t', hvalue, hindex, -⟩ := declaration_moves (h.placed hplaced).1 hpeek
    exact ⟨d, t', hvalue, hindex⟩
  · intro β y t hy h
    have ht := (h.placed hplaced).withDepth (t.depth + 1)
    obtain ⟨⟨r, t'⟩, hvalue⟩ := hy.exists_value ht
    exact ⟨r, t', hvalue, (hy.placed ht hvalue).2⟩
  · unfold parse
    rw [outcome_cut]

end Treewalk.Grammar
