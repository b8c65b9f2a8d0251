import Mathlib.Data.String.Basic
import Treewalk.Token.Scan

/-!
# The cursor is faithful to its text

A cursor hides three things: which of the characters that are left it has already looked at, how
many bytes it has taken, and that text between two cursors is cut out by counts of bytes. `Faithful`
says that these agree with the text: the window is filled from its front, the window and the rest
together are the end of the text, and the count of bytes is the size of what stands before.

`Took source c cs c'` says that the way from `c` to `c'` takes the characters `cs` and nothing else.
Every operation of the cursor is described by the characters that it takes, so that a scanner over
cursors can be replaced by one over lists of characters. What is cut out between two cursors is what
was taken on the way from one to the other (`Took.slice_eq`).
-/

namespace Treewalk

/-- The position after some characters. -/
def Position.past (p : Position) (cs : List Char) : Position :=
  cs.foldl Position.advance p

/-- No characters do not move a position. -/
@[simp] theorem Position.past_nil (p : Position) : p.past [] = p := rfl

/-- A position is moved by one character after the other. -/
@[simp] theorem Position.past_cons (p : Position) (c : Char) (cs : List Char) :
    p.past (c :: cs) = (p.advance c).past cs := rfl

/-- Two rows of characters move a position one after the other. -/
theorem Position.past_append (p : Position) (cs ds : List Char) :
    p.past (cs ++ ds) = (p.past cs).past ds :=
  List.foldl_append

namespace Cursor

/-- The window is filled from its front, and what has been taken and counted together with what is
left is the text. -/
structure Faithful (source : String) (c : Cursor) : Prop where
  window : c.near = none → c.far = none
  taken : ∃ cs, source.toList = cs ++ c.remaining ∧ c.offset = String.utf8Len cs

/-- From `c` to `c'` exactly the characters `cs` are taken. -/
structure Took (source : String) (c : Cursor) (cs : List Char) (c' : Cursor) : Prop where
  faithful : c'.Faithful source
  remaining : c.remaining = cs ++ c'.remaining
  position : c'.position = c.position.past cs
  offset : c'.offset = c.offset + String.utf8Len cs

/-- The cursor that a text is begun with is faithful to it. -/
theorem ofString_faithful (source : String) : (ofString source).Faithful source :=
  ⟨fun _ => rfl, [], rfl, rfl⟩

variable {source : String} {c c' c'' : Cursor} {cs ds : List Char}

namespace Took

/-- A cursor that stays has taken nothing. -/
theorem refl (h : c.Faithful source) : Took source c [] c :=
  ⟨h, rfl, rfl, rfl⟩

/-- On a way of two parts, what is taken is what the parts take. -/
theorem trans (h : Took source c cs c') (h' : Took source c' ds c'') :
    Took source c (cs ++ ds) c'' where
  faithful := h'.faithful
  remaining := by rw [h.remaining, h'.remaining, List.append_assoc]
  position := by rw [h'.position, h.position, Position.past_append]
  offset := by rw [h'.offset, h.offset, String.utf8Len_append, Nat.add_assoc]

/-- What is left after the way is what was left before, without as many characters as were taken. -/
theorem drop_eq (h : Took source c cs c') : c'.remaining = c.remaining.drop cs.length := by
  rw [h.remaining, List.drop_left]

/-- **What is cut out between two cursors is what was taken on the way.** -/
theorem slice_eq (h : Took source c cs c') (hc : c.Faithful source) :
    Token.slice source c.offset c'.offset = String.ofList cs := by
  obtain ⟨before, hsource, hoffset⟩ := hc.taken
  have htext : source = String.ofList (before ++ cs ++ c'.remaining) := by
    rw [List.append_assoc, ← h.remaining, ← hsource, String.ofList_toList]
  unfold Token.slice
  rw [h.offset, hoffset, htext]
  exact String.extract_of_valid before cs c'.remaining

end Took

/-! ## The operations -/

/-- Looking at characters moves them into the window and takes none. -/
theorem took_of_shift (h : c.Faithful source) (hwindow : c'.near = none → c'.far = none)
    (hremaining : c'.remaining = c.remaining) (hposition : c'.position = c.position)
    (hoffset : c'.offset = c.offset) : Took source c [] c' := by
  refine ⟨⟨hwindow, ?_⟩, hremaining.symm, hposition, hoffset⟩
  rw [hremaining, hoffset]
  exact h.taken

/-- Looking at the next character takes nothing. -/
theorem took_peek (h : c.Faithful source) : Took source c [] c.peek.2 := by
  obtain ⟨near, far, rest, offset, position⟩ := c
  cases near with
  | some a => exact .refl h
  | none =>
    obtain rfl : far = none := h.window rfl
    cases rest with
    | nil => exact .refl h
    | cons a rest => exact took_of_shift h (fun hnone => by cases hnone) rfl rfl rfl

/-- The character that is looked at is the first of those that are left. -/
theorem peek_eq (h : c.Faithful source) : c.peek.1 = c.remaining.head? := by
  obtain ⟨near, far, rest, offset, position⟩ := c
  cases near with
  | some a => rfl
  | none =>
    obtain rfl : far = none := h.window rfl
    cases rest <;> rfl

/-- Looking at the character after the next takes nothing. -/
theorem took_peekNext (h : c.Faithful source) : Took source c [] c.peekNext.2 := by
  obtain ⟨near, far, rest, offset, position⟩ := c
  cases near with
  | some a =>
    cases far with
    | some b => exact .refl h
    | none =>
      cases rest with
      | nil => exact .refl h
      | cons b rest => exact took_of_shift h (fun hnone => by cases hnone) rfl rfl rfl
  | none =>
    obtain rfl : far = none := h.window rfl
    rcases rest with _ | ⟨a, _ | ⟨b, rest⟩⟩
    · exact .refl h
    · exact took_of_shift h (fun hnone => by cases hnone) rfl rfl rfl
    · exact took_of_shift h (fun hnone => by cases hnone) rfl rfl rfl

/-- The character that is looked at further ahead is the second of those that are left. -/
theorem peekNext_eq (h : c.Faithful source) : c.peekNext.1 = c.remaining[1]? := by
  obtain ⟨near, far, rest, offset, position⟩ := c
  cases near with
  | some a =>
    cases far with
    | some b => rfl
    | none => cases rest <;> rfl
  | none =>
    obtain rfl : far = none := h.window rfl
    rcases rest with _ | ⟨a, _ | ⟨b, rest⟩⟩ <;> rfl

/-- A step over one character takes this character, if position and count of bytes move by it. -/
theorem took_passing {ch : Char} (h : c.Faithful source) (hwindow : c'.near = none → c'.far = none)
    (hremaining : c.remaining = ch :: c'.remaining) (hposition : c'.position = c.position.advance ch)
    (hoffset : c'.offset = c.offset + ch.utf8Size) : Took source c [ch] c' := by
  have hsize : String.utf8Len [ch] = ch.utf8Size := by simp
  obtain ⟨before, hsource, hbefore⟩ := h.taken
  refine ⟨⟨hwindow, before ++ [ch], ?_, ?_⟩, hremaining, hposition, hsize ▸ hoffset⟩
  · rw [hsource, hremaining, List.append_assoc, List.singleton_append]
  · rw [hoffset, hbefore, String.utf8Len_append, hsize]

/-- Taking a character fails only at the end. -/
theorem next_cases (h : c.Faithful source) :
    (c.next = none ∧ c.remaining = []) ∨
      ∃ ch c', c.next = some (ch, c') ∧ Took source c [ch] c' := by
  obtain ⟨near, far, rest, offset, position⟩ := c
  cases near with
  | some a => exact .inr ⟨_, _, rfl, took_passing h (fun _ => rfl) (by cases far <;> rfl) rfl rfl⟩
  | none =>
    obtain rfl : far = none := h.window rfl
    cases rest with
    | nil => exact .inl ⟨rfl, rfl⟩
    | cons a rest => exact .inr ⟨_, _, rfl, took_passing h (fun _ => rfl) rfl rfl rfl⟩

/-- The next character is what a step of the cursor takes. -/
theorem took_of_next {ch : Char} (h : c.Faithful source) (hn : c.next = some (ch, c')) :
    Took source c [ch] c' := by
  rcases next_cases h with ⟨hnone, -⟩ | ⟨ch', c'', hsome, htook⟩
  · rw [hnone] at hn
    cases hn
  · rw [hsome] at hn
    cases hn
    exact htook

/-- The cursor gives no character only where none is left. -/
theorem remaining_of_next_none (h : c.Faithful source) (hn : c.next = none) : c.remaining = [] := by
  rcases next_cases h with ⟨-, hnil⟩ | ⟨ch, c', hsome, -⟩
  · exact hnil
  · rw [hsome] at hn
    cases hn

/-- **Taking characters on a condition** takes the longest stretch that satisfies it. -/
theorem took_skipWhile (p : Char → Bool) (h : c.Faithful source) :
    Took source c (c.remaining.takeWhile p) (c.skipWhile p) := by
  fun_induction skipWhile p c with
  | case1 c c' hp =>
    have hhead := peek_eq h
    have htook := took_peek h
    rw [hp] at hhead htook
    rw [List.head?_eq_none_iff.1 hhead.symm]
    exact htook
  | case2 c ch c' hp _ hn =>
    have hhead := peek_eq h
    have htook := took_peek h
    rw [hp] at hhead htook
    have hnil := remaining_of_next_none htook.faithful hn
    rw [htook.remaining, hnil] at hhead
    cases hhead
  | case3 c ch c' hp hch ch' c'' hn _ ih =>
    have hhead := peek_eq h
    have htook := took_peek h
    rw [hp] at hhead htook
    have hnext := took_of_next htook.faithful hn
    have hremaining : c.remaining = ch' :: c''.remaining := by
      rw [htook.remaining, hnext.remaining]
      rfl
    obtain rfl : ch = ch' := by
      rw [hremaining] at hhead
      exact Option.some.inj hhead
    rw [hremaining, List.takeWhile_cons_of_pos hch]
    exact (htook.trans hnext).trans (ih hnext.faithful)
  | case4 c ch c' hp hch =>
    have hhead := peek_eq h
    have htook := took_peek h
    rw [hp] at hhead htook
    obtain ⟨rest, hremaining⟩ := List.head?_eq_some_iff.1 hhead.symm
    rw [hremaining, List.takeWhile_cons_of_neg hch]
    exact htook

/-- Skipping leaves what is behind the characters that are skipped. -/
theorem remaining_skipWhile (p : Char → Bool) (h : c.Faithful source) :
    (c.skipWhile p).remaining = c.remaining.dropWhile p := by
  have hsplit : c.remaining.takeWhile p ++ c.remaining.dropWhile p = c.remaining :=
    List.takeWhile_append_dropWhile
  exact List.append_cancel_left ((took_skipWhile p h).remaining.symm.trans hsplit.symm)

/-- Taking a given character takes it exactly if it comes next. -/
theorem took_accept (ch : Char) (h : c.Faithful source) :
    (c.accept ch).1 = decide (c.remaining.head? = some ch) ∧
      Took source c (if c.remaining.head? = some ch then [ch] else []) (c.accept ch).2 := by
  have hhead := peek_eq h
  have htook := took_peek h
  unfold accept
  rw [← hhead]
  generalize c.peek = peeked at hhead htook
  obtain ⟨ahead, c'⟩ := peeked
  dsimp only at hhead htook ⊢
  by_cases hch : ahead = some ch
  · rcases next_cases htook.faithful with ⟨-, hnil⟩ | ⟨ch', c'', hn, hnext⟩
    · rw [htook.remaining, hnil, hch] at hhead
      cases hhead
    · obtain rfl : ch = ch' := by
        rw [htook.remaining, hnext.remaining, hch] at hhead
        exact Option.some.inj hhead
      simp only [hch, if_true, hn, decide_true, true_and]
      exact htook.trans hnext
  · simp only [hch, if_false, decide_false, true_and]
    exact htook

end Cursor

end Treewalk
