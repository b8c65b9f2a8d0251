import Treewalk.Position

/-!
# A cursor with a window of two characters

A `Cursor` reads a text from its start to its end. Looking ahead moves characters from the unread
text into a window of at most two places, and taking a character empties the window first. The
cursor also counts the bytes and keeps the position of what it has taken, so that the text between
two cursors can be cut out of the source by byte offsets.
-/

namespace Treewalk

/-- A place in a text, with up to two characters looked at but not yet taken. -/
structure Cursor where
  /-- The next character, if it has been looked at. -/
  near : Option Char
  /-- The one after it, if it has been looked at. -/
  far : Option Char
  /-- The characters that have not been looked at. -/
  rest : List Char
  /-- How many bytes have been taken. -/
  offset : Nat
  /-- The position of the next character. -/
  position : Position

namespace Cursor

/-- Before the first character of a text. -/
def ofString (text : String) : Cursor :=
  ⟨none, none, text.toList, 0, Position.start⟩

/-- The characters that have not been taken. -/
def remaining (c : Cursor) : List Char :=
  c.near.toList ++ (c.far.toList ++ c.rest)

/-- How many characters have not been taken. -/
def size (c : Cursor) : Nat :=
  c.remaining.length

/-- The cursor after taking a character `ch` that has left the window or the rest already. -/
def passing (c : Cursor) (ch : Char) : Cursor :=
  { c with offset := c.offset + ch.utf8Size, position := c.position.advance ch }

/-- Take a character, if there is one. -/
def next (c : Cursor) : Option (Char × Cursor) :=
  match c.near with
  | some ch => some (ch, { c with near := c.far, far := none }.passing ch)
  | none =>
    match c.rest with
    | ch :: rest => some (ch, { c with rest }.passing ch)
    | [] => none

/-- Look at the next character. -/
def peek (c : Cursor) : Option Char × Cursor :=
  match c.near with
  | some ch => (some ch, c)
  | none =>
    match c.rest with
    | ch :: rest => (some ch, { c with near := some ch, rest })
    | [] => (none, c)

/-- Look at the character after the next one. -/
def peekNext (c : Cursor) : Option Char × Cursor :=
  match c.far with
  | some ch => (some ch, c)
  | none =>
    match c.peek with
    | (none, c) => (none, c)
    | (some _, c) =>
      match c.rest with
      | ch :: rest => (some ch, { c with far := some ch, rest })
      | [] => (none, c)

/-! ## Sizes -/

/-- Taking a character makes the rest shorter. This is what the scanner's recursion ends by. -/
theorem size_next {c c' : Cursor} {ch : Char} (h : c.next = some (ch, c')) :
    c'.size < c.size := by
  obtain ⟨near, far, rest, offset, position⟩ := c
  cases near with
  | some a =>
    simp only [next, passing, Option.some.injEq, Prod.mk.injEq] at h
    obtain ⟨rfl, rfl⟩ := h
    cases far <;> simp [size, remaining]
  | none =>
    cases rest with
    | nil => simp [next] at h
    | cons a rest =>
      simp only [next, passing, Option.some.injEq, Prod.mk.injEq] at h
      obtain ⟨rfl, rfl⟩ := h
      cases far <;> simp [size, remaining]

/-- Looking at the next character takes nothing. -/
theorem size_peek {c c' : Cursor} {ahead : Option Char} (h : c.peek = (ahead, c')) :
    c'.size = c.size := by
  obtain ⟨near, far, rest, offset, position⟩ := c
  cases near with
  | some a => cases h; rfl
  | none => cases rest <;> cases h <;> cases far <;> simp [size, remaining]

/-- Looking at the character after the next takes nothing. -/
theorem size_peekNext {c c' : Cursor} {ahead : Option Char} (h : c.peekNext = (ahead, c')) :
    c'.size = c.size := by
  obtain ⟨near, far, rest, offset, position⟩ := c
  cases far with
  | some a => cases h; rfl
  | none =>
    cases near with
    | some a => cases rest <;> cases h <;> simp [size, remaining]
    | none =>
      cases rest with
      | nil => cases h; rfl
      | cons a rest => cases rest <;> cases h <;> simp [size, remaining]

/-! ## Taking characters on a condition -/

/-- Take characters as long as they satisfy `p`. -/
def skipWhile (p : Char → Bool) (c : Cursor) : Cursor :=
  match hp : c.peek with
  | (none, c') => c'
  | (some ch, c') =>
    if p ch then
      match hn : c'.next with
      | none => c'
      | some (_, c'') =>
        have : c''.size < c.size := size_peek hp ▸ size_next hn
        skipWhile p c''
    else c'
termination_by c.size

/-- Take the next character if it is `ch`, and tell whether it was. -/
def accept (c : Cursor) (ch : Char) : Bool × Cursor :=
  match c.peek with
  | (ahead, c') =>
    if ahead = some ch then
      match c'.next with
      | none => (false, c')
      | some (_, c'') => (true, c'')
    else (false, c')

/-- Skipping characters does not make the rest longer. -/
theorem size_skipWhile (p : Char → Bool) (c : Cursor) : (c.skipWhile p).size ≤ c.size := by
  fun_induction skipWhile p c with
  | case1 c c' hp => exact Nat.le_of_eq (size_peek hp)
  | case2 c ch c' hp _ hn => exact Nat.le_of_eq (size_peek hp)
  | case3 c ch c' _ _ ch' c'' _ hlt ih => exact Nat.le_trans ih (Nat.le_of_lt hlt)
  | case4 c ch c' hp _ => exact Nat.le_of_eq (size_peek hp)

/-- Accepting a character, or not, does not make the rest longer. -/
theorem size_accept (c : Cursor) (ch : Char) : (c.accept ch).2.size ≤ c.size := by
  unfold accept
  split
  rename_i ahead c' hp
  split
  · split
    · exact Nat.le_of_eq (size_peek hp)
    · rename_i hn
      exact Nat.le_of_lt (size_peek hp ▸ size_next hn)
  · exact Nat.le_of_eq (size_peek hp)

end Cursor

end Treewalk
