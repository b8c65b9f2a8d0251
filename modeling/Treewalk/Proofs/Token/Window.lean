import Treewalk.Proofs.Token.Concatenation
import Treewalk.Proofs.Token.Recorder

/-!
# The window is never seen

A scanner looks up to two characters ahead and counts bytes, and cuts texts out of the source by these counts. So
it could lose or double a character between the window and the rest, cut a character in two, or take the end of
the text for something else. It does none of this, whatever the text is and however often it is called, also when
there is nothing left to read (`scan_reads_safely`): whenever it does anything, the window and the rest are the end
of the text that begins at the byte that it has come to (`Cursor.Intact`), and every text that it cuts out begins
and ends between two characters.

The watched scanner makes this a statement about all of its notes: every operation keeps a recorder `Sound`, and
so does everything that is put together from operations.
-/

namespace Treewalk

open Cursor

/-- While a token is read that begins at the byte `start`, the window is filled from its front; the window and the
rest are the text from the byte `offset` on; the offsets are in order, in the text, and between two characters; and
they tell the end of the text. -/
structure Cursor.Intact (source : String) (start : Nat) (c : Cursor) : Prop where
  window : c.near = none → c.far = none
  text : ∃ before, source.toList = before ++ (c.near.toList ++ (c.far.toList ++ c.rest)) ∧
    String.utf8Len before = c.offset
  start_le : start ≤ c.offset
  offset_le : c.offset ≤ source.utf8ByteSize
  start_valid : String.Pos.Raw.IsValid source ⟨start⟩
  offset_valid : String.Pos.Raw.IsValid source ⟨c.offset⟩
  end_iff : source.utf8ByteSize ≤ c.offset ↔ c.near = none ∧ c.far = none ∧ c.rest = []

/-- What is seen is in order: the cursor is intact, or a text is cut out between characters. -/
def Moment.Sound (source : String) : Moment → Prop
  | moving start c => c.Intact source start
  | cutting first last => first ≤ last ∧ String.Pos.Raw.IsValid source ⟨first⟩ ∧
      String.Pos.Raw.IsValid source ⟨last⟩

variable {source : String} {c c' : Cursor} {cs : List Char}

namespace Cursor

/-! ## Faithful cursors are intact -/

/-- The byte that a faithful cursor has come to is between two characters. -/
theorem Faithful.valid (h : c.Faithful source) : String.Pos.Raw.IsValid source ⟨c.offset⟩ := by
  obtain ⟨before, hsource, hoffset⟩ := h.taken
  rw [String.Pos.Raw.isValid_iff_exists_append]
  refine ⟨String.ofList before, String.ofList c.remaining, ?_, ?_⟩
  · rw [← String.ofList_append, ← hsource, String.ofList_toList]
  · apply String.Pos.Raw.ext
    rw [hoffset]
    exact (String.utf8ByteSize_ofList before).symm

/-- A faithful cursor has come to the last byte exactly if no character is left. -/
theorem Faithful.end_iff (h : c.Faithful source) :
    source.utf8ByteSize ≤ c.offset ↔ c.remaining = [] := by
  obtain ⟨before, hsource, hoffset⟩ := h.taken
  have hsize : source.utf8ByteSize = c.offset + String.utf8Len c.remaining := by
    rw [← String.utf8Len_toList, hsource, String.utf8Len_append, hoffset]
  rw [hsize, ← String.utf8Len_eq_zero]
  omega

/-- A cursor is intact after whatever it took from where the token begins. -/
theorem Took.intact {start : Cursor} (h : Took source start cs c) (hstart : start.Faithful source) :
    c.Intact source start.offset where
  window := h.faithful.window
  text := by
    obtain ⟨before, hsource, hoffset⟩ := h.faithful.taken
    exact ⟨before, hsource, hoffset.symm⟩
  start_le := by
    rw [h.offset]
    exact Nat.le_add_right _ _
  offset_le := h.faithful.valid.le_rawEndPos
  start_valid := hstart.valid
  offset_valid := h.faithful.valid
  end_iff := by
    rw [h.faithful.end_iff]
    simp [Cursor.remaining]

/-- Every operation takes some characters, or none. -/
theorem exists_took_perform (h : c.Faithful source) (operation : Operation) :
    ∃ cs, Took source c cs (c.perform operation).2 := by
  cases operation with
  | next =>
    unfold perform
    dsimp only
    split
    next hnext => exact ⟨_, took_of_next h hnext⟩
    next => exact ⟨_, .refl h⟩
  | peek => exact ⟨_, took_peek h⟩
  | peekNext => exact ⟨_, took_peekNext h⟩

end Cursor

/-! ## Recorders stay sound -/

namespace Recorder

/-- The token begins before the cursor, in the same text, and all that has been seen is in order. -/
structure Sound (source : String) (r : Recorder) : Prop where
  start : r.start.Faithful source
  took : ∃ cs, Took source r.start cs r.cursor
  moments : ∀ m ∈ r.moments, m.Sound source

/-- The recorder that a text is begun with is sound. -/
theorem ofString_sound (source : String) : (ofString source).Sound source where
  start := ofString_faithful source
  took := ⟨[], .refl (ofString_faithful source)⟩
  moments _ hm := absurd hm List.not_mem_nil

namespace Sound

variable {r r' : Recorder} {operation : Operation} {ahead : Option Char}

/-- The cursor of a sound recorder is faithful. -/
theorem cursor (h : r.Sound source) : r.cursor.Faithful source :=
  let ⟨_, htook⟩ := h.took
  htook.faithful

/-- Noting the state of a sound recorder keeps it sound. -/
theorem note (h : r.Sound source) : r.note.Sound source := by
  refine ⟨h.start, h.took, ?_⟩
  intro m hm
  rcases List.mem_cons.1 hm with rfl | hm
  · obtain ⟨cs, htook⟩ := h.took
    exact htook.intact h.start
  · exact h.moments m hm

/-- **Every operation keeps a recorder sound.** -/
theorem perform (h : r.Sound source) (hr : r.perform operation = (ahead, r')) : r'.Sound source := by
  obtain ⟨cs, htook⟩ := h.took
  obtain ⟨ds, hoperation⟩ := exists_took_perform htook.faithful operation
  have hmoved : Sound source { r.note with cursor := (r.cursor.perform operation).2 } :=
    ⟨h.start, ⟨_, htook.trans hoperation⟩, h.note.moments⟩
  cases hr
  exact hmoved.note

/-- Beginning a token keeps a recorder sound. -/
theorem begin (h : r.Sound source) : r.begin.Sound source :=
  ⟨h.cursor, ⟨[], .refl h.cursor⟩, h.moments⟩

/-- Cutting out a text keeps a recorder sound, if the text begins and ends between two characters. -/
theorem cut (h : r.Sound source) {first last : Nat} (hcut : (Moment.cutting first last).Sound source) :
    (r.cut source first last).2.Sound source := by
  refine ⟨h.start, h.took, ?_⟩
  intro m hm
  rcases List.mem_cons.1 hm with rfl | hm
  · exact hcut
  · exact h.moments m hm

/-- Making a token keeps a recorder sound, since its text is cut out between two faithful cursors. -/
theorem token (h : r.Sound source) (kind : Kind) : (r.token source kind).2.Sound source := by
  obtain ⟨cs, htook⟩ := h.took
  have hintact := htook.intact h.start
  exact h.cut ⟨hintact.start_le, hintact.start_valid, hintact.offset_valid⟩

/-! ## Loops and tokens -/

/-- Skipping keeps a recorder sound. -/
theorem skipWhile (p : Char → Bool) (h : r.Sound source) : (r.skipWhile p).Sound source := by
  fun_induction Recorder.skipWhile p r with
  | case1 r r' hp => exact h.perform hp
  | case2 r ch r' hp hch r'' hn => exact (h.perform hp).perform hn
  | case3 r ch r' hp hch ch' r'' hn _ ih => exact ih ((h.perform hp).perform hn)
  | case4 r ch r' hp hch => exact h.perform hp

/-- Accepting a character keeps a recorder sound. -/
theorem accept {ch : Char} {yes : Bool} (h : r.Sound source) (hr : r.accept ch = (yes, r')) :
    r'.Sound source := by
  unfold Recorder.accept at hr
  rcases hp : r.perform .peek with ⟨ahead, r₁⟩
  rw [hp] at hr
  dsimp only at hr
  split at hr
  next =>
    rcases hn : r₁.perform .next with ⟨_ | ch', r₂⟩
    · rw [hn] at hr
      cases hr
      exact (h.perform hp).perform hn
    · rw [hn] at hr
      cases hr
      exact (h.perform hp).perform hn
  next =>
    cases hr
    exact h.perform hp

/-- Going to the end of a number keeps a recorder sound. -/
theorem numberEnd (h : r.Sound source) : r.numberEnd.Sound source := by
  have hdigits := h.skipWhile Char.isDigit
  unfold Recorder.numberEnd
  split
  next r₁ hp =>
    split
    next d r₂ hq =>
      split
      next =>
        split
        next hn => exact (((hdigits.perform hp).perform hq).perform hn).skipWhile _
        next hn => exact ((hdigits.perform hp).perform hq).perform hn
      next => exact (hdigits.perform hp).perform hq
    next hq => exact (hdigits.perform hp).perform hq
  next hp => exact hdigits.perform hp

/-- Reading a token of one kind keeps a recorder sound. -/
theorem scanned (h : r.Sound source) (kind : Kind) : (r.scanned source kind).2.Sound source :=
  h.token kind

/-- Between its quotes a string begins behind the first one, and ends in front of the second. -/
theorem scanString (h : r.Sound source) (hquote : Took source r.start ['"'] r.cursor) :
    (r.scanString source).2.Sound source := by
  have hinside := h.skipWhile (· != '"')
  obtain ⟨hcursor, hstart⟩ := skipWhile_copies (· != '"') r
  unfold Recorder.scanString
  rcases hn : (r.skipWhile (· != '"')).perform .next with ⟨_ | ch, r'⟩
  · exact hinside.perform hn
  · have hskip := took_skipWhile (· != '"') hquote.faithful
    have hnext := next_of_perform hn
    rw [hcursor] at hnext
    have hclose := took_of_next hskip.faithful hnext
    have hch : ch = '"' := by
      have hhead := List.head?_dropWhile_not (· != '"') r.cursor.remaining
      rw [← remaining_skipWhile _ hquote.faithful, hclose.remaining] at hhead
      simpa using hhead
    have hfirst : r'.start.offset + 1 = r.cursor.offset := by
      rw [(perform_inv hn).2, hstart, hquote.offset]
      rfl
    have hlast : r'.cursor.offset - 1 = (r.cursor.skipWhile (· != '"')).offset := by
      rw [hclose.offset, hch]
      exact Nat.add_sub_cancel _ _
    have hcut : (Moment.cutting (r'.start.offset + 1) (r'.cursor.offset - 1)).Sound source := by
      rw [hfirst, hlast]
      refine ⟨?_, hquote.faithful.valid, hskip.faithful.valid⟩
      rw [hskip.offset]
      exact Nat.le_add_right _ _
    exact ((hinside.perform hn).cut hcut).token .string

/-- Reading a token by its first character keeps a recorder sound. -/
theorem scanAfter {ch : Char} (h : r.Sound source) (hch : Took source r.start [ch] r.cursor) :
    (r.scanAfter source ch).2.Sound source := by
  unfold Recorder.scanAfter
  split
  next => exact h.scanned _
  next =>
    split
    next =>
      split
      next hr => exact (h.accept hr).scanned _
      next hr => exact (h.accept hr).scanned _
    next =>
      split
      next hquote =>
        subst hquote
        exact h.scanString hch
      next =>
        split
        next => exact h.numberEnd.token .number
        next =>
          split
          next => exact (h.skipWhile _).token .identifier
          next => exact h

/-- **The scanner keeps a recorder sound**, from one token to the next. -/
theorem scan (h : r.Sound source) : (r.scan source).2.Sound source := by
  fun_induction Recorder.scan source r with
  | case1 r r' hn => exact ((h.skipWhile _).begin.perform hn).scanned .eof
  | case2 r r' r'' ha hn => exact (((h.skipWhile _).begin.perform hn).accept ha).scanned .slash
  | case3 r r' r'' ha hn _ ih => exact ih ((((h.skipWhile _).begin.perform hn).accept ha).skipWhile _)
  | case4 r ch r' hn hch =>
    have hlead := (h.skipWhile CharClass.isBlank).begin
    have hfirst := took_of_next hlead.cursor (next_of_perform hn)
    refine (hlead.perform hn).scanAfter ?_
    rw [(perform_inv hn).2]
    exact hfirst

end Sound

end Recorder

/-! ## From call to call -/

namespace Reader

open Token

/-- The place in a text after so many calls of the scanner that has no window. -/
def after (source : String) : Nat → Reader
  | 0 => .ofString source
  | n + 1 => (after source n).scan.2

/-- At the end of a text the scanner stays where it is. -/
theorem scan_again {r r' : Reader} {t : Token} (h : r.scan = (.ok t, r')) (hk : t.kind = .eof) :
    r'.scan = (.ok t, r') := by
  obtain ⟨skipped, rest, -, -, -, hscan⟩ := r.exists_scan_eq
  rw [hscan] at h
  cases rest with
  | nil =>
    cases h
    exact scan_end rfl
  | cons ch more => exact absurd hk (kind_ne_eof_of_scanAt (congrArg Prod.fst h))

end Reader

namespace Token

/-- A scanner that is watched from the start of a text on, after so many calls. -/
def watched (source : String) : Nat → Recorder
  | 0 => .ofString source
  | n + 1 => ((watched source n).scan source).2

/-- After any number of calls, the watched scanner has come to where the scanner has. -/
theorem cursor_watched (source : String) (n : Nat) : (watched source n).cursor = place source n := by
  induction n with
  | zero => rfl
  | succ n ih =>
    rw [place, ← ih]
    exact (Recorder.scan_copies source _).2

/-- After any number of calls, the recorder is sound. -/
theorem sound_watched (source : String) (n : Nat) : (watched source n).Sound source := by
  induction n with
  | zero => exact Recorder.ofString_sound source
  | succ n ih => exact ih.scan

/-- After any number of calls, the scanner has come to where the one without a window has. -/
theorem reader_place (source : String) (n : Nat) : (place source n).reader = Reader.after source n := by
  induction n with
  | zero => rfl
  | succ n ih =>
    rw [Reader.after, ← ih]
    exact (scan_eq (place_faithful source n)).2.1

/-- With less text left, more of it has been taken. -/
theorem offset_lt_of_size_lt (h : c.Faithful source) (h' : c'.Faithful source) (hsize : c'.size < c.size) :
    c.offset < c'.offset := by
  obtain ⟨before, hsource, hoffset⟩ := h.taken
  obtain ⟨before', hsource', hoffset'⟩ := h'.taken
  have hlength := congrArg List.length (hsource.symm.trans hsource')
  simp only [List.length_append] at hlength
  unfold size at hsize
  have hprefix : before <+: before' :=
    List.prefix_of_prefix_length_le ⟨_, hsource.symm⟩ ⟨_, hsource'.symm⟩ (by omega)
  obtain ⟨taken, rfl⟩ := hprefix
  have htaken : taken ≠ [] := by
    rintro rfl
    simp only [List.append_nil] at hlength
    omega
  have hpos : String.utf8Len taken ≠ 0 := by rwa [Ne, String.utf8Len_eq_zero]
  rw [hoffset, hoffset', String.utf8Len_append]
  omega

/-- The end of a text is found again by every later call. -/
theorem scan_place_eof {n : Nat} {t : Token} (h : (scan source (place source n)).1 = .ok t)
    (hk : t.kind = .eof) (k : Nat) : (scan source (place source (n + k))).1 = .ok t := by
  have hcall (m : Nat) : (scan source (place source m)).1 = (Reader.after source m).scan.1 := by
    rw [← reader_place]
    exact (scan_eq (place_faithful source m)).1
  rw [hcall] at h ⊢
  have hstay : (Reader.after source (n + k)).scan = (.ok t, Reader.after source (n + k + 1)) := by
    induction k with
    | zero => exact Prod.ext h rfl
    | succ k ih =>
      have hagain : (Reader.after source (n + k + 1)).scan.1 = .ok t :=
        congrArg Prod.fst (Reader.scan_again ih hk)
      exact Prod.ext hagain rfl
  exact congrArg Prod.fst hstay

/-- **A call that does not come upon the end takes something.** -/
theorem offset_place_lt {n : Nat}
    (h : ∀ t, (scan source (place source n)).1 = .ok t → t.kind ≠ .eof) :
    (place source n).offset < (place source (n + 1)).offset := by
  refine offset_lt_of_size_lt (place_faithful source n) (place_faithful source (n + 1)) ?_
  refine (size_scan_lt source (place source n)).resolve_left ?_
  rintro ⟨t, ht, hk⟩
  exact h t ht hk

/-- **The scanner reads safely.** However many calls of the scanner have been made in the course of reading a text,
also past its end, and whatever the cursor was doing in one of them: the cursor was intact before and after, and no
text was cut out but between characters. (The watched scanner, of which this is said, is where the scanner is and
finds the same.) A call comes upon the end of the text, as does every later one, with the same token; or it takes at
least one byte. What it finds is what a scanner finds that has no window and counts no bytes, and so are the tokens
and diagnostics of the whole text. -/
theorem scan_reads_safely (source : String) (n : Nat) :
    ((watched source n).cursor = place source n ∧
        ((watched source n).scan source).1 = (scan source (place source n)).1) ∧
      (place source n).Intact source (watched source n).start.offset ∧
      (∀ m ∈ (watched source n).moments, m.Sound source) ∧
      ((∃ t, t.kind = .eof ∧ ∀ k, (scan source (place source (n + k))).1 = .ok t) ∨
        (∀ t, (scan source (place source n)).1 = .ok t → t.kind ≠ .eof) ∧
          (place source n).offset < (place source (n + 1)).offset) ∧
      (scan source (place source n)).1 = (Reader.after source n).scan.1 ∧
      tokenize source = ⟨(Reader.ofString source).scanAll.1.toArray,
        (Reader.ofString source).scanAll.2.toArray⟩ := by
  have hcursor := cursor_watched source n
  have hsound := sound_watched source n
  refine ⟨⟨hcursor, ?_⟩, ?_, hsound.moments, ?_, ?_, tokenize_eq source⟩
  · rw [← hcursor]
    exact (Recorder.scan_copies source _).1
  · obtain ⟨cs, htook⟩ := hsound.took
    rw [← hcursor]
    exact htook.intact hsound.start
  · by_cases heof : ∃ t, (scan source (place source n)).1 = .ok t ∧ t.kind = .eof
    · obtain ⟨t, ht, hk⟩ := heof
      exact .inl ⟨t, hk, scan_place_eof ht hk⟩
    · have hne : ∀ t, (scan source (place source n)).1 = .ok t → t.kind ≠ .eof :=
        fun t ht hk => heof ⟨t, ht, hk⟩
      exact .inr ⟨hne, offset_place_lt hne⟩
  · rw [← reader_place]
    exact (scan_eq (place_faithful source n)).1

end Token

end Treewalk
