import Treewalk.Token.Scan

/-!
# A scanner that is watched

What a scanner does to its cursor on the way cannot be seen from its results. A `Recorder` is a cursor that
notes its state before and after every operation, together with where the present token begins, and every two
offsets between which a text is cut out of the source. The scanner is written out over recorders here, operation
by operation.

It is the same scanner: without the notes it has the results of the other one, and moves the cursor in the same
way (`Recorder.scan_copies`). So what holds of all notes holds of the scanner at work.
-/

namespace Treewalk

/-! ## The loops of the scanner, round by round -/

namespace Cursor

variable {p : Char → Bool} {c c' c'' : Cursor} {ch ch' : Char}

/-- At the end, nothing is skipped. -/
theorem skipWhile_of_none (h : c.peek = (none, c')) : c.skipWhile p = c' := by
  rw [skipWhile]
  split
  next heq =>
    cases h.symm.trans heq
    rfl
  next heq => cases h.symm.trans heq

/-- A character that does not satisfy the test is not skipped. -/
theorem skipWhile_of_neg (h : c.peek = (some ch, c')) (hch : ¬p ch) : c.skipWhile p = c' := by
  rw [skipWhile]
  split
  next heq => cases h.symm.trans heq
  next heq =>
    cases h.symm.trans heq
    rw [if_neg hch]

/-- If the cursor cannot move, nothing is skipped. -/
theorem skipWhile_of_next_none (h : c.peek = (some ch, c')) (hch : p ch) (hn : c'.next = none) :
    c.skipWhile p = c' := by
  rw [skipWhile]
  split
  next heq => cases h.symm.trans heq
  next heq =>
    cases h.symm.trans heq
    rw [if_pos hch]
    split
    next => rfl
    next heq => cases hn.symm.trans heq

/-- A character that satisfies the test is skipped, and so on from behind it. -/
theorem skipWhile_of_pos (h : c.peek = (some ch, c')) (hch : p ch) (hn : c'.next = some (ch', c'')) :
    c.skipWhile p = c''.skipWhile p := by
  rw [skipWhile]
  split
  next heq => cases h.symm.trans heq
  next heq =>
    cases h.symm.trans heq
    rw [if_pos hch]
    split
    next heq => cases hn.symm.trans heq
    next heq =>
      cases hn.symm.trans heq
      rfl

end Cursor

namespace Token

open CharClass

variable {source : String} {c c' c'' : Cursor} {ch : Char}

/-- Behind the last blank, the end token is read. -/
theorem scan_of_none (h : (c.skipWhile isBlank).next = none) : scan source c =
    (.ok (between source .eof (c.skipWhile isBlank) (c.skipWhile isBlank)), c.skipWhile isBlank) := by
  rw [scan]
  dsimp only
  split
  next => rfl
  next heq => cases h.symm.trans heq

/-- What begins with anything but a slash is read by what it begins with. -/
theorem scan_of_ne (h : (c.skipWhile isBlank).next = some (ch, c')) (hch : ch ≠ '/') :
    scan source c = scanAfter source (c.skipWhile isBlank) ch c' := by
  rw [scan]
  dsimp only
  split
  next heq => cases h.symm.trans heq
  next heq =>
    cases h.symm.trans heq
    rw [if_neg hch]

/-- A slash without a second one is a token. -/
theorem scan_of_slash (h : (c.skipWhile isBlank).next = some ('/', c'))
    (ha : c'.accept '/' = (false, c'')) :
    scan source c = (.ok (between source .slash (c.skipWhile isBlank) c''), c'') := by
  rw [scan]
  dsimp only
  split
  next heq => cases h.symm.trans heq
  next heq =>
    cases h.symm.trans heq
    rw [if_pos rfl]
    split
    next heq =>
      cases ha.symm.trans heq
      rfl
    next heq => cases ha.symm.trans heq

/-- A comment is skipped, and the scanner goes on behind it. -/
theorem scan_of_comment (h : (c.skipWhile isBlank).next = some ('/', c'))
    (ha : c'.accept '/' = (true, c'')) :
    scan source c = scan source (c''.skipWhile (· != '\n')) := by
  rw [scan]
  dsimp only
  split
  next heq => cases h.symm.trans heq
  next heq =>
    cases h.symm.trans heq
    rw [if_pos rfl]
    split
    next heq => cases ha.symm.trans heq
    next heq =>
      cases ha.symm.trans heq
      rfl

end Token

/-! ## Recorders -/

/-- What a scanner can do to its cursor. -/
inductive Cursor.Operation where
  | next | peek | peekNext

/-- The character that an operation comes upon, and the cursor after it. -/
def Cursor.perform (c : Cursor) : Operation → Option Char × Cursor
  | .next =>
    match c.next with
    | some (ch, c') => (some ch, c')
    | none => (none, c)
  | .peek => c.peek
  | .peekNext => c.peekNext

/-- What is seen of a scanner at work. -/
inductive Moment where
  /-- Before or after an operation of the cursor; the token that is being read begins at the byte `start`. -/
  | moving (start : Nat) (cursor : Cursor)
  /-- The text between two byte offsets is cut out, be it all of a token or what a string has between its
  quotes. -/
  | cutting (first last : Nat)

/-- A cursor that is watched while it reads a text. -/
structure Recorder where
  cursor : Cursor
  /-- Where the token begins that is being read. -/
  start : Cursor
  /-- What has been seen, the latest first. -/
  moments : List Moment

namespace Recorder

/-- Before the first character of a text. -/
def ofString (text : String) : Recorder :=
  ⟨.ofString text, .ofString text, []⟩

/-- Note the state of the cursor. -/
def note (r : Recorder) : Recorder :=
  { r with moments := .moving r.start.offset r.cursor :: r.moments }

/-- An operation of the cursor, with the states before and after it noted. -/
def perform (r : Recorder) (operation : Cursor.Operation) : Option Char × Recorder :=
  let (ahead, cursor) := r.cursor.perform operation
  (ahead, { r.note with cursor }.note)

/-- A token begins here. -/
def begin (r : Recorder) : Recorder :=
  { r with start := r.cursor }

/-- Cut a text out of the source. -/
def cut (source : String) (first last : Nat) (r : Recorder) : String × Recorder :=
  (Token.slice source first last, { r with moments := .cutting first last :: r.moments })

/-- The token that ends here, without a value. -/
def token (source : String) (kind : Kind) (r : Recorder) : Token × Recorder :=
  let (lexeme, r') := r.cut source r.start.offset r.cursor.offset
  (⟨kind, lexeme, none, r.start.position, r.cursor.position⟩, r')

variable {r r' : Recorder} {operation : Cursor.Operation} {ahead : Option Char}

/-- A recorder does with its cursor what it is told to, and the token begins where it did. -/
theorem perform_inv (h : r.perform operation = (ahead, r')) :
    r.cursor.perform operation = (ahead, r'.cursor) ∧ r'.start = r.start := by
  cases h
  exact ⟨rfl, rfl⟩

/-- A watched step that gives a character is the step of the cursor. -/
theorem next_of_perform {ch : Char} (h : r.perform .next = (some ch, r')) :
    r.cursor.next = some (ch, r'.cursor) := by
  have hcursor := (perform_inv h).1
  unfold Cursor.perform at hcursor
  dsimp only at hcursor
  split at hcursor
  next hnext =>
    cases hcursor
    exact hnext
  next => cases hcursor

/-- A watched step that gives no character leaves the cursor where it is. -/
theorem next_of_perform_none (h : r.perform .next = (none, r')) :
    r.cursor.next = none ∧ r'.cursor = r.cursor := by
  have hcursor := (perform_inv h).1
  unfold Cursor.perform at hcursor
  dsimp only at hcursor
  split at hcursor
  next => cases hcursor
  next hnext => exact ⟨hnext, (congrArg Prod.snd hcursor).symm⟩

/-- A watched look at the next character is the look of the cursor. -/
theorem peek_of_perform (h : r.perform .peek = (ahead, r')) : r.cursor.peek = (ahead, r'.cursor) :=
  (perform_inv h).1

/-- A watched look at the character after the next is the look of the cursor. -/
theorem peekNext_of_perform (h : r.perform .peekNext = (ahead, r')) :
    r.cursor.peekNext = (ahead, r'.cursor) :=
  (perform_inv h).1

/-! ## The scanner over recorders -/

/-- Take characters as long as they satisfy `p`. -/
def skipWhile (p : Char → Bool) (r : Recorder) : Recorder :=
  match hp : r.perform .peek with
  | (none, r') => r'
  | (some ch, r') =>
    if p ch then
      match hn : r'.perform .next with
      | (none, r'') => r''
      | (some _, r'') =>
        have : r''.cursor.size < r.cursor.size :=
          Cursor.size_peek (peek_of_perform hp) ▸ Cursor.size_next (next_of_perform hn)
        skipWhile p r''
    else r'
termination_by r.cursor.size

/-- Take the next character if it is `ch`, and tell whether it was. -/
def accept (r : Recorder) (ch : Char) : Bool × Recorder :=
  match r.perform .peek with
  | (ahead, r') =>
    if ahead = some ch then
      match r'.perform .next with
      | (none, r'') => (false, r'')
      | (some _, r'') => (true, r'')
    else (false, r')

open CharClass

/-- The rest of a string whose opening quote has been taken. -/
def scanString (source : String) (r : Recorder) : Except LexicalError Token × Recorder :=
  match (r.skipWhile (· != '"')).perform .next with
  | (none, r') => (.error (.unterminatedString r'.start.position), r')
  | (some _, r') =>
    let (value, r') := r'.cut source (r'.start.offset + 1) (r'.cursor.offset - 1)
    let (token, r') := r'.token source .string
    (.ok { token with literal := some (.string value) }, r')

/-- The end of a number whose first digit has been taken. -/
def numberEnd (r : Recorder) : Recorder :=
  match (r.skipWhile Char.isDigit).perform .peek with
  | (some '.', r') =>
    match r'.perform .peekNext with
    | (some d, r') =>
      if d.isDigit then
        match r'.perform .next with
        | (some _, r') => r'.skipWhile Char.isDigit
        | (none, r') => r'
      else r'
    | (none, r') => r'
  | (_, r') => r'

/-- The rest of a number whose first digit has been taken. -/
def scanNumber (source : String) (r : Recorder) : Token × Recorder :=
  let (token, r') := r.numberEnd.token source .number
  ({ token with literal := some (.number (Number.ofNumeral token.lexeme.toList)) }, r')

/-- The rest of a name or keyword whose first character has been taken. -/
def scanWord (source : String) (r : Recorder) : Token × Recorder :=
  let (token, r') := (r.skipWhile isNamePart).token source .identifier
  ({ token with kind := Kind.ofWord token.lexeme }, r')

/-- A token that is complete. -/
def scanned (source : String) (kind : Kind) (r : Recorder) : Except LexicalError Token × Recorder :=
  let (token, r') := r.token source kind
  (.ok token, r')

/-- The token whose first character `ch`, not a slash, has been taken. -/
def scanAfter (source : String) (ch : Char) (r : Recorder) : Except LexicalError Token × Recorder :=
  match Kind.ofSingle? ch with
  | some kind => r.scanned source kind
  | none =>
    match Kind.ofPair? ch with
    | some (alone, withEqual) =>
      match r.accept '=' with
      | (true, r') => r'.scanned source withEqual
      | (false, r') => r'.scanned source alone
    | none =>
      if ch = '"' then
        r.scanString source
      else if ch.isDigit then
        let (token, r') := r.scanNumber source
        (.ok token, r')
      else if isNameStart ch then
        let (token, r') := r.scanWord source
        (.ok token, r')
      else
        (.error (.unexpectedCharacter r.start.position ch), r)

/-! ## The notes make no difference -/

/-- Watched skipping moves the cursor as skipping does, within the same token. -/
theorem skipWhile_copies (p : Char → Bool) (r : Recorder) :
    (r.skipWhile p).cursor = r.cursor.skipWhile p ∧ (r.skipWhile p).start = r.start := by
  fun_induction skipWhile p r with
  | case1 r r' hp =>
    exact ⟨(Cursor.skipWhile_of_none (peek_of_perform hp)).symm, (perform_inv hp).2⟩
  | case2 r ch r' hp hch r'' hn =>
    obtain ⟨hnext, hsame⟩ := next_of_perform_none hn
    refine ⟨?_, (perform_inv hn).2.trans (perform_inv hp).2⟩
    rw [Cursor.skipWhile_of_next_none (peek_of_perform hp) hch hnext, hsame]
  | case3 r ch r' hp hch ch' r'' hn _ ih =>
    refine ⟨?_, ih.2.trans ((perform_inv hn).2.trans (perform_inv hp).2)⟩
    rw [Cursor.skipWhile_of_pos (peek_of_perform hp) hch (next_of_perform hn), ih.1]
  | case4 r ch r' hp hch =>
    exact ⟨(Cursor.skipWhile_of_neg (peek_of_perform hp) hch).symm, (perform_inv hp).2⟩

/-- Watched accepting answers and moves the cursor as accepting does, within the same token. -/
theorem accept_inv {ch : Char} {yes : Bool} (h : r.accept ch = (yes, r')) :
    r.cursor.accept ch = (yes, r'.cursor) ∧ r'.start = r.start := by
  unfold accept at h
  unfold Cursor.accept
  rcases hp : r.perform .peek with ⟨ahead, r₁⟩
  rw [hp] at h
  rw [peek_of_perform hp, ← (perform_inv hp).2]
  dsimp only at h ⊢
  by_cases hahead : ahead = some ch
  · rw [if_pos hahead] at h ⊢
    rcases hn : r₁.perform .next with ⟨_ | ch', r₂⟩
    · obtain ⟨hnext, hsame⟩ := next_of_perform_none hn
      rw [hn] at h
      cases h
      rw [hnext, hsame]
      exact ⟨rfl, (perform_inv hn).2⟩
    · rw [hn] at h
      cases h
      rw [next_of_perform hn]
      exact ⟨rfl, (perform_inv hn).2⟩
  · rw [if_neg hahead] at h ⊢
    cases h
    exact ⟨rfl, rfl⟩

/-- Without the notes, a watched scanner that goes on from `r` comes to what the other scanner comes to. -/
structure Copies {α : Type} (r : Recorder) (out : α × Recorder) (plain : α × Cursor) : Prop where
  result : out.1 = plain.1
  cursor : out.2.cursor = plain.2
  start : out.2.start = r.start

/-- A watched token of one kind is the token between the two cursors. -/
theorem scanned_copies (source : String) (kind : Kind) (r : Recorder) :
    Copies r (r.scanned source kind)
      (.ok (Token.between source kind r.start r.cursor), r.cursor) :=
  ⟨rfl, rfl, rfl⟩

/-- The watched scanner reads strings as the scanner does. -/
theorem scanString_copies (source : String) (r : Recorder) :
    Copies r (r.scanString source) (Token.scanString source r.start r.cursor) := by
  obtain ⟨hcursor, hstart⟩ := skipWhile_copies (· != '"') r
  unfold scanString Token.scanString
  rw [← hcursor, ← hstart]
  dsimp only
  rcases hn : (r.skipWhile (· != '"')).perform .next with ⟨_ | ch, r'⟩
  · obtain ⟨hnext, hsame⟩ := next_of_perform_none hn
    rw [hnext, ← (perform_inv hn).2]
    exact ⟨rfl, hsame, (perform_inv hn).2.trans hstart⟩
  · rw [next_of_perform hn, ← (perform_inv hn).2]
    exact ⟨rfl, rfl, (perform_inv hn).2.trans hstart⟩

/-- The watched scanner finds the end of a number as the scanner does. -/
theorem numberEnd_copies (r : Recorder) :
    r.numberEnd.cursor = Token.numberEnd r.cursor ∧ r.numberEnd.start = r.start := by
  obtain ⟨hcursor, hstart⟩ := skipWhile_copies Char.isDigit r
  unfold numberEnd Token.numberEnd
  rw [← hcursor, ← hstart]
  dsimp only
  rcases hp : (r.skipWhile Char.isDigit).perform .peek with ⟨ahead, r₁⟩
  rw [peek_of_perform hp, ← (perform_inv hp).2]
  by_cases hpoint : ahead = some '.'
  · subst hpoint
    simp only
    rcases hq : r₁.perform .peekNext with ⟨_ | d, r₂⟩
    · rw [peekNext_of_perform hq]
      exact ⟨rfl, (perform_inv hq).2⟩
    · rw [peekNext_of_perform hq, ← (perform_inv hq).2]
      dsimp only
      by_cases hd : d.isDigit = true
      · rw [if_pos hd, if_pos hd]
        rcases hn : r₂.perform .next with ⟨_ | ch, r₃⟩
        · obtain ⟨hnext, hsame⟩ := next_of_perform_none hn
          rw [hnext]
          exact ⟨hsame, (perform_inv hn).2⟩
        · obtain ⟨hcursor, hstart⟩ := skipWhile_copies Char.isDigit r₃
          rw [next_of_perform hn]
          exact ⟨hcursor, hstart.trans (perform_inv hn).2⟩
      · rw [if_neg hd, if_neg hd]
        exact ⟨rfl, rfl⟩
  · split
    next heq =>
      cases heq
      exact absurd rfl hpoint
    next heq =>
      cases heq
      refine ⟨?_, rfl⟩
      split
      next heq =>
        cases heq
        exact absurd rfl hpoint
      next heq =>
        cases heq
        rfl

/-- The watched scanner reads numbers as the scanner does. -/
theorem scanNumber_copies (source : String) (r : Recorder) :
    Copies r (r.scanNumber source) (Token.scanNumber source r.start r.cursor) := by
  obtain ⟨hcursor, hstart⟩ := numberEnd_copies r
  unfold scanNumber Token.scanNumber
  rw [← hcursor, ← hstart]
  exact ⟨rfl, rfl, hstart⟩

/-- The watched scanner reads words as the scanner does. -/
theorem scanWord_copies (source : String) (r : Recorder) :
    Copies r (r.scanWord source) (Token.scanWord source r.start r.cursor) := by
  obtain ⟨hcursor, hstart⟩ := skipWhile_copies isNamePart r
  unfold scanWord Token.scanWord
  rw [← hcursor, ← hstart]
  exact ⟨rfl, rfl, hstart⟩

/-- The watched scanner reads by the first character what the scanner reads by it. -/
theorem scanAfter_copies (source : String) (ch : Char) (r : Recorder) :
    Copies r (r.scanAfter source ch) (Token.scanAfter source r.start ch r.cursor) := by
  unfold scanAfter Token.scanAfter
  cases Kind.ofSingle? ch with
  | some kind => exact scanned_copies source kind r
  | none =>
    cases Kind.ofPair? ch with
    | some pair =>
      rcases hr : r.accept '=' with ⟨yes, r'⟩
      obtain ⟨hplain, hstart⟩ := accept_inv hr
      rw [hplain, ← hstart]
      cases yes with
      | true => exact ⟨rfl, rfl, hstart⟩
      | false => exact ⟨rfl, rfl, hstart⟩
    | none =>
      dsimp only
      by_cases hquote : ch = '"'
      · rw [if_pos hquote, if_pos hquote]
        exact scanString_copies source r
      · rw [if_neg hquote, if_neg hquote]
        by_cases hdigit : ch.isDigit = true
        · rw [if_pos hdigit, if_pos hdigit]
          have hnumber := scanNumber_copies source r
          exact ⟨congrArg Except.ok hnumber.result, hnumber.cursor, hnumber.start⟩
        · rw [if_neg hdigit, if_neg hdigit]
          by_cases hname : isNameStart ch = true
          · rw [if_pos hname, if_pos hname]
            have hword := scanWord_copies source r
            exact ⟨congrArg Except.ok hword.result, hword.cursor, hword.start⟩
          · rw [if_neg hname, if_neg hname]
            exact ⟨rfl, rfl, rfl⟩

/-! ## Whole tokens -/

/-- Before a token, the blanks are skipped. -/
theorem cursor_lead (r : Recorder) :
    (r.skipWhile isBlank).begin.cursor = r.cursor.skipWhile isBlank :=
  (skipWhile_copies isBlank r).1

/-- A token begins behind the blanks. -/
theorem start_lead (r : Recorder) :
    (r.skipWhile isBlank).begin.start = r.cursor.skipWhile isBlank :=
  (skipWhile_copies isBlank r).1

/-- A comment that is skipped leaves less of the text. -/
theorem size_comment {ch : Char} {r'' : Recorder}
    (hn : (r.skipWhile isBlank).begin.perform .next = (some ch, r'))
    (ha : r'.accept '/' = (true, r'')) :
    (r''.skipWhile (· != '\n')).cursor.size < r.cursor.size := by
  have hnext := next_of_perform hn
  rw [cursor_lead] at hnext
  rw [(skipWhile_copies _ r'').1]
  exact Token.size_comment hnext (accept_inv ha).1

/-- The next token of a text, and the recorder behind it. -/
def scan (source : String) (r : Recorder) : Except LexicalError Token × Recorder :=
  match hn : (r.skipWhile isBlank).begin.perform .next with
  | (none, r') => r'.scanned source .eof
  | (some ch, r') =>
    if ch = '/' then
      match ha : r'.accept '/' with
      | (false, r'') => r''.scanned source .slash
      | (true, r'') =>
        have : (r''.skipWhile (· != '\n')).cursor.size < r.cursor.size := size_comment hn ha
        scan source (r''.skipWhile (· != '\n'))
    else r'.scanAfter source ch
termination_by r.cursor.size

/-- **A watched scanner is the scanner**: it comes to the same results, and to the same cursor. -/
theorem scan_copies (source : String) (r : Recorder) :
    (r.scan source).1 = (Token.scan source r.cursor).1 ∧
      (r.scan source).2.cursor = (Token.scan source r.cursor).2 := by
  fun_induction scan source r with
  | case1 r r' hn =>
    obtain ⟨hnext, hsame⟩ := next_of_perform_none hn
    rw [cursor_lead] at hnext hsame
    have hstart := (perform_inv hn).2.trans (start_lead r)
    have hscanned := scanned_copies source .eof r'
    rw [hstart, hsame] at hscanned
    rw [Token.scan_of_none hnext]
    exact ⟨hscanned.result, hscanned.cursor⟩
  | case2 r r' r'' ha hn =>
    have hnext := next_of_perform hn
    rw [cursor_lead] at hnext
    have hstart := (accept_inv ha).2.trans ((perform_inv hn).2.trans (start_lead r))
    have hscanned := scanned_copies source .slash r''
    rw [hstart] at hscanned
    rw [Token.scan_of_slash hnext (accept_inv ha).1]
    exact ⟨hscanned.result, hscanned.cursor⟩
  | case3 r r' r'' ha hn _ ih =>
    have hnext := next_of_perform hn
    rw [cursor_lead] at hnext
    rw [Token.scan_of_comment hnext (accept_inv ha).1, ← (skipWhile_copies _ r'').1]
    exact ih
  | case4 r ch r' hn hch =>
    have hnext := next_of_perform hn
    rw [cursor_lead] at hnext
    have hstart := (perform_inv hn).2.trans (start_lead r)
    have hcopies := scanAfter_copies source ch r'
    rw [hstart] at hcopies
    rw [Token.scan_of_ne hnext hch]
    exact ⟨hcopies.result, hcopies.cursor⟩

end Recorder

end Treewalk
