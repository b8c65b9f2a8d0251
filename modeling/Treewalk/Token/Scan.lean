import Treewalk.Diagnostic
import Treewalk.Number.Decimal
import Treewalk.Text.CharClass
import Treewalk.Token.Cursor

/-!
# Scanning a program text

`scan` reads one token from a cursor, after blanks and comments. `tokenize` reads a whole text: it
notes every error, goes on behind it, and ends with the one token that marks the end.

## Main statements

`size_scan_lt`: what is not the end of the text takes at least one character, so that `tokenize`
comes to an end.
-/

namespace Treewalk

/-- A stretch of text that is no token. -/
inductive LexicalError where
  /-- A character that no token begins with. -/
  | unexpectedCharacter (position : Position) (c : Char)
  /-- A quote that is never closed. -/
  | unterminatedString (position : Position)
  deriving DecidableEq

namespace LexicalError

/-- Where the stretch begins. -/
def position : LexicalError → Position
  | unexpectedCharacter position _ => position
  | unterminatedString position => position

/-- What is wrong with it. -/
def complaint : LexicalError → Complaint
  | unexpectedCharacter _ c => .unexpectedCharacter c
  | unterminatedString _ => .unterminatedString

/-- The diagnostic for an error: it names the line on which the stretch begins. -/
def diagnostic (e : LexicalError) : Diagnostic :=
  ⟨e.position.line, .line, e.complaint⟩

end LexicalError

namespace Token

open CharClass

/-- The part of a text between two byte offsets. -/
def slice (source : String) (start stop : Nat) : String :=
  String.Pos.Raw.extract source ⟨start⟩ ⟨stop⟩

/-- The token between two cursors. -/
def between (source : String) (kind : Kind) (start stop : Cursor) : Token where
  kind := kind
  lexeme := slice source start.offset stop.offset
  literal := none
  start := start.position
  stop := stop.position

/-- The rest of a string whose opening quote has been taken. The quotes belong to the lexeme and
not to the value; nothing inside has a special meaning, line breaks included. -/
def scanString (source : String) (start c : Cursor) : Except LexicalError Token × Cursor :=
  let inside := c.skipWhile (· != '"')
  match inside.next with
  | none => (.error (.unterminatedString start.position), inside)
  | some (_, stop) =>
    let value := slice source (start.offset + 1) (stop.offset - 1)
    (.ok { between source .string start stop with literal := some (.string value) }, stop)

/-- The end of a number whose first digit has been taken: more digits, and a point with the digits
after it. A point that no digit follows is not part of the number. -/
def numberEnd (c : Cursor) : Cursor :=
  let whole := c.skipWhile Char.isDigit
  match whole.peek with
  | (some '.', c) =>
    match c.peekNext with
    | (some d, c) =>
      if d.isDigit then
        match c.next with
        | some (_, c) => c.skipWhile Char.isDigit
        | none => c
      else c
    | (none, c) => c
  | (_, c) => c

/-- The rest of a number whose first digit has been taken. -/
def scanNumber (source : String) (start c : Cursor) : Token × Cursor :=
  let stop := numberEnd c
  let token := between source .number start stop
  ({ token with literal := some (.number (Number.ofNumeral token.lexeme.toList)) }, stop)

/-- The rest of a name or keyword whose first character has been taken. -/
def scanWord (source : String) (start c : Cursor) : Token × Cursor :=
  let stop := c.skipWhile isNamePart
  let token := between source .identifier start stop
  ({ token with kind := Kind.ofWord token.lexeme }, stop)

/-- The token whose first character `ch`, not a slash, has been taken: `start` is the cursor before
it and `c` the one after it. -/
def scanAfter (source : String) (start : Cursor) (ch : Char) (c : Cursor) :
    Except LexicalError Token × Cursor :=
  match Kind.ofSingle? ch with
  | some kind => (.ok (between source kind start c), c)
  | none =>
    match Kind.ofPair? ch with
    | some (alone, withEqual) =>
      match c.accept '=' with
      | (true, c) => (.ok (between source withEqual start c), c)
      | (false, c) => (.ok (between source alone start c), c)
    | none =>
      if ch = '"' then
        scanString source start c
      else if ch.isDigit then
        let (token, c) := scanNumber source start c
        (.ok token, c)
      else if isNameStart ch then
        let (token, c) := scanWord source start c
        (.ok token, c)
      else
        (.error (.unexpectedCharacter start.position ch), c)

/-- A comment takes at least one character. -/
theorem size_comment {c c' c'' : Cursor} {ch : Char}
    (hn : (c.skipWhile isBlank).next = some (ch, c')) (ha : c'.accept '/' = (true, c'')) :
    (c''.skipWhile (· != '\n')).size < c.size := by
  have h₁ := Cursor.size_skipWhile (· != '\n') c''
  have h₂ := Cursor.size_accept c' '/'
  have h₃ := Cursor.size_next hn
  have h₄ := Cursor.size_skipWhile isBlank c
  rw [ha] at h₂
  dsimp only at h₂
  omega

/-- The next token of a text, and the cursor behind it; at the end of the text, the token that
marks the end, as often as it is asked for. Two slashes begin a comment, which ends before the next
line feed. -/
def scan (source : String) (c : Cursor) : Except LexicalError Token × Cursor :=
  let start := c.skipWhile isBlank
  match hn : start.next with
  | none => (.ok (between source .eof start start), start)
  | some (ch, c') =>
    if ch = '/' then
      match ha : c'.accept '/' with
      | (false, c'') => (.ok (between source .slash start c''), c'')
      | (true, c'') =>
        have : (c''.skipWhile (· != '\n')).size < c.size := size_comment hn ha
        scan source (c''.skipWhile (· != '\n'))
    else scanAfter source start ch c'
termination_by c.size

/-! ## Every token takes something -/

/-- Behind a string there is no more to read than at its opening quote. -/
theorem size_scanString (source : String) (start c : Cursor) :
    (scanString source start c).2.size ≤ c.size := by
  have h := Cursor.size_skipWhile (· != '"') c
  unfold scanString
  dsimp only
  split
  · exact h
  · rename_i hn
    exact Nat.le_trans (Nat.le_of_lt (Cursor.size_next hn)) h

/-- Behind the digits of a number there is no more to read than before them. -/
theorem size_numberEnd (c : Cursor) : (numberEnd c).size ≤ c.size := by
  have h := Cursor.size_skipWhile Char.isDigit c
  unfold numberEnd
  dsimp only
  split
  · rename_i c₁ hp
    have h₁ := Cursor.size_peek hp
    split
    · rename_i c₂ hq
      have h₂ := Cursor.size_peekNext hq
      split
      · split
        · rename_i c₃ hn
          have h₃ := Cursor.size_next hn
          have h₄ := Cursor.size_skipWhile Char.isDigit c₃
          omega
        · omega
      · omega
    · rename_i c₂ hq
      have h₂ := Cursor.size_peekNext hq
      omega
  · rename_i hp
    have h₁ := Cursor.size_peek hp
    omega

/-- Behind a token there is no more to read than behind its first character. -/
theorem size_scanAfter (source : String) (start : Cursor) (ch : Char) (c : Cursor) :
    (scanAfter source start ch c).2.size ≤ c.size := by
  unfold scanAfter
  split
  · exact Nat.le_refl _
  · split
    · have h := Cursor.size_accept c '='
      split <;> simp_all
    · split
      · exact size_scanString source start c
      · split
        · exact size_numberEnd c
        · split
          · exact Cursor.size_skipWhile isNamePart c
          · exact Nat.le_refl _

/-- Progress: whatever is not the end of the text takes at least one character. -/
theorem size_scan_lt (source : String) (c : Cursor) :
    (∃ t, (scan source c).1 = .ok t ∧ t.kind = .eof) ∨ (scan source c).2.size < c.size := by
  fun_induction scan source c with
  | case1 c start hn => exact .inl ⟨_, rfl, rfl⟩
  | case2 c start c' c'' ha hn =>
    have h₂ : c''.size ≤ c'.size := by simpa [ha] using Cursor.size_accept c' '/'
    exact .inr (Nat.lt_of_le_of_lt h₂ (Nat.lt_of_lt_of_le (Cursor.size_next hn)
      (Cursor.size_skipWhile isBlank c)))
  | case3 c start c' c'' ha hn hlt ih => exact ih.imp_right fun h => Nat.lt_trans h hlt
  | case4 c start ch c' hn hch =>
    exact .inr (Nat.lt_of_le_of_lt (size_scanAfter source start ch c')
      (Nat.lt_of_lt_of_le (Cursor.size_next hn) (Cursor.size_skipWhile isBlank c)))

/-! ## Whole texts -/

/-- The tokens of a text and what was wrong with it, each in the order of the text. -/
structure Scanned where
  tokens : Array Token
  diagnostics : Array Diagnostic

/-- Read tokens until the end of the text, adding to what has been read. -/
def scanAll (source : String) (c : Cursor) (acc : Scanned) : Scanned :=
  match h : scan source c with
  | (.ok t, c') =>
    if hk : t.kind = .eof then
      { acc with tokens := acc.tokens.push t }
    else
      have : c'.size < c.size := by
        have hs := size_scan_lt source c
        simp only [h, Except.ok.injEq] at hs
        exact hs.resolve_left fun ⟨_, ht, he⟩ => hk (ht ▸ he)
      scanAll source c' { acc with tokens := acc.tokens.push t }
  | (.error e, c') =>
    have : c'.size < c.size := by
      have hs := size_scan_lt source c
      simp only [h] at hs
      exact hs.resolve_left fun ⟨_, ht, _⟩ => nomatch ht
    scanAll source c' { acc with diagnostics := acc.diagnostics.push e.diagnostic }
termination_by c.size

/-- Read a whole text. The last token, and only it, marks the end. -/
def tokenize (source : String) : Scanned :=
  scanAll source (.ofString source) ⟨#[], #[]⟩

end Token

end Treewalk
