import Mathlib.Data.List.TakeWhile
import Treewalk.Proofs.Token.Cursor

/-!
# Scanning without a window

The scanner again, over a position and the list of the characters that are left (`Reader`), with
neither a window nor counts of bytes. `stretch` says how far what begins at a character reaches and
what it is, and a token is made from its kind, its characters and its position alone (`Token.made`).

On faithful cursors the scanner does the same (`scan_eq`), so that whole texts are read as this one
reads them (`tokenize_eq`). Everything else about the scanner is proved of this one.
-/

namespace Treewalk

/-- A place in a text. -/
structure Reader where
  position : Position
  rest : List Char

/-- Before the first character of a text. -/
def Reader.ofString (text : String) : Reader :=
  ⟨.start, text.toList⟩

/-- The place of a cursor. -/
def Cursor.reader (c : Cursor) : Reader :=
  ⟨c.position, c.remaining⟩

namespace Token

open CharClass

/-- What something that is neither blank nor a comment can turn out to be. -/
inductive Verdict where
  | token (kind : Kind)
  /-- A character that no token begins with. -/
  | unexpected
  /-- A quote that is never closed. -/
  | unterminated
  deriving DecidableEq

/-- A point and the digits after it, if there are any. -/
def fraction : List Char → List Char
  | '.' :: d :: more => if d.isDigit then '.' :: (d :: more).takeWhile Char.isDigit else []
  | _ => []

/-- What follows the first digit of a number and belongs to it. -/
def numberTail (rest : List Char) : List Char :=
  rest.takeWhile Char.isDigit ++ fraction (rest.dropWhile Char.isDigit)

/-- What begins with the character `ch`, and which of the characters after it belong to it. -/
def stretch (ch : Char) (rest : List Char) : Verdict × List Char :=
  match Kind.ofSingle? ch with
  | some kind => (.token kind, [])
  | none =>
    match Kind.ofPair? ch with
    | some (alone, withEqual) =>
      if rest.head? = some '=' then (.token withEqual, ['=']) else (.token alone, [])
    | none =>
      if ch = '"' then
        let inside := rest.takeWhile (· != '"')
        if '"' ∈ rest then (.token .string, inside ++ ['"']) else (.unterminated, inside)
      else if ch.isDigit then (.token .number, numberTail rest)
      else if isNameStart ch then
        let more := rest.takeWhile isNamePart
        (.token (Kind.ofWord (String.ofList (ch :: more))), more)
      else if ch = '/' then (.token .slash, [])
      else (.unexpected, [])

/-- The value of a token of a kind, given its characters. -/
def literalOf (kind : Kind) (cs : List Char) : Option Literal :=
  match kind with
  | .string => some (.string (String.ofList cs.tail.dropLast))
  | .number => some (.number (Number.ofNumeral cs))
  | _ => none

/-- The token of a kind with given characters at a position. -/
def made (kind : Kind) (p : Position) (cs : List Char) : Token :=
  ⟨kind, String.ofList cs, literalOf kind cs, p, p.past cs⟩

/-- What the scanner reports of a stretch that begins with `ch` at `p`. -/
def Verdict.result (p : Position) (ch : Char) (tail : List Char) :
    Verdict → Except LexicalError Token
  | token kind => .ok (made kind p (ch :: tail))
  | unexpected => .error (.unexpectedCharacter p ch)
  | unterminated => .error (.unterminatedString p)

end Token

namespace Reader

open CharClass Token

/-- Whether a text begins with a comment. -/
def startsComment (rest : List Char) : Bool :=
  rest.head? = some '/' && rest[1]? = some '/'

/-- Dropping leaves no more than there was. -/
theorem length_dropWhile_le (p : Char → Bool) (cs : List Char) :
    (cs.dropWhile p).length ≤ cs.length :=
  (List.dropWhile_sublist p).length_le

/-- The next token, or what is wrong, and the place behind it. -/
def scan (r : Reader) : Except LexicalError Token × Reader :=
  let p := r.position.past (r.rest.takeWhile isBlank)
  match h : r.rest.dropWhile isBlank with
  | [] => (.ok (made .eof p []), ⟨p, []⟩)
  | ch :: rest =>
    if startsComment (ch :: rest) then
      have : (rest.dropWhile (· != '\n')).length < r.rest.length := by
        have h₁ := length_dropWhile_le (· != '\n') rest
        have h₂ := length_dropWhile_le isBlank r.rest
        rw [h, List.length_cons] at h₂
        omega
      scan ⟨p.past (ch :: rest.takeWhile (· != '\n')), rest.dropWhile (· != '\n')⟩
    else
      let (verdict, tail) := stretch ch rest
      (verdict.result p ch tail, ⟨p.past (ch :: tail), rest.drop tail.length⟩)
termination_by r.rest.length

variable {r : Reader} {ch : Char} {rest : List Char}

/-- Behind the last blank, the end token is made. -/
theorem scan_end (h : r.rest.dropWhile isBlank = []) :
    r.scan = (.ok (made .eof (r.position.past (r.rest.takeWhile isBlank)) []),
      ⟨r.position.past (r.rest.takeWhile isBlank), []⟩) := by
  rw [scan]
  split
  · rfl
  · rename_i heq
    cases h.symm.trans heq

/-- A comment behind the blanks is skipped to the end of its line. -/
theorem scan_comment (h : r.rest.dropWhile isBlank = ch :: rest)
    (hc : startsComment (ch :: rest) = true) :
    r.scan = scan ⟨(r.position.past (r.rest.takeWhile isBlank)).past
      (ch :: rest.takeWhile (· != '\n')), rest.dropWhile (· != '\n')⟩ := by
  rw [scan]
  split
  · rename_i heq
    cases h.symm.trans heq
  · rename_i heq
    cases h.symm.trans heq
    rw [if_pos hc]

/-- Behind the blanks, and where no comment begins, a stretch is taken. -/
theorem scan_stretch (h : r.rest.dropWhile isBlank = ch :: rest)
    (hc : startsComment (ch :: rest) = false) :
    r.scan = ((stretch ch rest).1.result (r.position.past (r.rest.takeWhile isBlank)) ch
        (stretch ch rest).2,
      ⟨(r.position.past (r.rest.takeWhile isBlank)).past (ch :: (stretch ch rest).2),
        rest.drop (stretch ch rest).2.length⟩) := by
  rw [scan]
  split
  · rename_i heq
    cases h.symm.trans heq
  · rename_i heq
    cases h.symm.trans heq
    rw [if_neg (by simp [hc])]

end Reader

/-! ## The same on faithful cursors -/

namespace Token

open CharClass Cursor

variable {source : String} {start c : Cursor} {cs : List Char}

/-- The token between two cursors is made of the characters between them, but for its literal. -/
theorem between_eq (kind : Kind) (hstart : start.Faithful source) (h : Took source start cs c) :
    between source kind start c = { made kind start.position cs with literal := none } := by
  unfold between made
  rw [h.slice_eq hstart, h.position]

/-- What the scanner does with a stretch of text: it reports it and takes it. -/
structure Scans (source : String) (start : Cursor) (ch : Char) (c : Cursor) (verdict : Verdict)
    (tail : List Char) (out : Except LexicalError Token × Cursor) : Prop where
  result : out.1 = verdict.result start.position ch tail
  took : Took source c tail out.2

/-- A token of one character has no literal. -/
theorem literalOf_ofSingle {ch : Char} {kind : Kind} (h : Kind.ofSingle? ch = some kind)
    (cs : List Char) : literalOf kind cs = none := by
  unfold Kind.ofSingle? at h
  split at h <;> cases h <;> rfl

/-- An operator that may have an equals sign behind it has no literal. -/
theorem literalOf_ofPair {ch : Char} {alone withEqual : Kind}
    (h : Kind.ofPair? ch = some (alone, withEqual)) (cs : List Char) :
    literalOf alone cs = none ∧ literalOf withEqual cs = none := by
  unfold Kind.ofPair? at h
  split at h <;> cases h <;> exact ⟨rfl, rfl⟩

/-- A token without a literal is scanned as soon as its characters are taken. -/
theorem scans_token {kind : Kind} {ch : Char} {tail : List Char} {c' : Cursor}
    (hstart : start.Faithful source) (h : Took source start [ch] c) (h' : Took source c tail c')
    (hliteral : literalOf kind (ch :: tail) = none) :
    Scans source start ch c (.token kind) tail (.ok (between source kind start c'), c') := by
  refine ⟨?_, h'⟩
  rw [between_eq kind hstart (h.trans h')]
  simp only [Verdict.result, made, hliteral, List.singleton_append]

/-- The value of a string is what stands between its quotes. -/
theorem scans_string (hstart : start.Faithful source) (h : Took source start ['"'] c) :
    Scans source start '"' c (stretch '"' c.remaining).1 (stretch '"' c.remaining).2
      (scanString source start c) := by
  have hskip := took_skipWhile (· != '"') h.faithful
  have hrest := remaining_skipWhile (· != '"') h.faithful
  have hstretch : stretch '"' c.remaining =
      if '"' ∈ c.remaining then (.token .string, c.remaining.takeWhile (· != '"') ++ ['"'])
      else (.unterminated, c.remaining.takeWhile (· != '"')) := rfl
  have hmem : '"' ∉ c.remaining ↔ c.remaining.dropWhile (· != '"') = [] := by
    rw [List.dropWhile_eq_nil_iff]
    simp only [bne_iff_ne, ne_eq]
    exact ⟨fun hnot x hx heq => hnot (heq ▸ hx), fun hall hx => hall _ hx rfl⟩
  unfold scanString
  rcases next_cases hskip.faithful with ⟨hn, hnil⟩ | ⟨ch, stop, hn, hnext⟩
  · rw [hrest, ← hmem] at hnil
    rw [hstretch, if_neg hnil]
    simp only [hn]
    exact ⟨rfl, hskip⟩
  · have hcons := hrest.symm.trans hnext.remaining
    obtain rfl : ch = '"' := by
      have hhead := List.head?_dropWhile_not (· != '"') c.remaining
      rw [hcons] at hhead
      simpa using hhead
    have hquote : '"' ∈ c.remaining := by
      by_contra hnot
      rw [hcons] at hmem
      cases hmem.1 hnot
    have hoffset : c.offset = start.offset + 1 := h.offset
    have hstop : stop.offset - 1 = (c.skipWhile (· != '"')).offset := by
      rw [hnext.offset]
      exact Nat.add_sub_cancel _ _
    rw [hstretch, if_pos hquote]
    simp only [hn]
    refine ⟨?_, hskip.trans hnext⟩
    rw [between_eq .string hstart (h.trans (hskip.trans hnext)), ← hoffset, hstop,
      hskip.slice_eq h.faithful]
    simp [Verdict.result, made, literalOf]

/-- There is no fraction without a point. -/
theorem fraction_of_ne {ch : Char} (h : ch ≠ '.') (rest : List Char) : fraction (ch :: rest) = [] := by
  unfold fraction
  split
  · rename_i heq
    exact absurd (List.cons.inj heq).1 h
  · rfl

/-- A point with a digit behind it begins a fraction, which all digits behind it belong to. -/
theorem fraction_of_digit {d : Char} (h : d.isDigit) (more : List Char) :
    fraction ('.' :: d :: more) = '.' :: (d :: more).takeWhile Char.isDigit :=
  if_pos h

/-- The end of a number whose whole digits and the point after them have been looked at. -/
def pointEnd (c : Cursor) : Cursor :=
  match c.peekNext with
  | (some d, c) =>
    if d.isDigit then
      match c.next with
      | some (_, c) => c.skipWhile Char.isDigit
      | none => c
    else c
  | (none, c) => c

/-- The end of a number: the digits, and a fraction if there is a point behind them. -/
theorem numberEnd_eq (c : Cursor) : numberEnd c =
    if (c.skipWhile Char.isDigit).peek.1 = some '.' then pointEnd (c.skipWhile Char.isDigit).peek.2
    else (c.skipWhile Char.isDigit).peek.2 := by
  unfold numberEnd
  dsimp only
  split
  · next hpeek =>
    rw [hpeek, if_pos rfl]
    rfl
  · next hne hpeek =>
    rw [hpeek, if_neg]
    exact hne

/-- A point belongs to a number if a digit follows it, and then all digits that follow it do. -/
theorem took_pointEnd (h : c.Faithful source) {rest : List Char} (hrest : c.remaining = '.' :: rest) :
    Took source c (fraction ('.' :: rest)) (pointEnd c) := by
  have hpeek := took_peekNext h
  have hsecond := peekNext_eq h
  rw [hrest] at hsecond
  unfold pointEnd
  generalize c.peekNext = peeked at hpeek hsecond
  obtain ⟨second, c₂⟩ := peeked
  dsimp only at hpeek hsecond
  subst hsecond
  cases rest with
  | nil => exact hpeek
  | cons d more =>
    simp only [List.getElem?_cons_succ, List.getElem?_cons_zero]
    by_cases hd : d.isDigit = true
    · rw [fraction_of_digit hd, if_pos hd]
      have hremaining : c₂.remaining = '.' :: d :: more := hpeek.remaining.symm.trans hrest
      rcases next_cases hpeek.faithful with ⟨-, hnil⟩ | ⟨ch, c₃, hn, hnext⟩
      · rw [hremaining] at hnil
        cases hnil
      · obtain ⟨rfl, hmore⟩ := List.cons.inj (hremaining.symm.trans hnext.remaining)
        rw [hn, hmore]
        exact (hpeek.trans hnext).trans (took_skipWhile _ hnext.faithful)
    · simp only [fraction, if_neg hd]
      exact hpeek

/-- Going to the end of a number takes its tail. -/
theorem took_numberEnd (h : c.Faithful source) :
    Took source c (numberTail c.remaining) (numberEnd c) := by
  have hskip := took_skipWhile Char.isDigit h
  have hpeek := took_peek hskip.faithful
  have hhead := peek_eq hskip.faithful
  have hremaining := hpeek.remaining
  rw [List.nil_append] at hremaining
  unfold numberTail
  rw [numberEnd_eq, ← remaining_skipWhile Char.isDigit h]
  apply hskip.trans
  rw [hhead]
  split
  · next hpoint =>
    obtain ⟨rest, hrest⟩ := List.head?_eq_some_iff.1 hpoint
    rw [hrest]
    exact hpeek.trans (took_pointEnd hpeek.faithful (hremaining.symm.trans hrest))
  · next hpoint =>
    have hnone : fraction (c.skipWhile Char.isDigit).remaining = [] := by
      cases hrest : (c.skipWhile Char.isDigit).remaining with
      | nil => rfl
      | cons ch rest =>
        rw [hrest, List.head?_cons] at hpoint
        exact fraction_of_ne (fun heq => hpoint (congrArg some heq)) rest
    rw [hnone]
    exact hpeek

/-- A digit is scanned as the beginning of a number. -/
theorem scans_number {ch : Char} (hstart : start.Faithful source) (h : Took source start [ch] c) :
    Scans source start ch c (.token .number) (numberTail c.remaining)
      (.ok (scanNumber source start c).1, (scanNumber source start c).2) := by
  have htook := took_numberEnd h.faithful
  refine ⟨?_, htook⟩
  unfold scanNumber
  dsimp only
  rw [between_eq .number hstart (h.trans htook)]
  simp [Verdict.result, made, literalOf]

/-- The kind of a word is that of a name or of a keyword. -/
theorem ofWord_cases (word : String) :
    Kind.ofWord word = .identifier ∨ (word, Kind.ofWord word) ∈ Kind.keywords := by
  unfold Kind.ofWord
  cases hk : Kind.keywords.lookup word with
  | none => exact .inl rfl
  | some kind =>
    obtain ⟨before, after, hsplit, -⟩ := List.lookup_eq_some_iff.1 hk
    exact .inr (by simp [hsplit])

/-- A word has no literal. -/
theorem literalOf_ofWord (word : String) (cs : List Char) :
    literalOf (Kind.ofWord word) cs = none := by
  have hall : ∀ entry ∈ Kind.keywords, literalOf entry.2 cs = none := by
    simp [Kind.keywords, literalOf]
  rcases ofWord_cases word with hname | hmem
  · rw [hname]
    rfl
  · exact hall _ hmem

/-- A letter is scanned as the beginning of a word. -/
theorem scans_word {ch : Char} (hstart : start.Faithful source) (h : Took source start [ch] c) :
    Scans source start ch c
      (.token (Kind.ofWord (String.ofList (ch :: c.remaining.takeWhile isNamePart))))
      (c.remaining.takeWhile isNamePart)
      (.ok (scanWord source start c).1, (scanWord source start c).2) := by
  have htook := took_skipWhile isNamePart h.faithful
  refine ⟨?_, htook⟩
  unfold scanWord
  dsimp only
  rw [between_eq .identifier hstart (h.trans htook)]
  simp [Verdict.result, made, literalOf_ofWord]

/-- Whatever character a token begins with, the slash apart, the stretch that it begins is scanned. -/
theorem scans_after {ch : Char} (hstart : start.Faithful source) (h : Took source start [ch] c)
    (hslash : ch ≠ '/') :
    Scans source start ch c (stretch ch c.remaining).1 (stretch ch c.remaining).2
      (scanAfter source start ch c) := by
  have hnone : Took source c [] c := .refl h.faithful
  unfold scanAfter stretch
  cases hsingle : Kind.ofSingle? ch with
  | some kind => exact scans_token hstart h hnone (literalOf_ofSingle hsingle [ch])
  | none =>
    cases hpair : Kind.ofPair? ch with
    | some pair =>
      obtain ⟨alone, withEqual⟩ := pair
      obtain ⟨haccept, htook⟩ := took_accept '=' h.faithful
      dsimp only
      generalize c.accept '=' = accepted at haccept htook
      obtain ⟨yes, c'⟩ := accepted
      dsimp only at haccept htook
      by_cases hnext : c.remaining.head? = some '='
      · rw [if_pos hnext] at htook ⊢
        rw [decide_eq_true hnext] at haccept
        subst haccept
        exact scans_token hstart h htook (literalOf_ofPair hpair _).2
      · rw [if_neg hnext] at htook ⊢
        rw [decide_eq_false hnext] at haccept
        subst haccept
        exact scans_token hstart h htook (literalOf_ofPair hpair _).1
    | none =>
      dsimp only
      by_cases hquote : ch = '"'
      · subst hquote
        exact scans_string hstart h
      · rw [if_neg hquote, if_neg hquote]
        by_cases hdigit : ch.isDigit = true
        · rw [if_pos hdigit, if_pos hdigit]
          exact scans_number hstart h
        · rw [if_neg hdigit, if_neg hdigit]
          by_cases hname : isNameStart ch = true
          · rw [if_pos hname, if_pos hname]
            exact scans_word hstart h
          · rw [if_neg hname, if_neg hname, if_neg hslash]
            exact ⟨rfl, hnone⟩

/-- A slash that begins no comment is a token. -/
theorem stretch_slash (rest : List Char) : stretch '/' rest = (.token .slash, []) := by
  rfl

/-- The first character after blanks. -/
theorem took_lead {ch : Char} {c' : Cursor} (h : c.Faithful source)
    (hn : (c.skipWhile isBlank).next = some (ch, c')) :
    Took source (c.skipWhile isBlank) [ch] c' ∧
      c.reader.rest.dropWhile isBlank = ch :: c'.remaining := by
  have hnext := took_of_next (took_skipWhile isBlank h).faithful hn
  exact ⟨hnext, (remaining_skipWhile isBlank h).symm.trans hnext.remaining⟩

/-- **On faithful cursors the scanner does without its window.** -/
theorem scan_eq (h : c.Faithful source) :
    (scan source c).1 = c.reader.scan.1 ∧ (scan source c).2.reader = c.reader.scan.2 ∧
      (scan source c).2.Faithful source := by
  fun_induction scan source c with
  | case1 c start hn =>
    have hskip := took_skipWhile isBlank h
    have hnil := remaining_of_next_none hskip.faithful hn
    have hrest := remaining_skipWhile isBlank h
    rw [Reader.scan_end (r := c.reader) (hrest.symm.trans hnil),
      between_eq .eof hskip.faithful (.refl hskip.faithful), hskip.position]
    exact ⟨rfl, congrArg₂ Reader.mk hskip.position hnil, hskip.faithful⟩
  | case2 c start c' c'' ha hn =>
    have hskip := took_skipWhile isBlank h
    obtain ⟨hnext, hrest⟩ := took_lead h hn
    obtain ⟨hhead, htook⟩ := took_accept '/' hnext.faithful
    rw [ha] at hhead htook
    have hslash : c'.remaining.head? ≠ some '/' := of_decide_eq_false hhead.symm
    rw [if_neg hslash] at htook
    have hcomment : Reader.startsComment ('/' :: c'.remaining) = false := by
      rw [List.head?_eq_getElem?] at hslash
      simp [Reader.startsComment, hslash]
    have hscans : Scans source _ '/' c' (.token .slash) [] _ :=
      scans_token hskip.faithful hnext htook rfl
    rw [Reader.scan_stretch (r := c.reader) hrest hcomment, stretch_slash]
    refine ⟨?_, ?_, htook.faithful⟩
    · rw [hscans.result, hskip.position]
      rfl
    · refine congrArg₂ Reader.mk ?_ htook.drop_eq
      rw [htook.position, hnext.position, hskip.position]
      rfl
  | case3 c start c' c'' ha hn hlt ih =>
    have hskip := took_skipWhile isBlank h
    obtain ⟨hnext, hrest⟩ := took_lead h hn
    obtain ⟨hhead, htook⟩ := took_accept '/' hnext.faithful
    rw [ha] at hhead htook
    have hslash : c'.remaining.head? = some '/' := of_decide_eq_true hhead.symm
    rw [if_pos hslash] at htook
    have hcomment : Reader.startsComment ('/' :: c'.remaining) = true := by
      rw [List.head?_eq_getElem?] at hslash
      simp [Reader.startsComment, hslash]
    have hline := took_skipWhile (· != '\n') htook.faithful
    have hreader : (c''.skipWhile (· != '\n')).reader =
        ⟨(c.reader.position.past (c.reader.rest.takeWhile isBlank)).past
          ('/' :: c'.remaining.takeWhile (· != '\n')), c'.remaining.dropWhile (· != '\n')⟩ := by
      refine congrArg₂ Reader.mk ?_ ?_
      · rw [hline.position, htook.position, hnext.position, hskip.position, htook.remaining]
        rfl
      · rw [remaining_skipWhile _ htook.faithful, htook.remaining]
        rfl
    rw [Reader.scan_comment (r := c.reader) hrest hcomment, ← hreader]
    exact ih hline.faithful
  | case4 c start ch c' hn hch =>
    have hskip := took_skipWhile isBlank h
    obtain ⟨hnext, hrest⟩ := took_lead h hn
    have hcomment : Reader.startsComment (ch :: c'.remaining) = false := by
      simp [Reader.startsComment, hch]
    have hscans := scans_after hskip.faithful hnext hch
    rw [Reader.scan_stretch (r := c.reader) hrest hcomment]
    refine ⟨?_, ?_, hscans.took.faithful⟩
    · rw [hscans.result, hskip.position]
      rfl
    · refine congrArg₂ Reader.mk ?_ hscans.took.drop_eq
      rw [hscans.took.position, hnext.position, hskip.position]
      rfl

end Token

/-! ## Whole texts -/

namespace Reader

open CharClass Token

/-- Whatever is not the end takes at least one character. -/
theorem length_scan_lt (r : Reader) :
    (∃ t, r.scan.1 = .ok t ∧ t.kind = .eof) ∨ r.scan.2.rest.length < r.rest.length := by
  fun_induction scan r with
  | case1 r p h => exact .inl ⟨_, rfl, rfl⟩
  | case2 r p ch rest h hc hlt ih => exact ih.imp_right fun h => Nat.lt_trans h hlt
  | case3 r p ch rest h hc verdict tail hs =>
    have hle := length_dropWhile_le isBlank r.rest
    rw [h, List.length_cons] at hle
    refine .inr (Nat.lt_of_le_of_lt ?_ hle)
    simp

/-- The tokens of a text, and what is wrong with it. -/
def scanAll (r : Reader) : List Token × List Diagnostic :=
  match h : r.scan with
  | (.ok t, r') =>
    if hk : t.kind = .eof then ([t], [])
    else
      have : r'.rest.length < r.rest.length := by
        have hs := length_scan_lt r
        simp only [h, Except.ok.injEq] at hs
        exact hs.resolve_left fun ⟨_, ht, he⟩ => hk (ht ▸ he)
      let (ts, ds) := scanAll r'
      (t :: ts, ds)
  | (.error e, r') =>
    have : r'.rest.length < r.rest.length := by
      have hs := length_scan_lt r
      simp only [h] at hs
      exact hs.resolve_left fun ⟨_, ht, _⟩ => nomatch ht
    let (ts, ds) := scanAll r'
    (ts, e.diagnostic :: ds)
termination_by r.rest.length

variable {r r' : Reader} {t : Token} {e : LexicalError}

/-- The tokens of a text end with the end token. -/
theorem scanAll_eof (h : r.scan = (.ok t, r')) (hk : t.kind = .eof) : r.scanAll = ([t], []) := by
  rw [scanAll]
  split
  · rename_i heq
    cases h.symm.trans heq
    rw [dif_pos hk]
  · rename_i heq
    cases h.symm.trans heq

/-- A token that is read comes before those that are read behind it. -/
theorem scanAll_token (h : r.scan = (.ok t, r')) (hk : t.kind ≠ .eof) :
    r.scanAll = (t :: r'.scanAll.1, r'.scanAll.2) := by
  rw [scanAll]
  split
  · rename_i heq
    cases h.symm.trans heq
    rw [dif_neg hk]
  · rename_i heq
    cases h.symm.trans heq

/-- A lexical error adds a diagnostic and no token, and reading goes on behind it. -/
theorem scanAll_error (h : r.scan = (.error e, r')) :
    r.scanAll = (r'.scanAll.1, e.diagnostic :: r'.scanAll.2) := by
  rw [scanAll]
  split
  · rename_i heq
    cases h.symm.trans heq
  · rename_i heq
    cases h.symm.trans heq
    rfl

/-- Two readers that scan the same at once read the same to the end. -/
theorem scanAll_congr (h : r.scan = r'.scan) : r.scanAll = r'.scanAll := by
  rcases hs : r'.scan with ⟨⟨e⟩ | ⟨t⟩, r''⟩
  · rw [scanAll_error (h.trans hs), scanAll_error hs]
  · by_cases hk : t.kind = .eof
    · rw [scanAll_eof (h.trans hs) hk, scanAll_eof hs hk]
    · rw [scanAll_token (h.trans hs) hk, scanAll_token hs hk]

/-- A blank only moves what comes after it. -/
theorem scan_blank {p : Position} {c : Char} {cs : List Char} (hc : isBlank c) :
    scan ⟨p, c :: cs⟩ = scan ⟨p.advance c, cs⟩ := by
  have hdrop : (c :: cs).dropWhile isBlank = cs.dropWhile isBlank := List.dropWhile_cons_of_pos hc
  have htake : p.past ((c :: cs).takeWhile isBlank) = (p.advance c).past (cs.takeWhile isBlank) := by
    rw [List.takeWhile_cons_of_pos hc]
    rfl
  cases hrest : cs.dropWhile isBlank with
  | nil =>
    rw [scan_end (hdrop.trans hrest), scan_end hrest]
    dsimp only
    rw [htake]
  | cons ch rest =>
    cases hcomment : startsComment (ch :: rest) with
    | true =>
      rw [scan_comment (hdrop.trans hrest) hcomment,
        scan_comment (r := ⟨p.advance c, cs⟩) hrest hcomment]
      dsimp only
      rw [htake]
    | false =>
      rw [scan_stretch (hdrop.trans hrest) hcomment, scan_stretch hrest hcomment]
      dsimp only
      rw [htake]

end Reader

namespace Token

/-- From a faithful cursor, the scanner reads to the end what is read without a window. -/
theorem scanAll_eq {source : String} (c : Cursor) (acc : Scanned) (h : c.Faithful source) :
    scanAll source c acc = ⟨acc.tokens ++ c.reader.scanAll.1.toArray,
      acc.diagnostics ++ c.reader.scanAll.2.toArray⟩ := by
  fun_induction scanAll source c acc with
  | case1 c acc t c' hs hk =>
    obtain ⟨hresult, hreader, hfaithful⟩ := scan_eq h
    rw [hs] at hresult hreader
    rw [Reader.scanAll_eof (Prod.ext hresult.symm hreader.symm) hk]
    simp
  | case2 c acc t c' hs hk hlt ih =>
    obtain ⟨hresult, hreader, hfaithful⟩ := scan_eq h
    rw [hs] at hresult hreader hfaithful
    have hscan : c.reader.scan = (.ok t, c'.reader) := Prod.ext hresult.symm hreader.symm
    rw [Reader.scanAll_token hscan hk, ih hfaithful]
    simp
  | case3 c acc e c' hs hlt ih =>
    obtain ⟨hresult, hreader, hfaithful⟩ := scan_eq h
    rw [hs] at hresult hreader hfaithful
    have hscan : c.reader.scan = (.error e, c'.reader) := Prod.ext hresult.symm hreader.symm
    rw [Reader.scanAll_error hscan, ih hfaithful]
    simp

/-- **Whole texts are read without a window.** -/
theorem tokenize_eq (source : String) :
    tokenize source = ⟨(Reader.ofString source).scanAll.1.toArray,
      (Reader.ofString source).scanAll.2.toArray⟩ := by
  unfold tokenize
  rw [scanAll_eq _ _ (Cursor.ofString_faithful source)]
  simp only [Array.empty_append]
  rfl

end Token

end Treewalk
