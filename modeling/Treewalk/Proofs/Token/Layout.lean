import Treewalk.Proofs.Token.Munch

/-!
# Nothing of a text is lost, and every position is right

A text is laid out in pieces: tokens, blanks, comments, characters that nothing begins with, and at its
end a string that is never closed (`Piece`). `Fit` says what each piece may look like where it stands,
and where a token says that it stands. Positions are not counted along but read off the text before a
place (`Position.after`).

`tokenize` finds the pieces of every text: they are the text again when written one after another, the
tokens are among them, and what is complained about is exactly the pieces that should not be there, each
on the line on which it begins (`tokenize_lays_out`).
-/

namespace Treewalk

/-! ## Positions, read off the text -/

/-- The place after a text: on the line after as many lines as the text has line feeds, after as many
characters as follow the last of them. -/
def Position.after (cs : List Char) : Position :=
  ⟨1 + cs.count '\n', 1 + (cs.reverse.takeWhile (· != '\n')).length⟩

/-- A position that a text of so many characters can have. -/
structure Position.Within (n : Nat) (p : Position) : Prop where
  line : 1 ≤ p.line ∧ p.line ≤ n + 1
  column : 1 ≤ p.column ∧ p.column ≤ n + 1

/-- A position whose line and column are counted from one and have room in a signed counter of 32 bits. -/
structure Position.Counts (p : Position) : Prop where
  line : 1 ≤ p.line ∧ p.line < 2 ^ 31
  column : 1 ≤ p.column ∧ p.column < 2 ^ 31

namespace Position

/-- Moving the position after some characters by one more gives the position after them all, as it is
read off the text. -/
theorem advance_after (cs : List Char) (c : Char) : (after cs).advance c = after (cs ++ [c]) := by
  unfold advance after
  by_cases hc : c = '\n'
  · simp [hc, Int.add_assoc]
  · have hne : (c != '\n') = true := by simpa using hc
    simp [hc, hne, Int.add_assoc]

/-- **Counting along a text gives what is read off it.** -/
theorem past_after (cs ds : List Char) : (after cs).past ds = after (cs ++ ds) := by
  induction ds generalizing cs with
  | nil => simp
  | cons d ds ih => rw [past_cons, advance_after, ih, List.append_assoc, List.singleton_append]

/-- The position after a part of a text is within the length of the text. -/
theorem after_within {cs rest : List Char} {n : Nat} (h : (cs ++ rest).length = n) :
    (after cs).Within n := by
  have hlines : cs.count '\n' ≤ cs.length := List.count_le_length
  have hcolumns : (cs.reverse.takeWhile (· != '\n')).length ≤ cs.reverse.length :=
    (List.takeWhile_prefix _).length_le
  rw [List.length_append] at h
  rw [List.length_reverse] at hcolumns
  constructor <;> simp only [after] <;> omega

/-- Where a text is short enough, its positions have room in the counters. -/
theorem Within.counts {n : Nat} {p : Position} (h : p.Within n) (hn : n < 2 ^ 31 - 1) : p.Counts := by
  obtain ⟨⟨hline, hline'⟩, hcolumn, hcolumn'⟩ := h
  constructor <;> omega

end Position

/-- Whoever counts along the text never leaves the counters, wherever he stops. So it makes no difference
to this text how wide the counters are, nor what they would do at their end. -/
def Token.Counted (source : String) : Prop :=
  ∀ ahead behind, source.toList = ahead ++ behind → (Position.after ahead).Counts

/-- A text with fewer characters than the counters have numbers never exhausts them. -/
theorem Token.counted_of_length {source : String} (h : source.length < 2 ^ 31 - 1) :
    Token.Counted source := by
  intro ahead behind hsource
  have hlength : (ahead ++ behind).length = source.length := by
    rw [← hsource, String.length_toList]
  exact (Position.after_within hlength).counts h

/-! ## The pieces of a text -/

open Token

/-- A stretch of text as the scanner sees it. -/
inductive Piece where
  | token (t : Token)
  | blank (c : Char)
  /-- What follows two slashes on their line. -/
  | comment (cs : List Char)
  /-- A character that nothing begins with. -/
  | unexpected (c : Char)
  /-- What follows a quote that is never closed. -/
  | unterminated (cs : List Char)

namespace Piece

/-- The characters of the piece. -/
def text : Piece → List Char
  | token t => t.lexeme.toList
  | blank c => [c]
  | comment cs => '/' :: '/' :: cs
  | unexpected c => [c]
  | unterminated cs => '"' :: cs

/-- The token of the piece, if it is one. -/
def token? : Piece → Option Token
  | token t => some t
  | _ => none

/-- What is wrong with a piece that should not be there. -/
def complaint? : Piece → Option Complaint
  | unexpected c => some (.unexpectedCharacter c)
  | unterminated _ => some .unterminatedString
  | _ => none

/-- The piece may stand between the two texts. -/
def Fits (before following : List Char) : Piece → Prop
  | token t => Lexical t.kind t.lexeme.toList ∧ t.kind ≠ .eof ∧ t.start = .after before ∧
      t.stop = .after (before ++ t.lexeme.toList)
  | blank c => c ∈ blanks
  | comment cs => '\n' ∉ cs ∧ EndsLine following
  | unexpected c => c ∉ blanks ∧ ¬Opens c
  | unterminated cs => '"' ∉ cs ∧ following = []

/-- What is said about a piece that begins after a text. -/
def diagnostic? (before : List Char) (piece : Piece) : Option Diagnostic :=
  piece.complaint?.map fun complaint => ⟨(Position.after before).line, .line, complaint⟩

end Piece

/-- The pieces written one after another. -/
def Piece.texts (pieces : List Piece) : List Char :=
  pieces.flatMap Piece.text

/-- Each piece may stand where it does, after a text. -/
def Fit (before : List Char) : List Piece → Prop
  | [] => True
  | piece :: pieces => piece.Fits before (Piece.texts pieces) ∧ Fit (before ++ piece.text) pieces

/-- What is said about the pieces, in their order. -/
def diagnosticsOf (before : List Char) : List Piece → List Diagnostic
  | [] => []
  | piece :: pieces =>
    (piece.diagnostic? before).toList ++ diagnosticsOf (before ++ piece.text) pieces

/-- The token at the end of a text. -/
def finishOf (text : List Char) : Token :=
  ⟨.eof, "", none, .after text, .after text⟩

/-- The pieces are those of a text that stands after another, and the tokens and diagnostics are read
off them. -/
structure LaysOut (before text : List Char) (out : List Token × List Diagnostic)
    (pieces : List Piece) : Prop where
  lossless : text = Piece.texts pieces
  fit : Fit before pieces
  tokens : out.1 = pieces.filterMap Piece.token? ++ [finishOf (before ++ text)]
  diagnostics : out.2 = diagnosticsOf before pieces

/-! ## The scanner finds the pieces -/

namespace LaysOut

variable {before text skipped : List Char} {out : List Token × List Diagnostic}
  {piece : Piece} {pieces : List Piece}

/-- One piece more at the front. -/
theorem cons (hfits : piece.Fits before text) (h : LaysOut (before ++ piece.text) text out pieces) :
    LaysOut before (piece.text ++ text)
      (piece.token?.toList ++ out.1, (piece.diagnostic? before).toList ++ out.2)
      (piece :: pieces) where
  lossless := by simp [Piece.texts, h.lossless]
  fit := ⟨h.lossless ▸ hfits, h.fit⟩
  tokens := by
    rw [h.tokens, List.append_assoc before]
    rcases htoken : piece.token? <;> simp [htoken]
  diagnostics := by rw [h.diagnostics, diagnosticsOf]

/-- A blank in front adds a piece and nothing else. -/
theorem blank {c : Char} (hc : c ∈ blanks) (h : LaysOut (before ++ [c]) text out pieces) :
    LaysOut before (c :: text) out (.blank c :: pieces) := by
  have hfits : (Piece.blank c).Fits before text := hc
  exact cons hfits h

/-- A comment in front adds a piece and nothing else. -/
theorem comment {cs : List Char} (hcs : '\n' ∉ cs) (hend : EndsLine text)
    (h : LaysOut (before ++ '/' :: '/' :: cs) text out pieces) :
    LaysOut before ('/' :: '/' :: cs ++ text) out (.comment cs :: pieces) := by
  have hfits : (Piece.comment cs).Fits before text := ⟨hcs, hend⟩
  exact cons hfits h

/-- Blanks and comments add neither tokens nor diagnostics. -/
theorem trivia (htrivia : Trivia text skipped) (h : LaysOut (before ++ skipped) text out pieces) :
    ∃ pieces', LaysOut before (skipped ++ text) out pieces' := by
  induction htrivia generalizing before with
  | nil => exact ⟨pieces, by simpa using h⟩
  | @blank c cs hc _ ih =>
    rw [← List.singleton_append, ← List.append_assoc] at h
    obtain ⟨pieces', h'⟩ := ih h
    exact ⟨_, h'.blank hc⟩
  | @comment line cs hline hend _ ih =>
    rw [← List.append_assoc] at h
    obtain ⟨pieces', h'⟩ := ih h
    rw [List.append_assoc]
    exact ⟨_, h'.comment hline hend⟩

end LaysOut

namespace Reader

variable {before : List Char} {ch : Char} {more tail : List Char}
  {out : List Token × List Diagnostic} {pieces : List Piece}

/-- The end of a text has no pieces, and only the end token. -/
theorem laysOut_end (before : List Char) : LaysOut before [] ([finishOf before], []) [] :=
  ⟨rfl, trivial, by simp, rfl⟩

/-- A token that is read adds a piece and itself. -/
theorem laysOut_token {kind : Kind} (hstretch : stretch ch more = (.token kind, tail))
    (h : LaysOut (before ++ ch :: tail) (more.drop tail.length) out pieces) :
    LaysOut before (ch :: more) (made kind (.after before) (ch :: tail) :: out.1, out.2)
      (.token (made kind (.after before) (ch :: tail)) :: pieces) := by
  have hlexeme := isLexeme_of_stretch hstretch
  have hcut := stretch_append_drop ch more
  have htext : (Piece.token (made kind (.after before) (ch :: tail))).text = ch :: tail := by
    simp [Piece.text, made]
  have hfits : Piece.Fits before (more.drop tail.length)
      (.token (made kind (.after before) (ch :: tail))) := by
    refine ⟨?_, hlexeme.kind_ne_eof, rfl, ?_⟩
    · simpa [made] using lexical_of_isLexeme hlexeme
    · simp only [made, Position.past_after, String.toList_ofList]
  rw [← htext] at h
  have hcons := LaysOut.cons hfits h
  rw [htext, List.cons_append] at hcons
  rw [hstretch] at hcut
  rw [hcut] at hcons
  exact hcons

/-- A character that nothing begins with adds a piece and a complaint about it. -/
theorem laysOut_unexpected (hstretch : stretch ch more = (.unexpected, tail)) (hch : ch ∉ blanks)
    (h : LaysOut (before ++ ch :: tail) (more.drop tail.length) out pieces) :
    LaysOut before (ch :: more)
      (out.1, (LexicalError.unexpectedCharacter (.after before) ch).diagnostic :: out.2)
      (.unexpected ch :: pieces) := by
  have hnone := stretch_unexpected_iff.1 (congrArg Prod.fst hstretch)
  have hopens : ¬Opens ch := by
    rw [opens_iff]
    rintro ⟨kind, cs, hlexeme⟩
    exact hnone kind cs hlexeme
  obtain rfl : [] = tail := by
    rw [stretch_unexpected_congr more (congrArg Prod.fst hstretch)] at hstretch
    exact (Prod.mk.inj hstretch).2
  have hfits : Piece.Fits before more (.unexpected ch) := ⟨hch, hopens⟩
  exact LaysOut.cons hfits h

/-- A string that is never closed adds a piece and a complaint about it, and takes the rest of the text. -/
theorem laysOut_unterminated (hstretch : stretch ch more = (.unterminated, tail))
    (h : LaysOut (before ++ ch :: tail) (more.drop tail.length) out pieces) :
    LaysOut before (ch :: more)
      (out.1, (LexicalError.unterminatedString (.after before)).diagnostic :: out.2)
      (.unterminated tail :: pieces) := by
  obtain ⟨rfl, hquote⟩ := stretch_unterminated_iff.1 (congrArg Prod.fst hstretch)
  obtain rfl : more = tail := by
    rw [stretch_of_open hquote] at hstretch
    exact (Prod.mk.inj hstretch).2
  rw [List.drop_length] at h
  have hfits : Piece.Fits before [] (.unterminated more) := ⟨hquote, rfl⟩
  have hcons := LaysOut.cons hfits h
  rw [List.append_nil] at hcons
  exact hcons

/-- **The scanner finds the pieces of a text**, wherever the text stands. -/
theorem exists_laysOut (r : Reader) (hbefore : r.position = .after before) :
    ∃ pieces, LaysOut before r.rest r.scanAll pieces := by
  -- along the calls of the scanner, each of which finds a gap and a piece behind it
  induction hlength : r.rest.length using Nat.strong_induction_on generalizing r before with
  | _ n ih =>
    obtain ⟨skipped, rest, hsplit, htrivia, hready, hscan⟩ := r.exists_scan_eq
    rw [hbefore, Position.past_after] at hscan
    rw [hsplit]
    suffices ∃ pieces, LaysOut (before ++ skipped) rest r.scanAll pieces by
      obtain ⟨pieces, h⟩ := this
      exact h.trivia htrivia
    cases rest with
    | nil =>
      rw [scanAll_eof hscan rfl]
      exact ⟨[], laysOut_end _⟩
    | cons ch more =>
      rw [scanAt, Position.past_after] at hscan
      rcases hstretch : stretch ch more with ⟨verdict, tail⟩
      rw [hstretch] at hscan
      have hshorter : (more.drop tail.length).length < n := by
        rw [← hlength, hsplit]
        simp only [List.length_drop, List.length_append, List.length_cons]
        omega
      obtain ⟨pieces, h⟩ := ih _ hshorter ⟨.after (before ++ skipped ++ ch :: tail), _⟩ rfl rfl
      cases verdict with
      | token kind =>
        rw [scanAll_token hscan (isLexeme_of_stretch hstretch).kind_ne_eof]
        exact ⟨_, laysOut_token hstretch h⟩
      | unexpected =>
        rw [scanAll_error hscan]
        exact ⟨_, laysOut_unexpected hstretch (hready.not_blank ch rfl) h⟩
      | unterminated =>
        rw [scanAll_error hscan]
        exact ⟨_, laysOut_unterminated hstretch h⟩

end Reader

/-! ## Whole texts -/

/-- The tokens among the pieces stand where they say. -/
theorem Fit.exists_stretch {before : List Char} {pieces : List Piece} (h : Fit before pieces) {t : Token}
    (ht : t ∈ pieces.filterMap Piece.token?) : ∃ ahead behind,
      before ++ Piece.texts pieces = ahead ++ t.lexeme.toList ++ behind ∧ t.start = .after ahead ∧
        t.stop = .after (ahead ++ t.lexeme.toList) := by
  induction pieces generalizing before with
  | nil => cases ht
  | cons piece pieces ih =>
    obtain ⟨hfits, hmore⟩ := h
    have htexts : Piece.texts (piece :: pieces) = piece.text ++ Piece.texts pieces :=
      List.flatMap_cons
    have hrest : t ∈ pieces.filterMap Piece.token? → ∃ ahead behind,
        before ++ Piece.texts (piece :: pieces) = ahead ++ t.lexeme.toList ++ behind ∧
          t.start = .after ahead ∧ t.stop = .after (ahead ++ t.lexeme.toList) := by
      intro ht
      rw [htexts, ← List.append_assoc]
      exact ih hmore ht
    rw [List.filterMap_cons] at ht
    cases piece with
    | token u =>
      obtain rfl | ht := List.mem_cons.1 ht
      · obtain ⟨-, -, hstart, hstop⟩ := hfits
        refine ⟨before, Piece.texts pieces, ?_, hstart, hstop⟩
        rw [htexts, List.append_assoc]
        rfl
      · exact hrest ht
    | blank | comment | unexpected | unterminated => exact hrest ht

/-- The tokens among fitting pieces stand within the length of the text. -/
theorem Fit.within {before : List Char} {pieces : List Piece} {n : Nat} (h : Fit before pieces)
    (hn : (before ++ Piece.texts pieces).length = n) :
    ∀ t ∈ pieces.filterMap Piece.token?, t.start.Within n ∧ t.stop.Within n := by
  intro t ht
  obtain ⟨ahead, behind, htext, hstart, hstop⟩ := h.exists_stretch ht
  rw [htext] at hn
  have hahead : (ahead ++ (t.lexeme.toList ++ behind)).length = n := by
    rwa [← List.append_assoc]
  rw [hstart, hstop]
  exact ⟨Position.after_within hahead, Position.after_within hn⟩

namespace Token

/-- **Reading a text loses nothing, and every position is right.** Every text is made of pieces that may
stand where they do: written one after another they are the text, the tokens are those among them, in
their order, followed by one at the end, and there is one diagnostic for each piece that should not be
there. No count of lines or columns exceeds the number of characters by more than one. -/
theorem tokenize_lays_out (source : String) :
    (∃ pieces, LaysOut [] source.toList
      ((tokenize source).tokens.toList, (tokenize source).diagnostics.toList) pieces) ∧
    ∀ t ∈ (tokenize source).tokens.toList,
      t.start.Within source.length ∧ t.stop.Within source.length := by
  have hstart : (Reader.ofString source).position = .after [] := rfl
  obtain ⟨pieces, h⟩ := (Reader.ofString source).exists_laysOut hstart
  rw [tokenize_eq source]
  refine ⟨⟨pieces, h⟩, fun t ht => ?_⟩
  have hlength : ([] ++ Piece.texts pieces).length = source.length := by
    rw [List.nil_append, ← h.lossless]
    exact String.length_toList
  rw [List.toList_toArray, h.tokens] at ht
  rcases List.mem_append.1 ht with ht | ht
  · exact h.fit.within hlength t ht
  · obtain rfl := List.mem_singleton.1 ht
    have hall : ([] ++ source.toList ++ []).length = source.length := by
      simp [String.length_toList]
    have hfinish : (Position.after ([] ++ source.toList)).Within source.length :=
      Position.after_within hall
    exact ⟨hfinish, hfinish⟩

end Token

end Treewalk
