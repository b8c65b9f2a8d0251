import Treewalk.Proofs.Token.Munch

/-!
# Texts one below the other

What is read from a text does not depend on where the text stands, except that all positions move with
it (`Reader.scanAll_lower`), and a line feed is a place at which nothing that has begun before can go on,
but for a string that is not closed (`stretch_newline`). So two texts with a line feed between them are
read one after the other (`tokenize_below`).
-/

namespace Treewalk

open Token CharClass

/-! ## Moving down -/

/-- The same column, so many lines further down. -/
def Position.lower (k : Int) (p : Position) : Position :=
  ⟨p.line + k, p.column⟩

/-- The same token, so many lines further down. -/
def Token.lower (k : Int) (t : Token) : Token :=
  { t with start := t.start.lower k, stop := t.stop.lower k }

/-- The same diagnostic, so many lines further down. -/
def Diagnostic.lower (k : Int) (d : Diagnostic) : Diagnostic :=
  { d with line := d.line + k }

/-- The line of a lowered position. -/
@[simp] theorem Position.line_lower (k : Int) (p : Position) : (p.lower k).line = p.line + k := rfl

/-- Lowering a token keeps its kind. -/
@[simp] theorem Token.kind_lower (k : Int) (t : Token) : (t.lower k).kind = t.kind := rfl

/-- Lowering a token keeps its lexeme. -/
@[simp] theorem Token.lexeme_lower (k : Int) (t : Token) : (t.lower k).lexeme = t.lexeme := rfl

/-- Lowering a token keeps its literal. -/
@[simp] theorem Token.literal_lower (k : Int) (t : Token) : (t.lower k).literal = t.literal := rfl

/-- Characters move a lowered position as they move the position itself. -/
theorem Position.past_lower (k : Int) (p : Position) (cs : List Char) :
    (p.lower k).past cs = (p.past cs).lower k := by
  induction cs generalizing p with
  | nil => rfl
  | cons c cs ih =>
    have hstep : (p.lower k).advance c = (p.advance c).lower k := by
      unfold advance lower
      split
      · simp [Int.add_right_comm]
      · rfl
    rw [past_cons, past_cons, hstep, ih]

/-- The beginning of the line after a text. -/
theorem Position.past_start_newline (cs : List Char) :
    start.past (cs ++ ['\n']) = start.lower (1 + cs.count '\n') := by
  have hline : ∀ (p : Position) (cs : List Char), (p.past cs).line = p.line + cs.count '\n' := by
    intro p cs
    induction cs generalizing p with
    | nil => simp
    | cons c cs ih =>
      rw [past_cons, ih]
      unfold advance
      by_cases hc : c = '\n'
      · simp [hc]
        omega
      · simp [hc]
  rw [past_append, past_cons, past_nil, advance, if_pos rfl, hline]
  simp [lower, start]
  omega

/-- A token that is made further down is the lowered token. -/
theorem made_lower (k : Int) (kind : Kind) (p : Position) (cs : List Char) :
    made kind (p.lower k) cs = (made kind p cs).lower k := by
  simp only [made, Token.lower, Position.past_lower]

namespace LexicalError

/-- The same error, so many lines further down. -/
def lower (k : Int) : LexicalError → LexicalError
  | unexpectedCharacter p c => unexpectedCharacter (p.lower k) c
  | unterminatedString p => unterminatedString (p.lower k)

/-- A lexical error further down is reported further down, with the same complaint. -/
theorem diagnostic_lower (k : Int) (e : LexicalError) :
    (e.lower k).diagnostic = e.diagnostic.lower k := by
  cases e <;> rfl

end LexicalError

/-- The same outcome, so many lines further down. -/
def Token.lowerResult (k : Int) : Except LexicalError Token → Except LexicalError Token
  | .ok t => .ok (t.lower k)
  | .error e => .error (e.lower k)

/-! ## What stands before a line feed -/

namespace Token

variable {ch : Char} {cs ds : List Char}

/-- What stops at a line feed takes nothing from behind it. -/
theorem takeWhile_newline {p : Char → Bool} (hp : p '\n' = false) (cs ds : List Char) :
    (cs ++ '\n' :: ds).takeWhile p = cs.takeWhile p := by
  induction cs with
  | nil => simp [hp]
  | cons c cs ih => simp [List.takeWhile_cons, ih]

/-- What stops at a line feed leaves it and all that is behind it. -/
theorem dropWhile_newline {p : Char → Bool} (hp : p '\n' = false) (cs ds : List Char) :
    (cs ++ '\n' :: ds).dropWhile p = cs.dropWhile p ++ '\n' :: ds := by
  induction cs with
  | nil => simp [hp]
  | cons c cs ih =>
    simp only [List.cons_append, List.dropWhile_cons, ih]
    split <;> rfl

/-- The fraction of a number does not go on behind a line feed. -/
theorem fraction_newline (cs ds : List Char) : fraction (cs ++ '\n' :: ds) = fraction cs := by
  rcases cs with _ | ⟨a, _ | ⟨b, cs⟩⟩
  · exact fraction_of_ne (by decide) ds
  · by_cases ha : a = '.'
    · subst ha
      rfl
    · rw [List.cons_append, fraction_of_ne ha, fraction_of_ne ha]
  · by_cases ha : a = '.'
    · subst ha
      simp only [List.cons_append, fraction]
      rw [← List.cons_append, takeWhile_newline rfl]
    · rw [List.cons_append, fraction_of_ne ha, fraction_of_ne ha]

/-- A number does not go on behind a line feed. -/
theorem numberTail_newline (cs ds : List Char) :
    numberTail (cs ++ '\n' :: ds) = numberTail cs := by
  unfold numberTail
  rw [takeWhile_newline rfl, dropWhile_newline rfl, fraction_newline]

/-- **Nothing goes on behind a line feed**, except a string that is not closed before it. -/
theorem stretch_newline (h : (stretch ch cs).1 ≠ .unterminated) :
    stretch ch (cs ++ '\n' :: ds) = stretch ch cs := by
  have hname : isNamePart '\n' = false := rfl
  by_cases hquote : ch = '"'
  · subst hquote
    have hmem : '"' ∈ cs := by
      by_contra hnot
      exact h (stretch_unterminated_iff.2 ⟨rfl, hnot⟩)
    obtain ⟨inside, more, rfl, hinside⟩ := List.eq_append_cons_of_mem hmem
    have hlexeme : IsLexeme .string ('"' :: (inside ++ ['"'])) := .string hinside
    have hread : ∀ rest, stretch '"' (inside ++ '"' :: rest) = (.token .string, inside ++ ['"']) := by
      intro rest
      have hapart : Apart .string rest := fun _ _ => rfl
      simpa using stretch_of_isLexeme hlexeme hapart
    rw [List.append_assoc, List.cons_append, hread, hread]
  · unfold stretch
    simp only [hquote, if_false, numberTail_newline, takeWhile_newline hname]
    rcases cs with _ | ⟨c, cs⟩ <;> rfl

end Token

namespace Reader

variable {p : Position} {skipped rest : List Char}

/-! ## What a scanner does is determined by what it skips and what it finds behind it -/

/-- A comment is skipped to the end of its line. -/
theorem scan_commentLine {text : List Char} (htext : '\n' ∉ text) (hend : EndsLine rest) :
    scan ⟨p, '/' :: '/' :: text ++ rest⟩ = scan ⟨p.past ('/' :: '/' :: text), rest⟩ := by
  have hline : ∀ c ∈ '/' :: text, (c != '\n') = true := by
    intro c hc
    rcases List.mem_cons.1 hc with rfl | hc
    · rfl
    · simpa using ne_of_mem_of_not_mem hc htext
  have hstop : ∀ c, rest.head? = some c → (c != '\n') = false := by
    intro c hc
    simp [hend c hc]
  have hlead : ('/' :: '/' :: text ++ rest).dropWhile isBlank = '/' :: ('/' :: text ++ rest) := rfl
  have hcomment : startsComment ('/' :: ('/' :: text ++ rest)) = true := rfl
  rw [scan_comment hlead hcomment, takeWhile_append_of_stop hline hstop,
    dropWhile_append_of_stop hline hstop]
  rfl

/-- Where there is nothing to skip, a token is read at once. -/
theorem scan_ready (h : Ready rest) : scan ⟨p, rest⟩ = scanAt p rest := by
  cases rest with
  | nil => exact scan_end rfl
  | cons ch more =>
    have hblank : isBlank ch = false := by
      have hnot := h.not_blank ch rfl
      rwa [← isBlank_iff, Bool.not_eq_true] at hnot
    have hcomment : startsComment (ch :: more) = false := by
      have hnot := h.not_comment
      rwa [← startsComment_iff, Bool.not_eq_true] at hnot
    have hlead : (ch :: more).dropWhile isBlank = ch :: more := by simp [hblank]
    have hnone : (ch :: more).takeWhile isBlank = [] := by simp [hblank]
    rw [scan_stretch hlead hcomment]
    dsimp only
    rw [hnone]
    rfl

/-- **Blanks and comments are skipped.** -/
theorem scan_skip (h : Trivia rest skipped) :
    scan ⟨p, skipped ++ rest⟩ = scan ⟨p.past skipped, rest⟩ := by
  induction h generalizing p with
  | nil => rfl
  | @blank c cs hc h ih =>
    rw [List.cons_append, scan_blank ((isBlank_iff c).2 hc), ih, Position.past_cons]
  | @comment text cs htext hend h ih =>
    rw [List.append_assoc, scan_commentLine htext hend, ih, ← Position.past_append]

/-- Blanks and comments are skipped before a token is read. -/
theorem scan_trivia (htrivia : Trivia rest skipped) (hready : Ready rest) :
    scan ⟨p, skipped ++ rest⟩ = scanAt (p.past skipped) rest := by
  rw [scan_skip htrivia, scan_ready hready]

/-! ## The same text further down -/

/-- The same place in a text that stands so many lines further down. -/
def lower (k : Int) (r : Reader) : Reader :=
  ⟨r.position.lower k, r.rest⟩

/-- A token that is read further down is the same token, further down, and so is the error. -/
theorem scanAt_lower (k : Int) (p : Position) (rest : List Char) :
    scanAt (p.lower k) rest = (lowerResult k (scanAt p rest).1, (scanAt p rest).2.lower k) := by
  cases rest with
  | nil => simp only [scanAt, made_lower, lowerResult, lower]
  | cons ch more =>
    simp only [scanAt, Position.past_lower, lower]
    congr 1
    rcases (stretch ch more).1
    · simp only [Verdict.result, made_lower, lowerResult]
    · rfl
    · rfl

/-- The scanner works the same further down. -/
theorem scan_lower (k : Int) (r : Reader) :
    (r.lower k).scan = (lowerResult k r.scan.1, r.scan.2.lower k) := by
  obtain ⟨skipped, rest, hsplit, htrivia, hready, hscan⟩ := r.exists_scan_eq
  rw [hscan, ← scanAt_lower, ← Position.past_lower, ← scan_trivia htrivia hready, ← hsplit]
  rfl

/-- **What is read from a text moves with the text.** -/
theorem scanAll_lower (k : Int) (r : Reader) :
    (r.lower k).scanAll = (r.scanAll.1.map (Token.lower k), r.scanAll.2.map (Diagnostic.lower k)) := by
  fun_induction scanAll r with
  | case1 r t r' hscan hkind =>
    have hlower := scan_lower k r
    rw [hscan] at hlower
    exact scanAll_eof hlower hkind
  | case2 r t r' hscan hkind hlt ts ds hmore ih =>
    have hlower := scan_lower k r
    rw [hscan] at hlower
    rw [scanAll_token hlower hkind, ih]
    simp [hmore]
  | case3 r e r' hscan hlt ts ds hmore ih =>
    have hlower := scan_lower k r
    rw [hscan] at hlower
    rw [scanAll_error hlower, ih]
    simp [hmore, LexicalError.diagnostic_lower]

end Reader

/-! ## Two texts with a line feed between them -/

variable {cs rest skipped : List Char}

/-- What ends a line still does so with more text below. -/
theorem EndsLine.newline (h : EndsLine cs) (ds : List Char) : EndsLine (cs ++ '\n' :: ds) := by
  intro c hc
  cases cs with
  | nil => simpa using hc.symm
  | cons d cs => exact h c hc

/-- Blanks and comments in front of some text stay what they are with more text below it. -/
theorem Trivia.newline (h : Trivia rest skipped) (ds : List Char) :
    Trivia (rest ++ '\n' :: ds) skipped := by
  induction h with
  | nil => exact .nil
  | blank hc _ ih => exact .blank hc ih
  | comment htext hend _ ih =>
    refine .comment htext ?_ ih
    rw [← List.append_assoc]
    exact hend.newline ds

/-- A text that has nothing to skip still has nothing to skip with more text below. -/
theorem Ready.newline {ch : Char} {more : List Char} (h : Ready (ch :: more)) (ds : List Char) :
    Ready (ch :: (more ++ '\n' :: ds)) := by
  refine ⟨fun c hc => h.not_blank c hc, fun hcomment => h.not_comment ?_⟩
  obtain ⟨rfl, hmore⟩ := List.cons_prefix_cons.1 hcomment
  rcases more with _ | ⟨c, more⟩
  · simp [List.cons_prefix_cons] at hmore
  · simpa [List.cons_prefix_cons] using hmore

/-- What is complained about does not include a string that is never closed. -/
def Closed (ds : List Diagnostic) : Prop :=
  ∀ d ∈ ds, d.complaint ≠ .unterminatedString

namespace Reader

/-- Blanks and comments before a line feed are skipped with it. -/
theorem scan_seam {p : Position} (h : Trivia [] skipped) (ds : List Char) :
    scan ⟨p, skipped ++ '\n' :: ds⟩ = scan ⟨p.past (skipped ++ ['\n']), ds⟩ := by
  have hseam : Trivia ('\n' :: ds) skipped := h.newline ds
  rw [scan_skip hseam, scan_blank rfl, Position.past_append]
  rfl

/-- The last token of a text, and no other, marks its end. -/
theorem scanAll_eq_concat (r : Reader) :
    ∃ us t, r.scanAll.1 = us ++ [t] ∧ t.kind = .eof ∧ ∀ u ∈ us, u.kind ≠ .eof := by
  fun_induction scanAll r with
  | case1 r t r' hscan hkind => exact ⟨[], t, rfl, hkind, by simp⟩
  | case2 r t r' hscan hkind hlt ts ds hmore ih =>
    obtain ⟨us, u, hts, hu, hus⟩ := ih
    exact ⟨t :: us, u, by simp [← hts, hmore], hu, List.forall_mem_cons.2 ⟨hkind, hus⟩⟩
  | case3 r e r' hscan hlt ts ds hmore ih => simpa [hmore] using ih

/-- The scanner always yields a token, at least the one for the end. -/
theorem scanAll_ne_nil (r : Reader) : r.scanAll.1 ≠ [] := by
  obtain ⟨us, t, hus, -⟩ := r.scanAll_eq_concat
  simp [hus]

/-- What is found at a character reaches no further than it did when a line feed follows the text. -/
theorem scanAt_newline {ch : Char} {more : List Char} (h : (stretch ch more).1 ≠ .unterminated)
    (p : Position) (ds : List Char) :
    scanAt p (ch :: more ++ '\n' :: ds) = ((scanAt p (ch :: more)).1,
      ⟨(scanAt p (ch :: more)).2.position, (scanAt p (ch :: more)).2.rest ++ '\n' :: ds⟩) := by
  simp only [List.cons_append, scanAt, stretch_newline h]
  rw [List.drop_append_of_le_length (stretch_begins ch more).length_le]

/-- Reading a token moves the position by exactly the characters it takes. -/
theorem past_scanAt (p : Position) (ch : Char) (more ds : List Char) :
    (scanAt p (ch :: more)).2.position.past ((scanAt p (ch :: more)).2.rest ++ ds) =
      p.past (ch :: more ++ ds) := by
  have hcut := stretch_append_drop ch more
  simp only [scanAt]
  rw [← Position.past_append, ← List.append_assoc, List.cons_append, hcut]

/-- While there are characters left, no end token is read. -/
theorem kind_ne_eof_of_scanAt {p : Position} {ch : Char} {more : List Char} {t : Token}
    (h : (scanAt p (ch :: more)).1 = .ok t) : t.kind ≠ .eof := by
  simp only [scanAt] at h
  rcases hstretch : stretch ch more with ⟨verdict, tail⟩
  rw [hstretch] at h
  cases verdict with
  | token kind =>
    obtain rfl := Except.ok.inj h
    exact (isLexeme_of_stretch hstretch).kind_ne_eof
  | unexpected => cases h
  | unterminated => cases h

/-- **Two texts with a line feed between them are read one after the other**, unless the first one ends
in a string that is not closed. -/
theorem scanAll_newline (p : Position) (cs ds : List Char) (h : Closed (scanAll ⟨p, cs⟩).2) :
    scanAll ⟨p, cs ++ '\n' :: ds⟩ =
      ((scanAll ⟨p, cs⟩).1.dropLast ++ (scanAll ⟨p.past (cs ++ ['\n']), ds⟩).1,
        (scanAll ⟨p, cs⟩).2 ++ (scanAll ⟨p.past (cs ++ ['\n']), ds⟩).2) := by
  -- along the calls of the scanner on the first text: each does the same before the line feed
  induction hlength : cs.length using Nat.strong_induction_on generalizing p cs with
  | _ n ih =>
    obtain ⟨skipped, rest, hsplit, htrivia, hready, hscan⟩ := exists_scan_eq ⟨p, cs⟩
    dsimp only at hsplit hscan
    subst hsplit
    cases rest with
    | nil =>
      rw [List.append_nil] at hscan ⊢
      rw [scanAll_congr (scan_seam htrivia ds), scanAll_eof hscan rfl]
      rfl
    | cons ch more =>
      have hclosed : (stretch ch more).1 ≠ .unterminated := by
        intro hverdict
        rw [scanAt, hverdict] at hscan
        rw [scanAll_error hscan] at h
        exact h _ List.mem_cons_self rfl
      have hscan' := scan_trivia (p := p) (htrivia.newline ds) (hready.newline ds)
      rw [scanAt_newline hclosed, ← List.append_assoc] at hscan'
      have hpast := past_scanAt (p.past skipped) ch more ['\n']
      have hshorter : (scanAt (p.past skipped) (ch :: more)).2.rest.length < n := by
        rw [← hlength]
        simp only [scanAt, List.length_drop, List.length_append, List.length_cons]
        omega
      have hkind : ∀ t, (scanAt (p.past skipped) (ch :: more)).1 = .ok t → t.kind ≠ .eof :=
        fun t => kind_ne_eof_of_scanAt
      rw [← Position.past_append, ← List.append_assoc] at hpast
      generalize scanAt (p.past skipped) (ch :: more) = found at hscan hscan' hpast hshorter hkind
      obtain ⟨result, q, left⟩ := found
      dsimp only at hscan' hpast hshorter hkind
      rw [← hpast]
      rcases result with e | t
      · rw [scanAll_error hscan] at h ⊢
        have hmore := ih _ hshorter q left (fun d hd => h d (List.mem_cons_of_mem _ hd)) rfl
        rw [scanAll_error hscan', hmore]
        simp
      · rw [scanAll_token hscan (hkind t rfl)] at h ⊢
        have hmore := ih _ hshorter q left h rfl
        rw [scanAll_token hscan' (hkind t rfl), hmore,
          List.dropLast_cons_of_ne_nil (scanAll_ne_nil _)]
        simp

end Reader

namespace Token

/-- **Two texts one below the other are read one after the other**, unless a string of the first one is
not closed: what is read from the second one only moves down. -/
theorem tokenize_below (source below : String)
    (h : Closed (tokenize source).diagnostics.toList) :
    (tokenize (source ++ "\n" ++ below)).tokens.toList = (tokenize source).tokens.toList.dropLast ++
      (tokenize below).tokens.toList.map (Token.lower (1 + source.toList.count '\n')) ∧
    (tokenize (source ++ "\n" ++ below)).diagnostics.toList = (tokenize source).diagnostics.toList ++
      (tokenize below).diagnostics.toList.map (Diagnostic.lower (1 + source.toList.count '\n')) := by
  have htext : (source ++ "\n" ++ below).toList = source.toList ++ '\n' :: below.toList := by simp
  rw [tokenize_eq] at h
  have hall := Reader.scanAll_newline .start source.toList below.toList h
  have hlower := Reader.scanAll_lower (1 + source.toList.count '\n') (.ofString below)
  rw [Position.past_start_newline] at hall
  simp only [tokenize_eq, Reader.ofString, htext, hall]
  simp only [Reader.lower, Reader.ofString] at hlower
  rw [hlower]
  exact ⟨rfl, rfl⟩

end Token

end Treewalk
