import Treewalk.Proofs.Token.Concatenation
import Treewalk.Proofs.Token.Layout

/-!
# Reading distributes over a line feed

Of the strings of a text only the last can be left open, because an open string reaches to the end
(`Reader.countP_unterminated_le`). So a text with an open string cannot have just any text below it: what
stands below may close the string, or leave open one of its own. A text without one can. What is written
below it is read as if it stood alone, only further down, and nothing of what is complained about is lost
(`tokenize_distributes`).
-/

namespace Treewalk

open Token

namespace Reader

variable {r r' : Reader}

/-- An open string reaches to the end of the text. -/
theorem rest_of_unterminated {p : Position} (h : r.scan = (.error (.unterminatedString p), r')) :
    r'.rest = [] := by
  obtain ⟨skipped, rest, -, -, -, hscan⟩ := r.exists_scan_eq
  rw [h] at hscan
  cases rest with
  | nil => simp [scanAt] at hscan
  | cons ch more =>
    rcases hstretch : stretch ch more with ⟨verdict, tail⟩
    simp only [scanAt, hstretch, Prod.mk.injEq] at hscan
    obtain ⟨hresult, rfl⟩ := hscan
    cases verdict with
    | token | unexpected => simp [Verdict.result] at hresult
    | unterminated =>
      obtain ⟨rfl, hquote⟩ := stretch_unterminated_iff.1 (congrArg Prod.fst hstretch)
      rw [stretch_of_open hquote] at hstretch
      simp [← (Prod.mk.inj hstretch).2]

/-- **Only one string of a text can be open.** -/
theorem countP_unterminated_le (r : Reader) :
    r.scanAll.2.countP (·.complaint = .unterminatedString) ≤ 1 := by
  fun_induction scanAll r with
  | case1 => simp
  | case2 r t r' hscan hkind hlt ts ds hmore ih => simpa [hmore] using ih
  | case3 r e r' hscan hlt ts ds hmore ih =>
    cases e with
    | unexpectedCharacter p c =>
      simpa [LexicalError.diagnostic, LexicalError.complaint, hmore] using ih
    | unterminatedString p =>
      -- behind an open string there is nothing left that could be complained about
      have hend : r'.rest.dropWhile CharClass.isBlank = [] := by simp [rest_of_unterminated hscan]
      have hds : ds = [] := by
        rw [scanAll_eof (scan_end hend) rfl] at hmore
        exact (Prod.mk.inj hmore).2.symm
      simp [hds, LexicalError.diagnostic, LexicalError.complaint]

/-- A quote alone is an open string. -/
theorem scanAll_quote (p : Position) :
    (scanAll ⟨p, ['"']⟩).2 = [(LexicalError.unterminatedString p).diagnostic] := by
  have hready : Ready ['"'] := ⟨by simp [blanks], by simp [List.cons_prefix_cons]⟩
  have hscan := scan_ready (p := p) hready
  have hstretch : stretch '"' [] = (.unterminated, []) := stretch_of_open (by simp)
  simp only [scanAt, hstretch] at hscan
  rw [scanAll_error hscan, scanAll_eof (scan_end rfl) rfl]

end Reader

namespace Token

/-- A text has an open string exactly if one is complained about. -/
theorem not_closed_iff {ds : List Diagnostic} :
    ¬Closed ds ↔ 0 < ds.countP (·.complaint = .unterminatedString) := by
  simp [Closed, List.countP_pos_iff]

/-- At most one string of a text is left open. -/
theorem countP_unterminated_le (source : String) :
    (tokenize source).diagnostics.toList.countP (·.complaint = .unterminatedString) ≤ 1 := by
  simpa [tokenize_eq] using (Reader.ofString source).countP_unterminated_le

/-- The text of a single quote has an open string. -/
theorem not_closed_quote : ¬Closed (tokenize "\"").diagnostics.toList := by
  have hquote : (tokenize "\"").diagnostics.toList =
      [(LexicalError.unterminatedString .start).diagnostic] := by
    rw [tokenize_eq]
    exact Reader.scanAll_quote .start
  rw [hquote]
  simp [Closed, LexicalError.diagnostic, LexicalError.complaint]

/-- Moving down does not close a string. -/
theorem closed_lower (k : Int) {ds : List Diagnostic} :
    Closed (ds.map (Diagnostic.lower k)) ↔ Closed ds := by
  simp [Closed, Diagnostic.lower]

/-- What is read of two texts with a line feed between them is the given tokens, then all that is read of
the lower text, further down by the lines of the upper one and in the same columns; and what is complained
about is what is complained about in the upper text and then in the lower one, further down. -/
structure Distributes (source below : String) (tokens : List Token) : Prop where
  tokens_eq : (tokenize (source ++ "\n" ++ below)).tokens.toList = tokens ++
    (tokenize below).tokens.toList.map (Token.lower (1 + source.toList.count '\n'))
  diagnostics_eq : (tokenize (source ++ "\n" ++ below)).diagnostics.toList =
    (tokenize source).diagnostics.toList ++
      (tokenize below).diagnostics.toList.map (Diagnostic.lower (1 + source.toList.count '\n'))

/-- Below an open string, a quote would have to open another one, and there is only one. -/
theorem not_distributes_quote {source : String} (hopen : ¬Closed (tokenize source).diagnostics.toList)
    (tokens : List Token) : ¬Distributes source "\"" tokens := by
  rintro ⟨-, hdiagnostics⟩
  have hone := countP_unterminated_le (source ++ "\n" ++ "\"")
  rw [hdiagnostics, List.countP_append] at hone
  have hfirst := not_closed_iff.1 hopen
  have hsecond := not_closed_iff.1 (mt (closed_lower (1 + source.toList.count '\n')).1 not_closed_quote)
  omega

/-- **Reading distributes over a line feed**, whatever is wrong with the two texts, exactly if no string
of the first is open. The tokens are those of the first text but for the one at its end, then those of
the second; what is complained about is what is complained about in the first and then in the second. All
that comes from the second stands further down by the lines of the first, in the same columns. The texts
are short enough together that the counters of lines and columns have room for every position; within
this bound, an open string always has a text below which it is not so. -/
theorem tokenize_distributes (source : String) : ∃ tokens finish,
    (tokenize source).tokens.toList = tokens ++ [finish] ∧ finish.kind = .eof ∧
      (∀ t ∈ tokens, t.kind ≠ .eof) ∧
      (Closed (tokenize source).diagnostics.toList → ∀ below,
        (source ++ "\n" ++ below).length < 2 ^ 31 - 1 →
          Counted (source ++ "\n" ++ below) ∧ Distributes source below tokens) ∧
      (¬Closed (tokenize source).diagnostics.toList → source.length + 2 < 2 ^ 31 - 1 →
        ∃ below, (source ++ "\n" ++ below).length < 2 ^ 31 - 1 ∧ ¬Distributes source below tokens) := by
  obtain ⟨tokens, finish, htokens, hfinish, hkinds⟩ := (Reader.ofString source).scanAll_eq_concat
  have hsource : (tokenize source).tokens.toList = tokens ++ [finish] := by
    rw [tokenize_eq, ← htokens]
  refine ⟨tokens, finish, hsource, hfinish, hkinds, ?_, ?_⟩
  · intro hclosed below hlength
    obtain ⟨hbelow, hdiagnostics⟩ := tokenize_below source below hclosed
    rw [hsource, List.dropLast_concat] at hbelow
    exact ⟨counted_of_length hlength, hbelow, hdiagnostics⟩
  · intro hopen hroom
    refine ⟨"\"", ?_, not_distributes_quote hopen tokens⟩
    rw [String.length_append, String.length_append]
    exact hroom

/-- A text with a character that nothing begins with, and an open string below it. -/
theorem tokenize_distributes_errors :
    (tokenize ("@\n1" ++ "\n" ++ "\"x")).tokens.toList.map (fun t => (t.lexeme, t.start, t.stop)) =
        [("1", ⟨2, 1⟩, ⟨2, 2⟩), ("", ⟨3, 3⟩, ⟨3, 3⟩)] ∧
      (tokenize ("@\n1" ++ "\n" ++ "\"x")).diagnostics.toList.map Diagnostic.text =
        ["[line 1] Error: Unexpected character '@'.", "[line 3] Error: Unterminated string."] := by
  obtain ⟨tokens, finish, htokens, -, -, hclosed, -⟩ := tokenize_distributes "@\n1"
  have hnone : Closed (tokenize "@\n1").diagnostics.toList := by
    unfold Closed
    decide +kernel
  obtain ⟨-, hall⟩ := hclosed hnone "\"x" (by decide +kernel)
  have hfirst : tokens.map (fun t => (t.lexeme, t.start, t.stop)) = [("1", ⟨2, 1⟩, ⟨2, 2⟩)] := by
    have hdrop : tokens = (tokenize "@\n1").tokens.toList.dropLast := by
      rw [htokens, List.dropLast_concat]
    rw [hdrop]
    decide +kernel
  rw [hall.tokens_eq, hall.diagnostics_eq, List.map_append, List.map_append, hfirst]
  constructor <;> decide +kernel

end Token

end Treewalk
