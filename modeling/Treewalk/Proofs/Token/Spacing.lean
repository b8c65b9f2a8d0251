import Treewalk.Proofs.Script.ReadBack
import Treewalk.Proofs.Token.Concatenation
import Treewalk.Proofs.Token.Layout

/-!
# Tokens survive being written out

The lexemes of some tokens, with single spaces between them, are a text again (`spaced`). A space ends every
token and is part of none, so nothing depends on what a lexeme stood beside in the text that it comes from:
two slashes with a space between them begin no comment, and a number before a point and digits stays a whole
number. Hence the tokens of any text, also of one with which something is wrong, are read again from what
they are written as, and there is nothing to complain about any more (`tokens_survive_spacing`).
-/

namespace Treewalk

namespace Token

/-- The lexemes of some tokens, with single spaces between them. -/
def spaced (ts : List Token) : String :=
  " ".intercalate (ts.map lexeme)

/-- The same token, wherever the two stand. -/
structure Alike (t u : Token) : Prop where
  kind : u.kind = t.kind
  lexeme : u.lexeme = t.lexeme
  literal : u.literal = t.literal

/-- A token is like itself elsewhere. -/
theorem alike_movedTo (t : Token) (p : Position) : Alike t (t.movedTo p) :=
  ⟨rfl, rfl, rfl⟩

/-- Tokens that are alike one by one have the same lexemes. -/
theorem map_lexeme_of_alike {ts us : List Token} (h : List.Forall₂ Alike ts us) :
    us.map lexeme = ts.map lexeme := by
  induction h with
  | nil => rfl
  | cons h _ ih => rw [List.map_cons, List.map_cons, h.lexeme, ih]

/-- How the spaced text begins. -/
theorem toList_spaced_cons (t : Token) {ts : List Token} (hts : ts ≠ []) :
    (spaced (t :: ts)).toList = t.lexeme.toList ++ ' ' :: (spaced ts).toList := by
  obtain ⟨u, us, rfl⟩ := List.exists_cons_of_ne_nil hts
  simp [spaced, String.intercalate_cons_cons]

/-- **Lexemes that are written with spaces between them are read one by one.** The last token is the one at
the end, for which nothing is written. -/
theorem exists_yields_spaced {ts : List Token} (hts : ∀ t ∈ ts, t.Genuine) {finish : Token}
    (hfinish : finish.lexeme = "") (p : Position) :
    ∃ us q, Yields ⟨p, (spaced (ts ++ [finish])).toList⟩ us ⟨q, []⟩ ∧ List.Forall₂ Alike ts us := by
  induction ts generalizing p with
  | nil =>
    have hempty : (spaced [finish]).toList = [] := by
      simp [spaced, hfinish]
    refine ⟨[], p, ?_, .nil⟩
    rw [List.nil_append, hempty]
    exact .nil
  | cons t ts ih =>
    rw [List.forall_mem_cons] at hts
    obtain ⟨us, q, hus, halike⟩ := ih hts.2 ((p.past t.lexeme.toList).advance ' ')
    refine ⟨t.movedTo p :: us, q, ?_, .cons (t.alike_movedTo p) halike⟩
    rw [List.cons_append, toList_spaced_cons t (List.append_ne_nil_of_right_ne_nil ts (List.cons_ne_nil _ _))]
    apply Yields.again hts.1 (Grammar.apart_space _ _)
    exact Grammar.Yields.space hus

/-- The tokens of a text are lexemes, and behind them stands the one at the end. -/
theorem exists_genuine (source : String) : ∃ ts,
    (tokenize source).tokens.toList = ts ++ [finishOf source.toList] ∧ ∀ t ∈ ts, t.Genuine := by
  have hstart : (Reader.ofString source).position = .after [] := rfl
  obtain ⟨pieces, hpieces⟩ := (Reader.ofString source).exists_laysOut hstart
  obtain ⟨ts, finish, hts, -, hkinds⟩ := (Reader.ofString source).scanAll_eq_concat
  have hend : ts ++ [finish] = pieces.filterMap Piece.token? ++ [finishOf source.toList] := by
    rw [← hts]
    exact hpieces.tokens
  have hfinish : finish = finishOf source.toList := List.singleton_inj.1 (List.append_inj_right' hend rfl)
  rw [tokenize_eq, List.toList_toArray, hts, hfinish]
  refine ⟨ts, rfl, fun t ht => ?_⟩
  have hmem : t ∈ (Reader.ofString source).scanAll.1 := by
    rw [hts]
    exact List.mem_append_left _ ht
  exact genuine_of_mem_scanAll hmem (hkinds t ht)

/-- **Tokens survive being written out and read again.** Whatever is wrong with a text, its lexemes with single
spaces between them are a text with which nothing is wrong. It has as many tokens, and one after the other
they have the same kinds, lexemes and values. -/
theorem tokens_survive_spacing (source : String) :
    (tokenize (spaced (tokenize source).tokens.toList)).diagnostics = #[] ∧
      List.Forall₂ Alike (tokenize source).tokens.toList
        (tokenize (spaced (tokenize source).tokens.toList)).tokens.toList := by
  obtain ⟨ts, hts, hgenuine⟩ := exists_genuine source
  have hfinish : (finishOf source.toList).lexeme = "" := rfl
  obtain ⟨us, q, hus, halike⟩ := exists_yields_spaced hgenuine hfinish .start
  rw [← hts] at hus
  rw [tokenize_of_yields hus]
  refine ⟨rfl, ?_⟩
  rw [hts, List.toList_toArray]
  exact List.rel_append halike (.cons ⟨rfl, rfl, rfl⟩ .nil)

/-- A number before a point and a digit, two slashes, and a character that no token begins with. Written out,
the three are further apart, the number stays whole, no comment begins, and the character is gone. -/
theorem tokens_survive_spacing_slashes :
    (tokenize "x=1 .5/ /@\ny").diagnostics.toList.map Diagnostic.text =
        ["[line 1] Error: Unexpected character '@'."] ∧
      spaced (tokenize "x=1 .5/ /@\ny").tokens.toList = "x = 1 . 5 / / y " ∧
      (tokenize "x = 1 . 5 / / y ").diagnostics = #[] ∧
      (tokenize "x = 1 . 5 / / y ").tokens.toList.map lexeme =
        ["x", "=", "1", ".", "5", "/", "/", "y", ""] := by
  obtain ⟨hdiagnostics, htokens⟩ := tokens_survive_spacing "x=1 .5/ /@\ny"
  have hspaced : spaced (tokenize "x=1 .5/ /@\ny").tokens.toList = "x = 1 . 5 / / y " := by
    decide +kernel
  rw [hspaced] at hdiagnostics htokens
  refine ⟨by decide +kernel, hspaced, hdiagnostics, ?_⟩
  rw [map_lexeme_of_alike htokens]
  decide +kernel

end Token

end Treewalk
