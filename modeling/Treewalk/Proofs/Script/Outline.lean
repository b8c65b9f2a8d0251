import Treewalk.Proofs.Script.ReadBack
import Treewalk.Proofs.Tree.Spelling

/-!
# A program is known from its outline

The outline of an accepted program tells all of it but the places of its tokens (`outline_determines`). The
parts are put together here: the trees of an accepted text are legible (`legible_of_read`); so their outline,
whatever blanks it is indented by, is read as the forms of the program; equal texts are read as the same forms
(`forms_eq_of_shows`); and a tree is read back from its form.
-/

namespace Treewalk.Script

open Grammar Token

/-! ## Accepted programs are legible -/

/-- The productions build constants of which the texts are lexemes. -/
theorem builds_plain : Builds Token.Readable Expr.Plain where
  literal {t c} ht hc := by
    rintro _ ⟨⟩
    have hliteral := ht.genuine.literal_eq
    have hlexeme := ht.genuine.isLexeme
    unfold Token.constant? at hc
    split at hc
    next =>
      cases hc
      trivial
    next =>
      cases hc
      trivial
    next =>
      cases hc
      trivial
    next hkind =>
      rw [hkind] at hliteral
      have hfinite := ht.finite _ hliteral
      rw [hliteral] at hc
      cases hc
      exact ⟨_, rfl, hfinite⟩
    next hkind =>
      rw [hkind] at hlexeme hliteral
      obtain ⟨value, hvalue, hquote⟩ := hlexeme.eq_quoted
      rw [hliteral, hvalue] at hc
      cases hc
      show '"' ∉ (String.ofList ('"' :: (value ++ ['"'])).tail.dropLast).toList
      simpa using hquote
    next => cases hc
  truth := by
    rintro _ ⟨⟩
    trivial
  name _ _ := nofun
  grouping _ := nofun
  unary _ _ _ := nofun
  join {level _} _ _ _ _ := by cases level <;> nofun
  assign _ _ := nofun
  call _ _ _ _ := nofun

/-- **The statements of an accepted text are legible**, if its numbers are finite. -/
theorem legible_of_read {source : String} {program : List Stmt}
    (hread : (read source #[]).1 = .ok program)
    (hfinite : ∀ t ∈ (tokenize source).tokens, ∀ x, t.literal = some (.number x) → x.isFinite) :
    ∀ s ∈ program, s.Legible := by
  obtain ⟨us, hsentence, hus⟩ := derives_of_read hread
  have hreadable : ∀ t ∈ us, t.Readable := fun t ht => ⟨(hus t ht).2, hfinite t (hus t ht).1⟩
  intro s hs
  refine ⟨fun q hq => ?_, hsentence.everywhere builds_plain hreadable s hs⟩
  obtain ⟨hkind, hmem⟩ := hsentence.places q (Stmt.mem_placesAll.2 ⟨s, hs, hq⟩)
  exact ⟨hkind, (hus _ hmem).2⟩

/-! ## Equal outlines -/

/-- Texts that are the same are read as the same forms. -/
theorem forms_eq_of_shows {text : String} {fs gs : List Form}
    (h : Shows Anywhere text (Stack.put fs)) (h' : Shows Anywhere text (Stack.put gs)) : fs = gs := by
  obtain ⟨us, p, hus, hfold⟩ := h .start [] trivial
  obtain ⟨vs, p', hvs, hfold'⟩ := h' .start [] trivial
  have hscan := hus.scanAll_eq.symm.trans hvs.scanAll_eq
  rw [scanAll_end, scanAll_end] at hscan
  obtain rfl : us = vs := List.append_inj_left' (congrArg Prod.fst hscan) rfl
  have hput : Stack.put fs ⟨[], []⟩ = Stack.put gs ⟨[], []⟩ := (hfold _).symm.trans (hfold' _)
  simpa [Stack.put] using hput

/-- **An outline determines the program.** Two texts are accepted, and their numbers are finite. If what the one
program is written as, with lines indented by any blanks, is what the other one is written as, then the programs
are the same but for the places of their tokens. -/
theorem outline_determines {source source' : String} {program program' : List Stmt}
    {printer printer' : Printer} (hread : (read source #[]).1 = .ok program)
    (hread' : (read source' #[]).1 = .ok program')
    (hfinite : ∀ t ∈ (tokenize source).tokens, ∀ x, t.literal = some (.number x) → x.isFinite)
    (hfinite' : ∀ t ∈ (tokenize source').tokens, ∀ x, t.literal = some (.number x) → x.isFinite)
    (hblank : ∀ c ∈ printer.indentation.toList, c = ' ' ∨ c = '\t')
    (hblank' : ∀ c ∈ printer'.indentation.toList, c = ' ' ∨ c = '\t')
    (heq : printer.whole program = printer'.whole program') :
    Stmt.relabelAll Token.erase program = Stmt.relabelAll Token.erase program' := by
  have hlegible := legible_of_read hread hfinite
  have hlegible' := legible_of_read hread' hfinite'
  have hspaces {p : Printer} (h : ∀ c ∈ p.indentation.toList, c = ' ' ∨ c = '\t') : p.Blank := by
    intro c hc
    rcases h c hc with rfl | rfl <;> rfl
  have htext : Stmt.outlines program printer = Stmt.outlines program' printer' := by
    rw [Printer.whole_eq, Printer.whole_eq, String.toUTF8_eq_toByteArray, String.toUTF8_eq_toByteArray] at heq
    exact String.toByteArray_inj.1 heq
  have hshows := Stmt.show_outlines program hlegible (hspaces hblank)
  have hshows' := Stmt.show_outlines program' hlegible' (hspaces hblank')
  rw [← htext] at hshows'
  have hforms := forms_eq_of_shows hshows hshows'
  calc Stmt.relabelAll Token.erase program
    _ = Form.stmts (Stmt.forms program) := (Stmt.stmts_forms _ fun s hs => (hlegible s hs).fits).symm
    _ = Form.stmts (Stmt.forms program') := by rw [hforms]
    _ = Stmt.relabelAll Token.erase program' := Stmt.stmts_forms _ fun s hs => (hlegible' s hs).fits

/-- A text that prints a number. -/
theorem read_print_number (source : String) {cs : List Char}
    (hsource : source.toList = "print".toList ++ (' ' :: (cs ++ (";".toList ++ []))))
    (hcs : Number.IsNumeral cs) (hfinite : (Number.ofNumeral cs).isFinite) :
    ∃ t : Token, (read source #[]).1 = .ok [.print t (.literal (.number (Number.ofNumeral cs)))] ∧
      ∀ t ∈ (tokenize source).tokens, ∀ x, t.literal = some (.number x) → x.isFinite := by
  have hnumeral (p : Position) :
      Derives .primary [made .number p cs] (.literal (.number (Number.ofNumeral cs))) [] :=
    .constant rfl
  obtain ⟨hread, htokens⟩ := read_print hsource
    (.token (.number hcs) ((delimited_cons (by decide) _).apart _) .nil) (hnumeral _).expression_of_primary
  refine ⟨_, congrArg Prod.fst hread, ?_⟩
  rw [htokens]
  intro t ht x hx
  simp only [List.mem_toArray, List.cons_append, List.nil_append, List.mem_cons, List.not_mem_nil,
    or_false] at ht
  rcases ht with rfl | rfl | rfl | rfl
  · cases hx
  · rwa [← Literal.number.inj (Option.some.inj hx)]
  · cases hx
  · cases hx

/-- The outline of `print 1;` determines it, but for the places of its tokens. -/
theorem outline_determines_print : ∃ t t' : Token,
    let program := [Stmt.print t (.literal (.number (Number.ofNumeral ['1'])))]
    let program' := [Stmt.print t' (.literal (.number (Number.ofNumeral ['1', '.', '0'])))]
    (read "print 1;" #[]).1 = .ok program ∧ (read "print 1.0;" #[]).1 = .ok program' ∧
      (Printer.ofIndentation " ").whole program = (Printer.ofIndentation "\t").whole program' ∧
      Stmt.relabelAll Token.erase program = Stmt.relabelAll Token.erase program' := by
  have hone : Number.IsNumeral ['1'] := .whole (by simp) (by simp)
  have hpoint : Number.IsNumeral (['1'] ++ '.' :: ['0']) :=
    .point (by simp) (by simp) (by simp) (by simp)
  obtain ⟨t, hread, hfinite⟩ := read_print_number "print 1;" rfl hone (by decide +kernel)
  obtain ⟨t', hread', hfinite'⟩ := read_print_number "print 1.0;" rfl hpoint (by decide +kernel)
  have htext : Number.valueStyle.text (Number.ofNumeral ['1']) = "1" := by decide +kernel
  have htext' : Number.valueStyle.text (Number.ofNumeral (['1'] ++ '.' :: ['0'])) = "1" := by
    decide +kernel
  have hwhole : (Printer.ofIndentation " ").whole
      [.print t (.literal (.number (Number.ofNumeral ['1'])))] =
      (Printer.ofIndentation "\t").whole
        [.print t' (.literal (.number (Number.ofNumeral (['1'] ++ '.' :: ['0']))))] := by
    simp only [Printer.whole_eq, Stmt.outlines, Stmt.outline, Expr.outline, htext, htext']
    rfl
  have hsame := outline_determines hread hread' hfinite hfinite'
    (by simp [Printer.ofIndentation]) (by simp [Printer.ofIndentation]) hwhole
  exact ⟨t, t', hread, hread', hwhole, hsame⟩

end Treewalk.Script
