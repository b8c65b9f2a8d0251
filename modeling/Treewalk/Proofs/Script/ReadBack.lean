import Treewalk.Proofs.Evaluation.Erased
import Treewalk.Proofs.Grammar.Written
import Treewalk.Proofs.Script.Run

/-!
# A program reads back from its text

The texts of the statements of a program, one below the other, are a program text again
(`text_reads_back`). It is read as the same program but for parentheses and positions, and what is
seen of running it is what is seen of running the first text: it comes to an end exactly if the other
does, with the same output and in the same way.

The parts are put together here: a text that yields the tokens of a sentence is read as this sentence
(`read_of_yields`); an accepted text has a derivation from readable tokens (`derives_of_read`);
the text of what is derived is written (`Derives.spelled`); and trees that are equal after erasure run
alike (`seen_interpret_iff`).
-/

namespace Treewalk

open Grammar Token

/-- The tokens of a written text do not include the one that marks the end. -/
theorem Yields.kind_ne_eof {r r' : Reader} {vs : List Token} (h : Yields r vs r') :
    ∀ t ∈ vs, t.kind ≠ .eof := by
  induction h with
  | nil => exact fun t ht => absurd ht List.not_mem_nil
  | blank _ _ ih => exact ih
  | token hcs _ _ ih => exact List.forall_mem_cons.2 ⟨hcs.kind_ne_eof, ih⟩

/-- A text may be written out token by token, whatever it is written as. -/
theorem Yields.ofString {source : String} {cs : List Char} {r : Reader} {vs : List Token}
    (hsource : source.toList = cs) (h : Yields ⟨.start, cs⟩ vs r) : Yields (.ofString source) vs r := by
  rw [← hsource] at h
  exact h

/-- At the end of the text, the scanner yields the end token and nothing else. -/
theorem scanAll_end (p : Position) : Reader.scanAll ⟨p, []⟩ = ([made .eof p []], []) :=
  Reader.scanAll_eof (Reader.scan_end rfl) rfl

/-- The tokens of a text that is written out to its end. -/
theorem tokenize_of_yields {source : String} {vs : List Token} {p : Position}
    (h : Yields (.ofString source) vs ⟨p, []⟩) :
    tokenize source = ⟨(vs ++ [made .eof p []]).toArray, #[]⟩ := by
  rw [tokenize_eq, h.scanAll_eq, scanAll_end]

/-- The tokens before the end token are those that were put there. -/
theorem beforeEnd_append_eof {vs : List Token} (h : ∀ t ∈ vs, t.kind ≠ .eof) {t : Token}
    (ht : t.kind = .eof) : beforeEnd (vs ++ [t]) = vs := by
  unfold beforeEnd
  rw [List.takeWhile_append_of_pos (by simpa using h)]
  simp [ht]

namespace Script

/-- **A text that spells a sentence is read as what the sentence stands for.** -/
theorem read_of_yields {source : String} {vs : List Token} {p : Position} {program : List Stmt}
    (h : Yields (.ofString source) vs ⟨p, []⟩) (hprogram : Sentence vs program) :
    read source #[] = (.ok program, #[]) := by
  have hend : beforeEnd (vs ++ [made .eof p []]) = vs := beforeEnd_append_eof h.kind_ne_eof rfl
  have hparse : Grammar.parse (vs ++ [made .eof p []]) = ⟨program, #[], false⟩ :=
    parse_of_derives (by rw [hend]; exact hprogram)
  rw [read_eq]
  unfold parse
  rw [tokenize_of_yields h]
  simp [hparse]

/-- A text that prints an expression, and its tokens. -/
theorem read_print {source : String} {cs : List Char} {us : List Token} {p : Position} {e : Expr}
    (hsource : source.toList = "print".toList ++ (' ' :: (cs ++ (";".toList ++ []))))
    (hus : Yields ⟨Position.advance (Position.past .start "print".toList) ' ', cs ++ (";".toList ++ [])⟩ us
      ⟨p, ";".toList ++ []⟩)
    (he : Derives .expression us e []) :
    read source #[] = (.ok [.print (made .kwPrint .start "print".toList) e], #[]) ∧
      tokenize source = ⟨(made .kwPrint .start "print".toList :: (us ++ [made .semicolon p ";".toList]) ++
        [made .eof (p.past ";".toList) []]).toArray, #[]⟩ := by
  have hvs : Yields (.ofString source) (made .kwPrint .start "print".toList ::
      (us ++ [made .semicolon p ";".toList])) ⟨p.past ";".toList, []⟩ :=
    .ofString hsource (.fixed .kwPrint rfl (apart_space _ _)
      (Grammar.Yields.space (hus.append (.fixed .semicolon rfl (fun _ _ => rfl) .nil))))
  refine ⟨read_of_yields hvs ?_, tokenize_of_yields hvs⟩
  exact .moreDeclarations .noDeclarations (.statementDeclaration (.print rfl he rfl))

/-- A text that is accepted is one with which nothing is wrong. -/
theorem parse_of_read {source : String} {program : List Stmt}
    (h : (read source #[]).1 = .ok program) : parse source = ⟨program, #[], false⟩ := by
  rw [read_eq] at h
  dsimp only at h
  split at h
  next hempty =>
    cases h
    have hdiagnostics : (parse source).diagnostics = #[] := by simpa using hempty
    have hflag : (parse source).hadError = false :=
      Bool.eq_false_iff.2 fun h => diagnostics_of_hadError h hdiagnostics
    calc parse source
      _ = ⟨(parse source).program, (parse source).diagnostics, (parse source).hadError⟩ := rfl
      _ = ⟨(parse source).program, #[], false⟩ := by rw [hdiagnostics, hflag]
  next => cases h

/-- An accepted text has a derivation from lexemes, which are tokens of the text. -/
theorem derives_of_read {source : String} {program : List Stmt}
    (h : (read source #[]).1 = .ok program) :
    ∃ us, Sentence us program ∧ ∀ t ∈ us, t ∈ (tokenize source).tokens ∧ t.Genuine := by
  have hparsed := parse_of_read h
  have hdiagnostics : (parse source).diagnostics = #[] := by rw [hparsed]
  have hprogram : (parse source).program = program := by rw [hparsed]
  have hclean : (Grammar.parse (tokenize source).tokens.toList).diagnostics = #[] :=
    (Array.append_eq_empty_iff.1 hdiagnostics).2
  subst hprogram
  refine ⟨_, sentence_of_parse hclean, fun t ht => ?_⟩
  have hmem : t ∈ (tokenize source).tokens.toList := (List.takeWhile_sublist _).subset ht
  have hkind : t.kind ≠ .eof := by simpa using List.mem_takeWhile_imp ht
  refine ⟨by simpa using hmem, ?_⟩
  rw [tokenize_eq] at hmem
  exact genuine_of_mem_scanAll hmem hkind

/-! ## What is seen of a run -/

/-- A failure at a token without its place. -/
def erased : Failure → Failure
  | .badProgram => .badProgram
  | .fault f => .fault f.erase

/-- What is seen of running a text from outside: the output, and how it ended, with a failure and its
words. -/
def seen (out : Except Failure Unit × Evaluation.State × Log) :
    ByteArray × Except (Failure × String) Unit :=
  (out.2.1.sink.written,
    match out.1 with
    | .ok _ => .ok ()
    | .error e => .error (erased e, e.message))

/-- What is seen of running an accepted text is what is seen of running the program. -/
theorem exists_run_iff {source : String} {program : List Stmt}
    (h : (read source #[]).1 = .ok program) (s : Evaluation.State)
    (x : ByteArray × Except (Failure × String) Unit) :
    (∃ steps, (run steps source s #[]).map seen = some x) ↔
      ∃ y, (x.1 = y.1 ∧ x.2 = y.2.mapError fun (f, words) => (.fault f, words)) ∧
        ∃ steps, (Evaluation.interpret steps program s).map Evaluation.seen = some y := by
  have hrun (steps : Nat) : (run steps source s #[]).map seen =
      ((Evaluation.interpret steps program s).map Evaluation.seen).map fun y =>
        (y.1, y.2.mapError fun (f, words) => (.fault f, words)) := by
    rw [run_eq, read_eq, parse_of_read h]
    simp only [Array.append_empty, Array.isEmpty_empty, if_true, Option.map_map]
    congr 1
    funext ⟨result, t⟩
    cases result <;> rfl
  simp only [hrun, Option.map_eq_some_iff]
  constructor
  · rintro ⟨steps, y, ⟨out, hout, rfl⟩, rfl⟩
    exact ⟨_, ⟨rfl, rfl⟩, steps, out, hout, rfl⟩
  · rintro ⟨y, ⟨h₁, h₂⟩, steps, out, hout, rfl⟩
    exact ⟨steps, _, ⟨out, hout, rfl⟩, Prod.ext h₁.symm h₂.symm⟩

/-! ## The text of a program -/

/-- The text of a program: its statements, one below the other. -/
def textOf (program : List Stmt) : String :=
  "\n".intercalate (Stmt.texts program)

/-- **A program reads back from its text**, if its numbers are finite. The statements of an accepted
text, one below the other, are accepted; they are the same program but for parentheses and positions;
and on a fresh interpreter whatever is seen of running one text is seen of running the other, so that
either both come to an end, with the same output and in the same way, or neither does. -/
theorem text_reads_back {source : String} {program : List Stmt}
    (hread : (read source #[]).1 = .ok program)
    (hfinite : ∀ t ∈ (tokenize source).tokens, ∀ x, t.literal = some (.number x) → x.isFinite) :
    ∃ program', read (textOf program) #[] = (.ok program', #[]) ∧
      Stmt.eraseAll program' = Stmt.eraseAll program ∧
      ∀ sink x, (∃ steps, (run steps (textOf program) (.initial sink) #[]).map seen = some x) ↔
        ∃ steps, (run steps source (.initial sink) #[]).map seen = some x := by
  obtain ⟨us, hsentence, hus⟩ := derives_of_read hread
  have hreadable : ∀ t ∈ us, t.Readable := fun t ht => ⟨(hus t ht).2, hfinite t (hus t ht).1⟩
  have hspelled := hsentence.spelled rfl hreadable "\n" (.inr rfl)
  obtain ⟨vs, p, program', hvs, hsentence', herase⟩ := hspelled .start [] (fun c hc => by cases hc)
  rw [List.append_nil] at hvs
  have hread' : read (textOf program) #[] = (.ok program', #[]) := read_of_yields hvs hsentence'
  refine ⟨program', hread', herase, fun sink x => ?_⟩
  rw [exists_run_iff (congrArg Prod.fst hread'), exists_run_iff hread]
  simp only [Evaluation.seen_interpret_iff herase]

/-- The parentheses of `print (1);` are in its text, and the program that is read back is the same. -/
theorem text_reads_back_print : ∃ program program',
    (read "print (1);" #[]).1 = .ok program ∧ textOf program = "print (1);" ∧
      read (textOf program) #[] = (.ok program', #[]) ∧
      Stmt.eraseAll program' = Stmt.eraseAll program := by
  have hshape : "print (1);".toList = "print".toList ++ (' ' :: ("(".toList ++ (['1'] ++
      (")".toList ++ (";".toList ++ []))))) := rfl
  have hone : IsLexeme .number ['1'] :=
    .number (.whole (List.cons_ne_nil _ _) (List.forall_mem_singleton.2 rfl))
  have hvs : Yields (.ofString "print (1);") _ ⟨_, []⟩ :=
    .ofString hshape (.fixed .kwPrint rfl (apart_space _ _) (Yields.space (.fixed .leftParen rfl
      (fun _ _ => rfl) (.token hone ((delimited_cons (by decide) _).apart _) (.fixed .rightParen rfl
        (fun _ _ => rfl) (.fixed .semicolon rfl (fun _ _ => rfl) .nil))))))
  have hfinite : ∀ t ∈ (tokenize "print (1);").tokens, ∀ x,
      t.literal = some (.number x) → x.isFinite := by
    rw [tokenize_of_yields hvs]
    intro t ht x hx
    simp only [List.mem_toArray, List.cons_append, List.nil_append, List.mem_cons,
      List.not_mem_nil, or_false] at ht
    rcases ht with rfl | rfl | rfl | rfl | rfl | rfl
    · cases hx
    · cases hx
    · rw [← Literal.number.inj (Option.some.inj hx)]
      decide +kernel
    · cases hx
    · cases hx
    · cases hx
  obtain ⟨a, b, c, d, e, hvs, ha, hb, hc, hd, he⟩ : ∃ a b c d e,
      Yields (.ofString "print (1);") [a, b, c, d, e] ⟨_, []⟩ ∧ a.kind = .kwPrint ∧
        b.kind = .leftParen ∧ c.constant? = some (.number (Number.ofNumeral ['1'])) ∧
        d.kind = .rightParen ∧ e.kind = .semicolon :=
    ⟨_, _, _, _, _, hvs, rfl, rfl, rfl, rfl, rfl⟩
  have hexpression : Derives .primary [b, c, d] _ [] :=
    .grouping hb (Derives.expression_of_primary (.constant hc)) hd
  have hsentence : Sentence [a, b, c, d, e] _ :=
    .moreDeclarations .noDeclarations
      (.statementDeclaration (.print ha hexpression.expression_of_primary he))
  have hread := congrArg Prod.fst (read_of_yields hvs hsentence)
  obtain ⟨program', hread', herase, -⟩ := text_reads_back hread hfinite
  have hdigits : (Constant.number (Number.ofNumeral ['1'])).text = "1" := by decide +kernel
  refine ⟨_, program', hread, ?_, hread', herase⟩
  show "print " ++ ("(" ++ (Constant.number (Number.ofNumeral ['1'])).text ++ ")") ++ ";" = _
  rw [hdigits]
  rfl

end Script

end Treewalk
