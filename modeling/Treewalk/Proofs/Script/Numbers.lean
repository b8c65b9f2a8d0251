import Treewalk.Proofs.Evaluation.Printed
import Treewalk.Proofs.Script.ReadBack

/-!
# Printed numbers read back

What a finite number is printed as can be put behind `print` again: the text is accepted, and it prints the
same number, bit for bit (`printed_number_reads_back`). The scanner finds the magnitude of the number in its
digits, however many there are, and a minus sign in front of them if the sign bit is set, as it is for the
negative zero. So the sign is not part of the literal; the negation that the program performs puts it back.
-/

namespace Treewalk

open Grammar Token

/-- The tokens of what a number is written as, with their literals. -/
def Number.spelledAs (x : Float) : List (Kind × Option Literal) :=
  (if isNegative x then [(.minus, none)] else []) ++ [(.number, some (.number x.abs))]

/-! ## What is printed -/

namespace Evaluation

open Routine (rulesOf)

variable {s : State}

/-- A literal evaluates to its number and prints nothing. -/
theorem prints_literal (x : Float) (s : State) :
    Prints (eval (.literal (.number x))) s [] (.ok (.number x), s) :=
  ⟨[], .done _, rfl⟩

/-- A minus sign in front of a literal evaluates to the negated number and prints nothing. -/
theorem prints_minus {operator : Token} (h : operator.kind = .minus) (x : Float) (s : State) :
    Prints (eval (.unary operator (.literal (.number x)))) s [] (.ok (.number (-x)), s) := by
  have hunary : unary operator (.number x) = .ok (.number (-x)) := by
    unfold unary
    rw [h]
  have hrest : Plan.Answers (rulesOf rules)
      (.done (unary operator (.number x), s) : Plan (Reply Goal.Result Fault State) _) []
      (.ok (.number (-x)), s) := by
    rw [hunary]
    exact .done _
  have hliteral : Plan.Answers (rulesOf rules)
      (rulesOf rules (Goal.eval (.literal (.number x)), s)) [] (.ok (.number x), s) :=
    .done _
  exact ⟨_, .ask hliteral hrest, rfl⟩

/-- A program that prints a value, and no other on the way, adds one line to the output. -/
theorem Prints.print {e : Expr} {v : Value} {w : ByteArray} (h : Prints (eval e) s [] (.ok v, s))
    (hs : s.Wrote w) (keyword : Token) : Prints (execAll [.print keyword e]) s [v]
      (.ok .normal, { s with sink := ⟨w ++ (v.text ++ "\n").toUTF8, none⟩ }) := by
  have hprinted := printedBy_print keyword h.value
  obtain ⟨qs, hanswers, hqs⟩ := h
  have hstmt : Plan.Answers (rulesOf rules) (rulesOf rules (Goal.exec (.print keyword e), s))
      (qs ++ (Goal.eval e, s) :: [])
      (.ok .normal, { s with sink := ⟨w ++ (v.text ++ "\n").toUTF8, none⟩ }) := by
    refine .ask hanswers ?_
    show Plan.Answers _ ((Eval.print keyword v >>= fun _ => (pure Flow.normal : Eval Flow)) s) _ _
    rw [Routine.bind_apply_of_ok (hs.print keyword v)]
    exact .done _
  refine ⟨_, .ask hstmt (.done _), ?_⟩
  have hnone : [((.eval e : Goal), s)].filterMap printedBy = [] := rfl
  rw [List.filterMap_append, List.filterMap_append, hqs, hnone, List.filterMap_cons, hprinted]
  rfl

end Evaluation

namespace Script

open Evaluation (Prints State eval execAll)

/-! ## What is read -/

/-- In front of a delimiter, what a finite number is written as spells an expression, of which the value is
the number. -/
theorem exists_yields_number {x : Float} (h : x.isFinite) {rest : List Char} (hrest : Delimited rest)
    (p : Position) : ∃ us e p',
      Yields ⟨p, (Number.valueStyle.text x).toList ++ rest⟩ us ⟨p', rest⟩ ∧
        us.map (fun t => (t.kind, t.literal)) = Number.spelledAs x ∧ Derives .expression us e [] ∧
        ∀ s, Prints (eval e) s [] (.ok (.number x), s) := by
  obtain ⟨cs, htext, hcs, hvalue⟩ := Number.text_of_isFinite Number.valueStyle h
  have hx := Number.eq_abs_or_neg_abs (Number.toGrid_lt_infinity h).le
  have hdigits (p : Position) : Yields ⟨p, cs ++ rest⟩ [made .number p cs] ⟨p.past cs, rest⟩ :=
    .token (.number hcs) (hrest.apart _) .nil
  have hliteral (p : Position) : (made .number p cs).literal = some (.number x.abs) := by
    rw [← hvalue]
    rfl
  have hprimary (p : Position) :
      Derives .primary [made .number p cs] (.literal (.number x.abs)) [] := by
    rw [← hvalue]
    exact .constant rfl
  unfold Number.spelledAs
  by_cases hnegative : Number.isNegative x
  · rw [if_pos hnegative] at htext hx ⊢
    have hchars : (Number.valueStyle.text x).toList = "-".toList ++ cs := by
      rw [htext, String.toList_append, String.toList_ofList (l := cs)]
    have hminus (p : Position) : (made .minus p "-".toList).kind ∈ [.not, .minus] :=
      .tail _ (.head _)
    rw [hchars, List.append_assoc]
    refine ⟨_, _, _, .fixed .minus rfl (fun _ _ => rfl) (hdigits _), ?_,
      Derives.expression_of_unary (.unary (hminus _) (hprimary _).unary_of_primary), ?_⟩
    · rw [List.map_cons, List.map_cons, hliteral]
      rfl
    · intro s
      have hkind : (made .minus p "-".toList).kind = .minus := rfl
      have hprints := Evaluation.prints_minus hkind x.abs s
      rwa [← hx] at hprints
  · rw [if_neg hnegative] at htext hx ⊢
    have hchars : (Number.valueStyle.text x).toList = cs := by
      rw [htext, String.empty_append, String.toList_ofList]
    rw [hchars]
    refine ⟨_, _, _, hdigits p, ?_, (hprimary p).expression_of_primary, ?_⟩
    · rw [List.map_cons, hliteral]
      rfl
    · intro s
      rw [← hx]
      exact Evaluation.prints_literal x s

/-- The text of a program that prints a number: `print v;`, where `v` is what the number is written as. -/
def printing (x : Float) : String :=
  "print " ++ Number.valueStyle.text x ++ ";"

/-- The characters of the text that prints a number. -/
theorem toList_printing (x : Float) : (printing x).toList =
    "print".toList ++ (' ' :: ((Number.valueStyle.text x).toList ++ (";".toList ++ []))) := by
  simp [printing]

/-- **A printed number reads back as itself.** The text that prints a finite number `x` has the tokens of
`print`, of a minus sign if the sign bit of `x` is set, of the magnitude of `x` and of the semicolon. It is
accepted, and on a fresh interpreter it comes to its end and prints the value `x`, which is to say what `x` is
written as and the end of the line. -/
theorem printed_number_reads_back {x : Float} (hfinite : x.isFinite) :
    (tokenize (printing x)).diagnostics = #[] ∧
      (tokenize (printing x)).tokens.toList.map (fun t => (t.kind, t.literal)) =
        (.kwPrint, none) :: Number.spelledAs x ++ [(.semicolon, none), (.eof, none)] ∧
      ∃ program t, read (printing x) #[] = (.ok program, #[]) ∧
        (∃ steps, run steps (printing x) (.initial (.empty none)) #[] = some (.ok (), t, #[])) ∧
        Prints (execAll program) (.initial (.empty none)) [.number x] (.ok .normal, t) ∧
        t.sink.written = (Number.valueStyle.text x ++ "\n").toUTF8 := by
  obtain ⟨us, e, p, hnumber, hspelled, hexpression, hprints⟩ := exists_yields_number hfinite
    (delimited_cons (c := ';') (by decide) []) (Position.advance (Position.past .start "print".toList) ' ')
  obtain ⟨hread, htokens⟩ := read_print (toList_printing x) hnumber hexpression
  have hprogram := (hprints (.initial (.empty none))).print rfl (made .kwPrint .start "print".toList)
  obtain ⟨steps, hrun⟩ := exists_run_of_value hread hprogram.value
  refine ⟨?_, ?_, _, _, hread, ⟨steps, hrun⟩, hprogram, ?_⟩
  · rw [htokens]
  · rw [htokens]
    show List.map _ (_ :: (us ++ _) ++ _) = _
    rw [List.map_append, List.map_cons, List.map_append, hspelled]
    simp [made, literalOf]
  · exact ByteArray.empty_append

/-- The sign of a negative zero is printed, and read. -/
theorem printed_number_reads_back_negative_zero :
    (tokenize "print -0;").tokens.toList.map (fun t => (t.kind, t.literal)) =
        [(.kwPrint, none), (.minus, none), (.number, some (.number 0)), (.semicolon, none), (.eof, none)] ∧
      ∃ program t, read "print -0;" #[] = (.ok program, #[]) ∧
        Prints (execAll program) (.initial (.empty none)) [.number (-0)] (.ok .normal, t) ∧
        t.sink.written = "-0\n".toUTF8 := by
  have hfinite : (-0 : Float).isFinite := by decide +kernel
  have htext : Number.valueStyle.text (-0) = "-0" := by decide +kernel
  have hspelled : Number.spelledAs (-0) = [(.minus, none), (.number, some (.number 0))] := by
    have hnegative : Number.isNegative (-0) = true := by decide +kernel
    have habs : (-0 : Float).abs = 0 := by decide +kernel
    rw [Number.spelledAs, if_pos hnegative, habs]
    rfl
  obtain ⟨-, htokens, program, t, hread, -, hprints, hwritten⟩ := printed_number_reads_back hfinite
  have hsource : printing (-0) = "print -0;" := by
    rw [printing, htext]
    rfl
  rw [hsource, hspelled] at htokens
  rw [hsource] at hread
  rw [htext] at hwritten
  exact ⟨htokens, program, t, hread, hprints, hwritten⟩

end Script

end Treewalk
