import Treewalk.Number.Style
import Treewalk.Proofs.Number.Bits

/-!
# What is written of a number reads back

The digits that a finite double is shown with denote this double again (`ofNumeral_shortest`). Three
things make it so: a value on the grid is nearest to itself (`nearest_units`), the search for the
shortest digits only ends at a decimal that rounds to the double, if need be at the exact one
(`toGrid_shortest`), and the digits of a decimal, written out, denote it (`toGrid_ofNumeral_plain`).
What is written has the form of a numeral: digits, or digits, a point and digits (`IsNumeral`), behind the
sign (`text_of_isFinite`).
-/

namespace Treewalk.Number

/-! ## The nearest double -/

/-- How far a full mantissa is shifted can be read off the size of the number. -/
theorem log2_sub_of_mantissa {m s : Nat} (hm : m < 2 ^ 53) (hs : s = 0 ∨ 2 ^ 52 ≤ m) :
    (m * 2 ^ s).log2 - 52 = s := by
  rcases hs with rfl | hs
  · rw [Nat.pow_zero, Nat.mul_one]
    rcases Nat.eq_zero_or_pos m with rfl | hpos
    · rfl
    · have := (Nat.log2_lt (by omega)).2 hm
      omega
  · have hpow : 0 < 2 ^ s := Nat.two_pow_pos s
    have hlog : (m * 2 ^ s).log2 = 52 + s := by
      rw [Nat.log2_eq_iff (Nat.ne_of_gt (Nat.mul_pos (by omega) hpow))]
      constructor
      · rw [Nat.pow_add]
        exact Nat.mul_le_mul_right _ hs
      · rw [show 52 + s + 1 = 53 + s by omega, Nat.pow_add]
        exact Nat.mul_lt_mul_of_pos_right hm hpow
    rw [hlog, Nat.add_sub_cancel_left]

/-- A value with a mantissa that fits is nearest to itself, as a fraction with any denominator. -/
theorem nearest_exact {m s den : Nat} (hm : m < 2 ^ 53) (hs : s = 0 ∨ 2 ^ 52 ≤ m) (hden : 0 < den) :
    nearest (m * 2 ^ s * den) den = min (s * 2 ^ 52 + m) infinity := by
  have hpow : 0 < 2 ^ s := Nat.two_pow_pos s
  have hbelow : 2 * (m * 2 ^ s * den) < (2 * m + 1) * 2 ^ s * den := by
    calc 2 * (m * 2 ^ s * den) = 2 * m * 2 ^ s * den := by simp only [Nat.mul_assoc]
      _ < (2 * m + 1) * 2 ^ s * den :=
        Nat.mul_lt_mul_of_pos_right (Nat.mul_lt_mul_of_pos_right (Nat.lt_succ_self _) hpow) hden
  unfold nearest
  simp only [pow2_eq]
  rw [Nat.mul_div_cancel _ hden, log2_sub_of_mantissa hm hs, Nat.mul_div_cancel _ hpow,
    Nat.compare_eq_lt.2 hbelow]

/-- **A value on the grid is nearest to itself.** -/
theorem nearest_units {n den : Nat} (h : n ≤ infinity) (hden : 0 < den) :
    nearest (units n * den) den = n := by
  by_cases hlow : n < pow2 52
  · have hexact := nearest_exact (m := n) (s := 0) (by rw [pow2_eq] at hlow; omega) (.inl rfl) hden
    rw [Nat.pow_zero, Nat.mul_one, Nat.zero_mul, Nat.zero_add] at hexact
    rw [units, if_pos hlow, hexact, Nat.min_eq_left h]
  · rw [units, if_neg hlow]
    rw [pow2_eq] at hlow ⊢
    rw [pow2_eq, nearest_exact (by omega) (.inr (by omega)) hden]
    omega

/-! ## The search for digits -/

/-- Powers of ten are positive. -/
theorem pow10_pos (n : Nat) : 0 < pow10 n := Nat.pow_pos (by decide)

/-- Powers of two are positive. -/
theorem pow2_pos (n : Nat) : 0 < pow2 n := Nat.two_pow_pos n

/-- A decimal is chosen among those that round to the number. -/
theorem toGrid_of_choose {n : Nat} {lower upper d : Decimal} {nearerLower : Bool}
    (h : choose lower upper nearerLower (lower.toGrid == n) (upper.toGrid == n) = some d) :
    d.toGrid = n := by
  generalize hlower : (lower.toGrid == n) = lowerReads at h
  generalize hupper : (upper.toGrid == n) = upperReads at h
  have hread : (lowerReads = true ∧ d = lower) ∨ (upperReads = true ∧ d = upper) := by
    cases lowerReads <;> cases upperReads <;> cases nearerLower <;> cases h <;> simp
  rcases hread with ⟨rfl, rfl⟩ | ⟨rfl, rfl⟩
  · exact eq_of_beq hlower
  · exact eq_of_beq hupper

/-- A decimal is found among those with an exponent only if it rounds to the number. -/
theorem toGrid_of_onDecimalGrid {n : Nat} {e : Int} {d : Decimal}
    (h : onDecimalGrid n e = some d) : d.toGrid = n :=
  toGrid_of_choose h

/-- A power of ten is a power of five times a power of two. -/
theorem pow10_eq_mul (k : Nat) : pow10 k = 5 ^ k * pow2 k := by
  rw [pow10_eq, pow2_eq, ← Nat.mul_pow]

/-- The units in one divide the 1074th power of ten. So every number of the grid is an exact decimal with
1074 places. -/
theorem unitsPerOne_dvd : unitsPerOne ∣ pow10 1074 := by
  unfold unitsPerOne
  generalize 1074 = k
  rw [pow10_eq_mul]
  exact Nat.dvd_mul_left _ _

/-- If the spacing of a grid divides a unit, the double itself is a point of it. -/
theorem toGrid_floorOn_of_dvd {n k : Nat} (h : n ≤ infinity) (hk : unitsPerOne ∣ pow10 k) :
    (floorOn n (-k)).toGrid = n := by
  obtain ⟨fine, hfine⟩ := hk
  have hpos : 0 < unitsPerOne := pow2_pos 1074
  have hwhole : (-(k : Int)).toNat = 0 := by omega
  have hplaces : (-(-(k : Int))).toNat = k := by omega
  have hcoefficient : (floorOn n (-k)).coefficient = units n * fine := by
    unfold floorOn
    rw [hwhole, hplaces, hfine, pow10_eq, Nat.pow_zero, Nat.mul_one, Nat.mul_left_comm,
      Nat.mul_div_cancel_left _ hpos]
  unfold Decimal.toGrid
  rw [hcoefficient, show (floorOn n (-k)).exponent = -k from rfl, hwhole, hplaces, pow10_eq 0,
    Nat.pow_zero, Nat.mul_one, Nat.mul_left_comm, ← hfine]
  exact nearest_units h (pow10_pos k)

/-- **The search ends at a decimal that rounds to the number**, at the latest where decimals are as fine
as the grid. -/
theorem toGrid_refine {n : Nat} (h : n ≤ infinity) (fuel : Nat) (e : Int) (he : e = fuel - 1074) :
    (refine n fuel e).toGrid = n := by
  induction fuel generalizing e with
  | zero =>
    rw [refine, show e = -(1074 : Nat) by omega]
    exact toGrid_floorOn_of_dvd h unitsPerOne_dvd
  | succ fuel ih =>
    rw [refine]
    generalize hd : onDecimalGrid n e = found
    cases found with
    | some d => exact toGrid_of_onDecimalGrid hd
    | none => exact ih (e - 1) (by omega)

/-- **The digits that are chosen round to the double that they show.** -/
theorem toGrid_shortest {n : Nat} (h : n ≤ infinity) : (shortest n).toGrid = n :=
  toGrid_refine h _ _ (by omega)

/-! ## Digits that are written out -/

/-- What a number is written as: digits, or digits, a point and digits. -/
inductive IsNumeral : List Char → Prop where
  | whole {ds : List Char} (hds : ds ≠ []) (hdigits : ∀ c ∈ ds, c.isDigit) : IsNumeral ds
  | point {ds es : List Char} (hds : ds ≠ []) (hdigits : ∀ c ∈ ds, c.isDigit) (hes : es ≠ [])
      (hplaces : ∀ c ∈ es, c.isDigit) : IsNumeral (ds ++ '.' :: es)

namespace Decimal

/-- The value of digits is the one the library gives them. -/
theorem digitsValue_eq (ds : List Char) : digitsValue ds = Nat.ofDigitChars 10 ds 0 := rfl

/-- A numeral with a point is read as its digits, with as many places as stand behind the point. -/
theorem ofNumeral_point {ds es : List Char} (hds : ∀ c ∈ ds, c.isDigit) :
    ofNumeral (ds ++ '.' :: es) = ⟨digitsValue (ds ++ es), -es.length⟩ := by
  unfold ofNumeral
  rw [List.takeWhile_append_of_pos hds, List.dropWhile_append_of_pos hds]
  simp

/-- A numeral without a point is read as its digits. -/
theorem ofNumeral_whole {ds : List Char} (hds : ∀ c ∈ ds, c.isDigit) :
    ofNumeral ds = ⟨digitsValue ds, 0⟩ := by
  have htake := @List.takeWhile_append_of_pos Char Char.isDigit ds [] hds
  have hdrop := @List.dropWhile_append_of_pos Char Char.isDigit ds [] hds
  rw [List.append_nil] at htake hdrop
  unfold ofNumeral
  rw [htake, hdrop]
  simp

/-- The digits of a number are digits. -/
theorem isDigit_toDigits {n : Nat} {c : Char} (h : c ∈ Nat.toDigits 10 n) : c.isDigit :=
  Nat.isDigit_of_mem_toDigits (by decide) (by decide) h

/-- So are the zeros before or behind them. -/
theorem isDigit_zeros {k : Nat} {c : Char} (h : c ∈ List.replicate k '0') : c.isDigit := by
  rw [List.eq_of_mem_replicate h]
  decide

/-- A whole decimal is written with its zeros, so the numeral has the exponent zero. -/
theorem plain_whole {d : Decimal} (h : 0 ≤ d.exponent) :
    IsNumeral d.plain ∧ ofNumeral d.plain = ⟨d.coefficient * 10 ^ d.exponent.toNat, 0⟩ := by
  have hplaces : (-d.exponent).toNat = 0 := by omega
  have hplain : d.plain = Nat.toDigits 10 d.coefficient ++ List.replicate d.exponent.toNat '0' := by
    unfold plain
    rw [hplaces, if_pos rfl]
  have hdigits : ∀ c ∈ d.plain, c.isDigit := by
    intro c hc
    rw [hplain, List.mem_append] at hc
    exact hc.elim isDigit_toDigits isDigit_zeros
  refine ⟨.whole (by simp [hplain, Nat.toDigits_ne_nil]) hdigits, ?_⟩
  rw [ofNumeral_whole hdigits, hplain, digitsValue_eq, Nat.ofDigitChars_append,
    Nat.ofDigitChars_ten_toDigits, Nat.ofDigitChars_replicate_zero, Nat.mul_comm]

/-- A decimal with places is the one that it is written as. -/
theorem plain_places {d : Decimal} (h : d.exponent < 0) :
    IsNumeral d.plain ∧ ofNumeral d.plain = d := by
  obtain ⟨places, hplaces⟩ : ∃ k : Nat, d.exponent = -(k + 1 : Nat) := ⟨(-d.exponent - 1).toNat, by omega⟩
  have hcount : (-d.exponent).toNat = places + 1 := by omega
  generalize hpadded : List.replicate (places + 1 + 1 - (Nat.toDigits 10 d.coefficient).length) '0' ++
    Nat.toDigits 10 d.coefficient = padded
  have hlength : places + 1 < padded.length := by
    simp only [← hpadded, List.length_append, List.length_replicate]
    omega
  have hvalue : digitsValue padded = d.coefficient := by
    rw [← hpadded, digitsValue_eq, Nat.ofDigitChars_append, Nat.ofDigitChars_replicate_zero,
      Nat.mul_zero, Nat.ofDigitChars_ten_toDigits]
  have hdigits : ∀ c ∈ padded, c.isDigit := by
    intro c hc
    rw [← hpadded, List.mem_append] at hc
    exact hc.elim isDigit_zeros isDigit_toDigits
  have hplain : d.plain = padded.take (padded.length - (places + 1)) ++
      '.' :: padded.drop (padded.length - (places + 1)) := by
    unfold plain
    rw [hcount, if_neg (Nat.succ_ne_zero _), hpadded]
  have hwhole : ∀ c ∈ padded.take (padded.length - (places + 1)), c.isDigit :=
    fun c hc => hdigits c (List.mem_of_mem_take hc)
  have hrest : ∀ c ∈ padded.drop (padded.length - (places + 1)), c.isDigit :=
    fun c hc => hdigits c (List.mem_of_mem_drop hc)
  rw [hplain]
  refine ⟨.point ?_ hwhole ?_ hrest, ?_⟩
  · apply List.ne_nil_of_length_pos
    rw [List.length_take]
    omega
  · apply List.ne_nil_of_length_pos
    rw [List.length_drop]
    omega
  · rw [ofNumeral_point hwhole, List.take_append_drop, hvalue, List.length_drop,
      show padded.length - (padded.length - (places + 1)) = places + 1 by omega, ← hplaces]

/-- The digits of a decimal, written out, have the form of a numeral. -/
theorem isNumeral_plain (d : Decimal) : IsNumeral d.plain := by
  by_cases h : d.exponent < 0
  · exact (plain_places h).1
  · exact (plain_whole (by omega)).1

/-- The digits of a decimal, written out, denote the same number. -/
theorem toGrid_ofNumeral_plain (d : Decimal) : (ofNumeral d.plain).toGrid = d.toGrid := by
  by_cases h : d.exponent < 0
  · rw [(plain_places h).2]
  · rw [(plain_whole (by omega)).2]
    unfold toGrid
    simp only [pow10_eq, Int.toNat_zero, Int.neg_zero, Nat.pow_zero, Nat.mul_one]
    rw [show (-d.exponent).toNat = 0 by omega, Nat.pow_zero]

end Decimal

/-- **What a finite double is shown with denotes it.** -/
theorem ofNumeral_shortest {n : Nat} (h : n ≤ infinity) :
    ofNumeral (shortest n).plain = ofGrid false n := by
  unfold ofNumeral
  rw [Decimal.toGrid_ofNumeral_plain, toGrid_shortest h]

/-- Rounding ends at infinity. -/
theorem toGrid_le_infinity (d : Decimal) : d.toGrid ≤ infinity :=
  Nat.min_le_right _ _

/-- **A finite double is written as its sign and a numeral**, which denotes its magnitude. -/
theorem text_of_isFinite (style : Style) {x : Float} (h : x.isFinite) :
    ∃ cs, style.text x = (if isNegative x then "-" else "") ++ String.ofList cs ∧ IsNumeral cs ∧
      ofNumeral cs = x.abs := by
  have hlt := toGrid_lt_infinity h
  have hle := Nat.le_of_lt hlt
  refine ⟨_, ?_, Decimal.isNumeral_plain _, (ofNumeral_shortest hle).trans (abs_eq_ofGrid hle).symm⟩
  unfold Style.text
  dsimp only
  rw [if_neg (Nat.not_lt_of_le hle), if_neg (Nat.ne_of_lt hlt)]

/-- **A number that was read is written as a numeral, and reads back**, unless it is too large. -/
theorem text_ofNumeral (style : Style) {numeral : List Char} (h : (ofNumeral numeral).isFinite) :
    ∃ cs, style.text (ofNumeral numeral) = String.ofList cs ∧ IsNumeral cs ∧
      ofNumeral cs = ofNumeral numeral := by
  have hle := toGrid_le_infinity (Decimal.ofNumeral numeral)
  have hsign : isNegative (ofNumeral numeral) = false := isNegative_ofGrid hle
  have habs : (ofNumeral numeral).abs = ofNumeral numeral := by
    have heq := eq_abs_or_neg_abs (toGrid_lt_infinity h).le
    rw [hsign, if_neg Bool.false_ne_true] at heq
    exact heq.symm
  obtain ⟨cs, htext, hcs, hvalue⟩ := text_of_isFinite style h
  refine ⟨cs, ?_, hcs, hvalue.trans habs⟩
  rw [htext, hsign, if_neg Bool.false_ne_true, String.empty_append]

end Treewalk.Number
