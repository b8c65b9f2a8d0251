import Mathlib
import Treewalk.Number.Grid

/-!
# Doubles and their bit patterns

A double is made from a bit pattern by taking it apart and putting it together again, which is the
identity except on patterns that are not numbers (`pack_unpack`). So the numbers of the grid, up to
infinity, can be read off the doubles that they number (`toGrid_ofGrid`, `isNegative_ofGrid`).

In between the sign can be replaced, and the rest stays as it is (`pack_resign`). So the magnitude of a double
has its number (`abs_eq_ofGrid`), and the double is its magnitude or the negation of it (`eq_abs_or_neg_abs`).
-/

namespace Treewalk.Number

open Float.Model (Format)
open Float.Model.UnpackedFloat

/-- A bit pattern of a double. -/
abbrev Pattern := BitVec Format.binary64.numBits

namespace Pattern

variable {b : Pattern}

/-- A pattern is its sign, its exponent and its mantissa, one after the other. -/
theorem join_parts (b : Pattern) (sign : Sign) (hsign : sign = Sign.ofBitVec (unpackSign b)) :
    packComponents Format.binary64 sign (unpackExponent b) (unpackMantissa b) = b := by
  have hbit : ∀ c : BitVec 1, (Sign.ofBitVec c).toBitVec = c := by decide
  rw [hsign, packComponents, hbit]
  refine BitVec.eq_of_getLsbD_eq fun i hi => ?_
  simp only [unpackSign, unpackExponent, unpackMantissa, BitVec.getLsbD_append, BitVec.getLsbD_cast,
    BitVec.getLsbD_extractLsb]
  grind

/-- Below the least binade the mantissa is shorter than in the others, and is left as it is. -/
theorem pack_subnormal (sign : Sign) (m : BitVec 52) (hpos : 0 < m.toNat) :
    pack Format.binary64 (.finite sign m.toNat (-1074) hpos) =
      packComponents Format.binary64 sign 0#_ m := by
  have hlog : m.toNat.log2 ≠ 52 := by
    have := (Nat.log2_lt (by omega)).2 m.isLt
    omega
  simp [pack, Format.exponentBias, Format.mantissaBits, hlog]

/-- In the other binades the leading one of the mantissa is not written. -/
theorem pack_normal (sign : Sign) (e : BitVec 11) (m : BitVec 52) (hhigh : e ≠ -1#11)
    (hpos : 0 < (1#1 ++ m).toNat) :
    pack Format.binary64 (.finite sign (1#1 ++ m).toNat (e.toNat - 1075) hpos) =
      packComponents Format.binary64 sign e m := by
  have hm : m.toNat < 2 ^ 52 := m.isLt
  have he : e.toNat < 2 ^ 11 := e.isLt
  have hfull : (1#1 ++ m).toNat = 2 ^ 52 + m.toNat := by
    rw [BitVec.toNat_append, ← Nat.shiftLeft_add_eq_or_of_lt hm]
    rfl
  have hlog : (1#1 ++ m).toNat.log2 = 52 := by
    rw [hfull, Nat.log2_eq_iff (by omega)]
    omega
  have htop : e.toNat ≠ 2047 := fun h => hhigh (BitVec.eq_of_toNat_eq h)
  have hbiased : ((e.toNat : Int) - 1075 + 1023 + 52).toNat = e.toNat := by omega
  have hshort : BitVec.setWidth 52 (1#1 ++ m) = m := by
    apply BitVec.eq_of_toNat_eq
    rw [BitVec.toNat_setWidth, hfull]
    omega
  simp only [pack, Format.exponentBias, Format.mantissaBits, hlog]
  simp [hbiased, hshort, show ¬ 2047 ≤ e.toNat by omega]

/-- A double that was taken apart, with its sign replaced. -/
def resign (f : Sign → Sign) : Float.Model.UnpackedFloat → Float.Model.UnpackedFloat
  | .notANumber => .notANumber
  | .infinity sign => .infinity (f sign)
  | .zero sign => .zero (f sign)
  | .finite sign m e hpos => .finite (f sign) m e hpos

/-- **The sign can be replaced on its own**: exponent and mantissa come together again as they were,
unless the pattern is not a number. -/
theorem pack_resign (f : Sign → Sign) (h : unpackExponent b = -1#_ → unpackMantissa b = 0#_) :
    pack Format.binary64 (resign f (unpack Format.binary64 b)) =
      packComponents Format.binary64 (f (Sign.ofBitVec (unpackSign b))) (unpackExponent b)
        (unpackMantissa b) := by
  unfold Float.Model.UnpackedFloat.unpack
  dsimp only
  by_cases hexponent : unpackExponent b = -1#_
  · have hmantissa := h hexponent
    rw [if_pos hexponent, if_pos hmantissa, hexponent, hmantissa]
    rfl
  · rw [if_neg hexponent]
    by_cases hzero : unpackExponent b = 0#_
    · rw [if_pos hzero]
      by_cases hmantissa : unpackMantissa b = 0#_
      · rw [dif_pos hmantissa, hzero, hmantissa]
        rfl
      · rw [dif_neg hmantissa, hzero]
        have hpos : 0 < (unpackMantissa b).toNat := by
          simpa [Nat.pos_iff_ne_zero, BitVec.toNat_eq] using hmantissa
        simpa [resign, Format.exponentBias] using pack_subnormal (f _) _ hpos
    · rw [if_neg hzero]
      exact pack_normal _ _ _ hexponent _

/-- Replacing each sign by itself changes nothing. -/
theorem resign_self (x : Float.Model.UnpackedFloat) : resign (fun sign => sign) x = x := by
  cases x <;> rfl

/-- **What is taken apart is put together again**, unless it is not a number. -/
theorem pack_unpack (h : unpackExponent b = -1#_ → unpackMantissa b = 0#_) :
    pack Format.binary64 (unpack Format.binary64 b) = b := by
  have hself := pack_resign (fun sign => sign) h
  rw [resign_self] at hself
  rw [hself, join_parts b _ rfl]

/-- The mantissa of a pattern is its last 52 bits. -/
theorem toNat_mantissa (b : Pattern) : (unpackMantissa b).toNat = b.toNat % 2 ^ 52 := by
  simp [unpackMantissa]

/-- The exponent is the 11 bits before these. -/
theorem toNat_exponent (b : Pattern) : (unpackExponent b).toNat = b.toNat / 2 ^ 52 % 2 ^ 11 := by
  simp [unpackExponent, Nat.shiftRight_eq_div_pow]

/-- The exponent of infinity is that of no finite number. -/
theorem exponent_of_isFinite (h : (unpack Format.binary64 b).isFinite) :
    b.toNat / 2 ^ 52 % 2 ^ 11 ≠ 2047 := by
  intro htop
  have hexponent : unpackExponent b = -1#_ := by
    apply BitVec.eq_of_toNat_eq
    rw [toNat_exponent, htop]
    rfl
  unfold Float.Model.UnpackedFloat.unpack at h
  dsimp only at h
  rw [if_pos hexponent] at h
  split at h
  · exact Bool.noConfusion h
  · exact Bool.noConfusion h

/-- The sign is the first bit. -/
theorem sign_eq (b : Pattern) :
    Sign.ofBitVec (unpackSign b) = if 2 ^ 63 ≤ b.toNat then .negative else .positive := by
  have hb : b.toNat < 2 ^ 64 := b.isLt
  have hsign : (unpackSign b).toNat = b.toNat / 2 ^ 63 := by
    simp [unpackSign, Nat.shiftRight_eq_div_pow]
    omega
  have hpositive : unpackSign b = 0#1 ↔ ¬ 2 ^ 63 ≤ b.toNat := by
    rw [BitVec.toNat_eq, hsign, BitVec.toNat_ofNat]
    omega
  unfold Sign.ofBitVec
  simp only [hpositive, ite_not]

/-- With another sign a pattern is the same below the sign bit. -/
theorem toNat_packComponents (sign : Sign) (b : Pattern) :
    (packComponents Format.binary64 sign (unpackExponent b) (unpackMantissa b)).toNat =
      sign.toBitVec.toNat * 2 ^ 63 + b.toNat % 2 ^ 63 := by
  have hexponent : (unpackExponent b).toNat < 2 ^ 11 := (unpackExponent b).isLt
  have hmantissa : (unpackMantissa b).toNat < 2 ^ 52 := (unpackMantissa b).isLt
  have houter := Nat.shiftLeft_add_eq_or_of_lt hmantissa
    (sign.toBitVec ++ unpackExponent b).toNat
  have hinner := Nat.shiftLeft_add_eq_or_of_lt hexponent sign.toBitVec.toNat
  rw [packComponents, BitVec.toNat_append]
  refine houter.symm.trans ?_
  rw [BitVec.toNat_append]
  refine (congrArg (fun n => n <<< 52 + _) hinner.symm).trans ?_
  rw [toNat_exponent, toNat_mantissa, Nat.shiftLeft_eq, Nat.shiftLeft_eq]
  omega

end Pattern

/-! ## Numbers of the grid -/

/-- The powers of two are those of the library. -/
theorem pow2_eq (n : Nat) : pow2 n = 2 ^ n := rfl

/-- So are the powers of ten. -/
theorem pow10_eq (n : Nat) : pow10 n = 10 ^ n := rfl

/-- A pattern up to that of infinity is kept. -/
theorem toBits_ofBits {n : Nat} (h : n ≤ infinity) :
    (Float.ofBits (UInt64.ofNat n)).toBits = UInt64.ofNat n := by
  have hbits : (UInt64.ofNat n).toBitVec.toNat = n := by
    simp [infinity] at h ⊢
    omega
  have hpack : pack Format.binary64 (unpack Format.binary64 (UInt64.ofNat n).toBitVec) =
      (UInt64.ofNat n).toBitVec := by
    apply Pattern.pack_unpack
    intro hexponent
    apply BitVec.eq_of_toNat_eq
    have hexponent' := congrArg BitVec.toNat hexponent
    rw [Pattern.toNat_exponent, hbits] at hexponent'
    rw [Pattern.toNat_mantissa, hbits]
    simp [infinity] at h hexponent' ⊢
    omega
  show UInt64.ofBitVec _ = _
  rw [hpack]

/-- The bits of a number of the grid are its place on the grid. -/
theorem toNat_toBits_ofGrid {n : Nat} (h : n ≤ infinity) :
    (ofGrid false n).toBits.toNat = n := by
  have hlt : n < 2 ^ 64 := by
    unfold infinity at h
    omega
  show (Float.ofBits (UInt64.ofNat n)).toBits.toNat = n
  rw [toBits_ofBits h, UInt64.toNat_ofNat', Nat.mod_eq_of_lt hlt]

/-- **The number of a double can be read off it.** -/
theorem toGrid_ofGrid {n : Nat} (h : n ≤ infinity) : toGrid (ofGrid false n) = n := by
  unfold toGrid
  rw [toNat_toBits_ofGrid h]
  apply Nat.mod_eq_of_lt
  rw [pow2_eq]
  unfold infinity at h
  omega

/-- No number of the grid is negative. -/
theorem isNegative_ofGrid {n : Nat} (h : n ≤ infinity) : isNegative (ofGrid false n) = false := by
  unfold isNegative
  rw [toNat_toBits_ofGrid h, pow2_eq, decide_eq_false_iff_not]
  unfold infinity at h
  omega

/-! ## The sign -/

variable {x : Float}

/-- A double is determined by its bits. -/
theorem eq_of_toNat_toBits {y : Float} (h : x.toBits.toNat = y.toBits.toNat) : x = y := by
  rw [← Float.ofBits_toBits x, UInt64.toNat_inj.1 h, Float.ofBits_toBits]

/-- The number of a finite double is below that of infinity. -/
theorem toGrid_lt_infinity (h : x.isFinite) : toGrid x < infinity := by
  have hexponent : x.toBits.toBitVec.toNat / 2 ^ 52 % 2 ^ 11 ≠ 2047 :=
    Pattern.exponent_of_isFinite h
  have htop : x.toBits.toBitVec.toNat / 2 ^ 52 % 2 ^ 11 < 2 ^ 11 := Nat.mod_lt _ (by decide)
  show x.toBits.toBitVec.toNat % 2 ^ 63 < infinity
  unfold infinity
  omega

/-- A double up to infinity with another sign. -/
theorem toNat_pack_resign (f : Sign → Sign) (h : toGrid x ≤ infinity) :
    (pack Format.binary64 (Pattern.resign f (unpack Format.binary64 x.toBits.toBitVec))).toNat =
      (f (if isNegative x then .negative else .positive)).toBitVec.toNat * pow2 63 + toGrid x := by
  have hgrid : x.toBits.toBitVec.toNat % 2 ^ 63 ≤ infinity := h
  rw [Pattern.pack_resign f, Pattern.toNat_packComponents, Pattern.sign_eq]
  · simp only [isNegative, decide_eq_true_eq]
    rfl
  · intro hexponent
    have hbits := congrArg BitVec.toNat hexponent
    rw [Pattern.toNat_exponent] at hbits
    apply BitVec.eq_of_toNat_eq
    rw [Pattern.toNat_mantissa]
    simp [infinity] at hgrid hbits ⊢
    omega

/-- **The magnitude of a double has its number.** -/
theorem abs_eq_ofGrid (h : toGrid x ≤ infinity) : x.abs = ofGrid false (toGrid x) := by
  apply eq_of_toNat_toBits
  rw [toNat_toBits_ofGrid h]
  have habs : ∀ y : Float.Model.UnpackedFloat, y.abs = Pattern.resign (fun _ => .positive) y := by
    intro y
    cases y <;> rfl
  have hbits := toNat_pack_resign (fun _ => .positive) h
  rw [← habs] at hbits
  refine hbits.trans ?_
  simp [Sign.toBitVec]

/-- **A double is its magnitude or the negation of it**, as its sign bit says; negation only turns the
sign. -/
theorem eq_abs_or_neg_abs (h : toGrid x ≤ infinity) :
    x = if isNegative x then -x.abs else x.abs := by
  have hbits : x.toBits.toNat < 2 ^ 64 := x.toBits.toNat_lt
  have hgrid : toGrid x = x.toBits.toNat % 2 ^ 63 := rfl
  have hsign : isNegative x = decide (2 ^ 63 ≤ x.toBits.toNat) := rfl
  have hneg : ∀ y : Float.Model.UnpackedFloat, y.neg = Pattern.resign (fun sign => -sign) y := by
    intro y
    cases y <;> rfl
  rw [abs_eq_ofGrid h]
  apply eq_of_toNat_toBits
  by_cases hnegative : isNegative x
  · have hmagnitude : toGrid (ofGrid false (toGrid x)) ≤ infinity := by rwa [toGrid_ofGrid h]
    have hturned := toNat_pack_resign (fun sign => -sign) hmagnitude
    rw [← hneg, isNegative_ofGrid h, toGrid_ofGrid h] at hturned
    rw [if_pos hnegative]
    refine Eq.trans ?_ hturned.symm
    simp only [hsign, decide_eq_true_eq] at hnegative
    show x.toBits.toNat = 1 * 2 ^ 63 + toGrid x
    omega
  · rw [if_neg hnegative, toNat_toBits_ofGrid h]
    simp only [hsign, decide_eq_true_eq] at hnegative
    omega

end Treewalk.Number
