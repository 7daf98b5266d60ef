import Mathlib
import ChordGrammar.Decimal.Shortest
import ChordGrammar.Random.Xoshiro

/-!
# Draws are exact in a double

A draw is made with two conversions and one division of doubles, each of which could round. None
does: a natural number below `2 ^ 53`, moved up until it fills a mantissa, is a double as it
stands, and dividing it by `2 ^ 53` changes only its exponent. So the double that is drawn is the
fraction that its word stands for, as the same draw read over the rationals is.
-/
namespace ChordGrammar

open Float.Model Float.Model.UnpackedFloat

namespace Decimal

/-! ## What the bits of a double stand for -/

namespace Binary

/-- The number that a finite double is. -/
def value : Binary → Option Rat
  | .finite negative mantissa exponent =>
    some ((if negative then -(mantissa : Rat) else mantissa) * 2 ^ exponent)
  | _ => none

/-- What a double stands for, from its sign, mantissa and exponent. -/
def ofParts : UnpackedFloat → Binary
  | .notANumber => .nan
  | .infinity s => .infinite (s == .negative)
  | .zero s => .finite (s == .negative) 0 leastExponent
  | .finite s mantissa exponent _ => .finite (s == .negative) mantissa exponent

end Binary

theorem toNat_append_hiddenBit (fraction : BitVec 52) :
    (1#1 ++ fraction).toNat = hiddenBit + fraction.toNat := by
  rw [BitVec.toNat_append, ← Nat.shiftLeft_add_eq_or_of_lt fraction.isLt]
  rfl

theorem decide_negative_eq (b : BitVec 64) :
    decide (b.toNat / (hiddenBit * exponentCount) = 1) =
      (Sign.ofBitVec (@unpackSign Format.binary64 b) == .negative) := by
  have hlt := b.isLt
  have hsign : (@unpackSign Format.binary64 b).toNat =
      b.toNat / (hiddenBit * exponentCount) := by
    simp only [unpackSign_def, BitVec.extractLsb'_toNat, Nat.shiftRight_eq_div_pow, hiddenBit,
      exponentCount]
    omega
  rw [← hsign]
  generalize @unpackSign Format.binary64 b = sign
  revert sign
  decide

theorem Binary.ofFloat_eq_ofParts (x : Float) : ofFloat x = ofParts x.toModel.unpack := by
  let b : BitVec 64 := x.toModel.toBits.toBitVec
  let fraction := @unpackMantissa Format.binary64 b
  let biased := @unpackExponent Format.binary64 b
  have hbits : x.toBits.toNat = b.toNat := rfl
  have hfraction : b.toNat % hiddenBit = fraction.toNat := by
    simp [fraction, unpackMantissa_def, hiddenBit]
  have hbiased : b.toNat / hiddenBit % exponentCount = biased.toNat := by
    simp [biased, unpackExponent_def, hiddenBit, exponentCount, Nat.shiftRight_eq_div_pow]
  have hones : biased = -1#11 ↔ biased.toNat = exponentCount - 1 := BitVec.toNat_inj.symm
  have hzeros : biased = 0#11 ↔ biased.toNat = 0 := BitVec.toNat_inj.symm
  have hnone : fraction = 0#52 ↔ fraction.toNat = 0 := BitVec.toNat_inj.symm
  unfold ofFloat Float.Model.unpack UnpackedFloat.unpack
  simp only [hbits, hfraction, hbiased, decide_negative_eq]
  show _ = ofParts (if biased = -1#11 then if fraction = 0#52 then _ else _
    else if biased = 0#11 then if h : fraction = 0#52 then _ else _ else _)
  by_cases hb : biased = -1#11
  · rw [if_pos hb, if_pos (hones.mp hb)]
    by_cases hf : fraction = 0#52
    · rw [if_pos hf, if_pos (hnone.mp hf)]
      rfl
    · rw [if_neg hf, if_neg (mt hnone.mpr hf)]
      rfl
  rw [if_neg hb, if_neg (mt hones.mpr hb)]
  by_cases hb0 : biased = 0#11
  · rw [if_pos hb0, if_pos (hzeros.mp hb0)]
    by_cases hf : fraction = 0#52
    · rw [dif_pos hf, hnone.mp hf]
      rfl
    · rw [dif_neg hf, hzeros.mp hb0]
      rfl
  · have hpos := mt hzeros.mpr hb0
    have hexponent : leastExponent + ((biased.toNat - 1 : Nat) : Int) =
        (biased.toNat : Int) - ((1023 : Nat) + (52 : Nat)) := by
      unfold leastExponent
      omega
    rw [if_neg hb0, if_neg hpos, hexponent, ← toNat_append_hiddenBit]
    rfl

/-! ## Mantissas that fill their bits -/

/-- A mantissa that fills its 53 bits, with an exponent that doubles have. -/
structure Normal (mantissa : Nat) (exponent : Int) : Prop where
  full : mantissa.log2 = 52
  low : leastExponent ≤ exponent
  high : exponent ≤ 971

theorem log2_mul_two_pow {m : Nat} (hm : m ≠ 0) (j : Nat) : (m * 2 ^ j).log2 = m.log2 + j := by
  obtain ⟨hlow, hhigh⟩ := (Nat.log2_eq_iff hm).mp rfl
  rw [Nat.log2_eq_iff (by positivity)]
  constructor
  · rw [pow_add]
    exact Nat.mul_le_mul_right _ hlow
  · rw [add_right_comm, pow_add]
    exact Nat.mul_lt_mul_of_pos_right hhigh (by positivity)

/-- A mantissa that ends in `j` zeros loses nothing when they are dropped. -/
theorem shiftRight_mul_two_pow (m j : Nat) :
    (⟨m * 2 ^ j, false, false⟩ : ExtendedMantissa) >>> j = ⟨m, false, false⟩ := by
  induction j generalizing m with
  | zero => simp [HShiftRight.hShiftRight, Nat.repeat]
  | succ j ih =>
    have hm : m * 2 ^ (j + 1) = m * 2 * 2 ^ j := by ring
    show ((⟨m * 2 ^ (j + 1), false, false⟩ : ExtendedMantissa) >>> j).shiftRightOne = _
    rw [hm, ih]
    simp [ExtendedMantissa.shiftRightOne]

namespace Normal

variable {m : Nat} {e : Int}

theorem pos (h : Normal m e) : 0 < m := by
  by_contra hzero
  have hfull := h.full
  rw [Nat.eq_zero_of_not_pos hzero] at hfull
  simp at hfull

/-- The bits of a normal double give back its parts. -/
theorem unpack_pack (h : Normal m e) (s : Sign) :
    (Float.Model.pack (.finite s m e h.pos)).unpack = .finite s m e h.pos := by
  have hpos := h.pos
  have hlow : -1074 ≤ e := h.low
  have hhigh := h.high
  have hbound := (Nat.log2_eq_iff hpos.ne').mp h.full
  obtain ⟨biased, hbiased⟩ : ∃ biased : Nat, (biased : Int) = e + 1075 :=
    ⟨(e + 1075).toNat, by omega⟩
  have hexponent : (BitVec.ofNat 11 biased).toNat = biased := by
    rw [BitVec.toNat_ofNat]
    omega
  have hmantissa : (1#1 ++ BitVec.ofNat 52 m).toNat = m := by
    rw [toNat_append_hiddenBit, BitVec.toNat_ofNat, hiddenBit]
    omega
  have hzeros : BitVec.ofNat 11 biased ≠ 0#11 := by
    intro hz
    have := congrArg BitVec.toNat hz
    rw [hexponent, BitVec.toNat_ofNat] at this
    omega
  have hones : BitVec.ofNat 11 biased ≠ -1#11 := by
    intro ho
    have := congrArg BitVec.toNat ho
    rw [hexponent, show (-1#11).toNat = 2047 from rfl] at this
    omega
  have hpacked : UnpackedFloat.pack Format.binary64 (.finite s m e hpos) =
      packComponents Format.binary64 s (BitVec.ofNat 11 biased) (BitVec.ofNat 52 m) := by
    have hb : (e + (Format.binary64.exponentBias : Nat) + (52 : Nat)).toNat = biased := by
      show (e + 1023 + 52).toNat = biased
      omega
    have hfits : ¬ 2 ^ Format.binary64.exponentBits ≤ biased + 1 := by
      show ¬ 2048 ≤ biased + 1
      omega
    have hfull : m.log2 + 1 = Format.binary64.mantissaBits := by
      rw [h.full]
      rfl
    unfold UnpackedFloat.pack
    simp only [hb, if_neg hfits, if_pos hfull]
  show UnpackedFloat.unpack Format.binary64
    (UnpackedFloat.pack Format.binary64 (.finite s m e hpos)) = _
  rw [hpacked]
  unfold UnpackedFloat.unpack
  simp only [unpackExponent_packComponents, unpackMantissa_packComponents,
    unpackSign_packComponents, Sign.ofBitVec_toBitVec, if_neg hones, if_neg hzeros, hmantissa,
    hexponent]
  congr 1
  show (biased : Int) - (1023 + 52) = e
  omega

theorem shiftToTargetExponent_eq (h : Normal m e) (j : Nat) :
    shiftToTargetExponent Format.binary64 (m * 2 ^ j) (e - j) .exact =
      (⟨m, false, false⟩, e) := by
  have hlow : -1074 ≤ e := h.low
  have htarget : Format.binary64.targetExponent (totalExponent (m * 2 ^ j) (e - j)) = e := by
    unfold Format.targetExponent totalExponent
    rw [log2_mul_two_pow h.pos.ne', h.full]
    show max (((52 + j : Nat) : Int) + 1 + (e - j) - 53) (-1074) = e
    omega
  have hshift : (e - (e - j)).toNat = j := by omega
  unfold shiftToTargetExponent shiftToExponent
  simp only [htarget, hshift, ExtendedMantissa.ofMantissaAndAccuracy, shiftRight_mul_two_pow,
    sub_add_cancel]

/-- Rounding a normal number that is written with `j` more places only drops the places. -/
theorem roundWithAccuracy_eq (h : Normal m e) (s : Sign) (j : Nat) :
    roundWithAccuracy Format.binary64 s (m * 2 ^ j) (e - j) .exact = .finite s m e h.pos := by
  have hfirst := h.shiftToTargetExponent_eq j
  have hexact : (⟨m, false, false⟩ : ExtendedMantissa).roundedMantissa = m := rfl
  have hagain : shiftToTargetExponent Format.binary64 m e .exact = (⟨m, false, false⟩, e) := by
    simpa using h.shiftToTargetExponent_eq 0
  unfold roundWithAccuracy
  simp only [hfirst, hexact, hagain, dif_neg h.pos.ne']

/-- Moved up until it fills a mantissa, a number below `2 ^ 53` is normal. -/
theorem natural {k : Nat} (hpos : 0 < k) (hk : k < 2 ^ 53) :
    Normal (k * 2 ^ (52 - k.log2)) (k.log2 - 52) := by
  have hlog : k.log2 < 53 := (Nat.log2_lt hpos.ne').mpr hk
  constructor
  · rw [log2_mul_two_pow hpos.ne']
    omega
  · unfold leastExponent
    omega
  · omega

end Normal

/-! ## Natural numbers as doubles -/

section Natural

variable {k : Nat}

theorem round_natural (hpos : 0 < k) (hk : k < 2 ^ 53) :
    UnpackedFloat.round Format.binary64 .positive k 0 =
      .finite .positive (k * 2 ^ (52 - k.log2)) (k.log2 - 52) (Normal.natural hpos hk).pos := by
  have hlog : k.log2 < 53 := (Nat.log2_lt hpos.ne').mpr hk
  have htarget : Format.binary64.targetExponent (totalExponent k 0) = k.log2 - 52 := by
    unfold Format.targetExponent totalExponent
    show max ((k.log2 : Int) + 1 + 0 - 53) (-1074) = k.log2 - 52
    omega
  have hshift : (0 - ((k.log2 : Int) - 52)).toNat = 52 - k.log2 := by omega
  have hexponent : (0 : Int) - (52 - k.log2 : Nat) = k.log2 - 52 := by omega
  unfold UnpackedFloat.round decreaseExponent
  simp only [htarget, hshift, hexponent, Nat.shiftLeft_eq]
  simpa using (Normal.natural hpos hk).roundWithAccuracy_eq .positive 0

theorem unpack_toFloat (hpos : 0 < k) (hk : k < 2 ^ 53) :
    k.toUInt64.toFloat.toModel.unpack =
      .finite .positive (k * 2 ^ (52 - k.log2)) (k.log2 - 52) (Normal.natural hpos hk).pos := by
  have hword : k.toUInt64.toNat = k := by
    show k % 2 ^ 64 = k
    omega
  show (Float.Model.pack
    (UnpackedFloat.normalize Format.binary64 (k.toUInt64.toNat : Int) 0 .positive)).unpack = _
  unfold UnpackedFloat.normalize
  rw [hword, Int.compare_eq_gt.mpr (by omega)]
  simp only [Int.toNat_natCast, round_natural hpos hk]
  exact (Normal.natural hpos hk).unpack_pack .positive

/-- A number is converted as `k` times a power of ten, the power being one. -/
theorem unpack_ofNat (hpos : 0 < k) (hk : k < 2 ^ 53) :
    (Float.ofNat k).toModel.unpack =
      .finite .positive (k * 2 ^ (52 - k.log2)) (k.log2 - 52) (Normal.natural hpos hk).pos := by
  have hnormal := Normal.natural hpos hk
  have hone : Float.exactlyRepresentablePowersOfTen[0].toModel.unpack =
      .finite .positive (2 ^ 52) (-52) (by decide) := rfl
  have hproduct : Float.ofNat k =
      k.toUInt64.toFloat * Float.exactlyRepresentablePowersOfTen[0] := by
    show Float.ofScientific k false 0 = _
    unfold Float.ofScientific
    rw [dif_pos ⟨hk, by omega⟩]
    rfl
  rw [hproduct]
  show (Float.Model.pack (UnpackedFloat.mul Format.binary64 k.toUInt64.toFloat.toModel.unpack
    Float.exactlyRepresentablePowersOfTen[0].toModel.unpack)).unpack = _
  rw [unpack_toFloat hpos hk, hone]
  show (Float.Model.pack (roundWithAccuracy Format.binary64 .positive _
    ((k.log2 : Int) - 52 - (52 : Nat)) .exact)).unpack = _
  rw [hnormal.roundWithAccuracy_eq]
  exact hnormal.unpack_pack .positive

/-- Dividing by `2 ^ 53`, which is `2 ^ 52 * 2 ^ 1`, leaves no remainder. -/
theorem divCore_unitSteps {m : Nat} {e : Int} (h : Normal m e) (hlow : -1000 ≤ e) :
    divCore Format.binary64 m e (2 ^ 52) 1 = (m * 2 ^ 1, e - 53 - (1 : Nat), .exact) := by
  have htarget : min (e - 1) (Format.binary64.targetExponent
      (totalExponent m e - totalExponent (2 ^ 52) 1)) = e - 53 - (1 : Nat) := by
    unfold Format.targetExponent totalExponent
    rw [h.full, Nat.log2_two_pow]
    show min (e - 1)
      (max (((52 : Nat) : Int) + 1 + e - (((52 : Nat) : Int) + 1 + 1) - 53) (-1074)) = _
    omega
  have hshift : (e - 1 - (e - 53 - (1 : Nat))).toNat = 53 := by omega
  have hmantissa : m <<< 53 = m * 2 ^ 1 * 2 ^ 52 := by
    rw [Nat.shiftLeft_eq]
    ring
  unfold divCore
  simp only [htarget, hshift, hmantissa, Nat.mul_div_cancel _ (Nat.two_pow_pos 52),
    Nat.mul_mod_left]
  rfl

theorem unpack_div_unitSteps (hpos : 0 < k) (hk : k < 2 ^ 53) :
    (Float.ofNat k / Float.ofNat Xoshiro.unitSteps).toModel.unpack =
      .finite .positive (k * 2 ^ (52 - k.log2)) (k.log2 - 52 - 53)
        (Normal.natural hpos hk).pos := by
  have hnormal := Normal.natural hpos hk
  have hquotient : Normal (k * 2 ^ (52 - k.log2)) (k.log2 - 52 - 53) := by
    have hhigh := hnormal.high
    constructor
    · exact hnormal.full
    · unfold leastExponent
      omega
    · omega
  have hsteps : (Float.ofNat Xoshiro.unitSteps).toModel.unpack =
      .finite .positive (2 ^ 52) 1 (by decide) := rfl
  show (Float.Model.pack (UnpackedFloat.div Format.binary64 (Float.ofNat k).toModel.unpack
    (Float.ofNat Xoshiro.unitSteps).toModel.unpack)).unpack = _
  rw [unpack_ofNat hpos hk, hsteps]
  unfold UnpackedFloat.div
  simp only [divCore_unitSteps hnormal (by omega)]
  show (Float.Model.pack (roundWithAccuracy Format.binary64 .positive _ _ .exact)).unpack = _
  rw [hquotient.roundWithAccuracy_eq]
  exact hquotient.unpack_pack .positive

/-- The quotient of doubles is the quotient of the numbers. -/
theorem value_div_unitSteps (hk : k < 2 ^ 53) :
    (Binary.ofFloat (Float.ofNat k / Float.ofNat Xoshiro.unitSteps)).value =
      some (k / 2 ^ 53 : Rat) := by
  rw [Binary.ofFloat_eq_ofParts]
  by_cases hpos : 0 < k
  · have hlog : k.log2 < 53 := (Nat.log2_lt hpos.ne').mpr hk
    have hscale : (2 : Rat) ^ (52 - k.log2) * 2 ^ ((k.log2 : Int) - 52 - 53) = (2 ^ 53)⁻¹ := by
      rw [← zpow_natCast, ← zpow_add₀ two_ne_zero, ← zpow_natCast, ← zpow_neg]
      congr 1
      omega
    rw [unpack_div_unitSteps hpos hk]
    show some (((k * 2 ^ (52 - k.log2) : Nat) : Rat) * 2 ^ ((k.log2 : Int) - 52 - 53)) = _
    rw [Nat.cast_mul, Nat.cast_pow, Nat.cast_ofNat, mul_assoc, hscale, div_eq_mul_inv]
  · have hzero : (Float.ofNat 0 / Float.ofNat Xoshiro.unitSteps).toModel.unpack =
        .zero .positive := rfl
    rw [Nat.eq_zero_of_not_pos hpos, hzero]
    show some ((0 : Nat) * 2 ^ leastExponent : Rat) = _
    simp

end Natural
end Decimal

/-! ## Draws -/

namespace Xoshiro

/-- How many steps above zero the draw of a word is. -/
def stepsOf (word : UInt64) : Nat := (word >>> 11).toNat

theorem stepsOf_lt (word : UInt64) : stepsOf word < 2 ^ 53 := by
  have hword : word.toNat < 2 ^ 64 := word.toNat_lt
  have hsteps : stepsOf word = word.toNat / 2 ^ 11 := Nat.shiftRight_eq_div_pow word.toNat 11
  omega

/-- Read over the rationals, a draw is the fraction itself. -/
theorem unit_rat (word : UInt64) : (unit word : Rat) = stepsOf word / 2 ^ 53 := by
  have hsteps : ((unitSteps : Nat) : Rat) = 2 ^ 53 := by
    norm_num [unitSteps]
  show ((stepsOf word : Nat) : Rat) / ((unitSteps : Nat) : Rat) = _
  rw [hsteps]

/-- The double that is drawn is the same fraction. -/
theorem value_unit (word : UInt64) :
    (Decimal.Binary.ofFloat (unit word)).value = some (unit word) := by
  rw [unit_rat]
  exact Decimal.value_div_unitSteps (stepsOf_lt word)

end Xoshiro
end ChordGrammar
