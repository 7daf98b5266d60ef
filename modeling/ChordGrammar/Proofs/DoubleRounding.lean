import ChordGrammar.Proofs.ExactDraws
import ChordGrammar.Proofs.NearestDouble

/-!
# Rounded parts of a double

An operation on doubles works on their parts: it forms a mantissa of any length, cuts bits off it
until 53 are left, and rounds by what was cut off. Two bits tell all of that which matters, so the
outcome is the exact number rounded to the nearest double. Only packing the parts can make it
infinite, where the exponent is too large.
-/
namespace ChordGrammar.Decimal

open Float.Model Float.Model.UnpackedFloat

/-! ## Parts -/

/-- Mantissa and exponent as doubles have them, but for a greatest exponent. -/
structure Canonical (m : Nat) (e : Int) : Prop where
  pos : 0 < m
  fits : m < 2 ^ 53
  low : leastExponent ≤ e
  full : leastExponent < e → 2 ^ 52 ≤ m

/-- The rational with a sign. -/
def withSign : Sign → ℚ → ℚ
  | .negative, q => -q
  | .positive, q => q

@[simp] theorem withSign_zero (s : Sign) : withSign s 0 = 0 := by
  cases s
  · exact neg_zero
  · rfl

theorem abs_withSign (s : Sign) (q : ℚ) : |withSign s q| = |q| := by
  cases s
  · exact abs_neg q
  · rfl

theorem nearest_withSign (s : Sign) (q : ℚ) : nearest (withSign s q) = withSign s (nearest q) := by
  cases s
  · exact nearest_neg q
  · rfl

/-- The parts of a rational, as a double would have them if its exponent were in reach. -/
inductive Parts : UnpackedFloat → ℚ → Prop
  | zero (s : Sign) : Parts (.zero s) 0
  | finite (s : Sign) {m : Nat} {e : Int} (h : Canonical m e) :
      Parts (.finite s m e h.pos) (withSign s ((m : ℚ) * 2 ^ e))

theorem Parts.value_eq {u : UnpackedFloat} {q : ℚ} (h : Parts u q) :
    (Binary.ofParts u).value = some q := by
  cases h with
  | zero s => simp [Binary.ofParts, Binary.value]
  | @finite s m e hc =>
    cases s
    · exact congrArg some (neg_mul (m : ℚ) (2 ^ e))
    · rfl

/-- The parts of a finite double other than zero. -/
theorem canonical_of_unpack {x : Float} {s : Sign} {m : Nat} {e : Int} {hm : 0 < m}
    (h : x.toModel.unpack = .finite s m e hm) : Canonical m e ∧ e ≤ 971 := by
  have hparts := Binary.ofFloat_eq_ofParts x
  rw [h] at hparts
  have hlow : leastExponent = -1074 := rfl
  unfold Binary.ofFloat hiddenBit exponentCount at hparts
  dsimp only [Binary.ofParts] at hparts
  split_ifs at hparts
  all_goals
    obtain ⟨-, hmantissa, hexponent⟩ := Binary.finite.inj hparts
    refine ⟨⟨hm, ?_, ?_, ?_⟩, ?_⟩ <;> omega

/-- The double is finite and stands for the rational. -/
def Denotes (x : Float) (q : ℚ) : Prop := Parts x.toModel.unpack q

theorem isFinite_iff_exists_denotes {x : Float} : x.isFinite ↔ ∃ q, Denotes x q := by
  show x.toModel.unpack.isFinite = true ↔ ∃ q, Parts x.toModel.unpack q
  constructor
  · intro hfinite
    cases h : x.toModel.unpack with
    | zero s => exact ⟨0, .zero s⟩
    | finite s m e hm => exact ⟨_, .finite s (canonical_of_unpack h).1⟩
    | infinity s =>
      rw [h] at hfinite
      cases hfinite
    | notANumber =>
      rw [h] at hfinite
      cases hfinite
  · rintro ⟨q, hparts⟩
    generalize x.toModel.unpack = u at hparts ⊢
    cases hparts <;> rfl

theorem denotes_of_value {x : Float} {q : ℚ} (h : (Binary.ofFloat x).value = some q) :
    Denotes x q := by
  rw [Binary.ofFloat_eq_ofParts] at h
  have hfinite : x.isFinite := by
    show x.toModel.unpack.isFinite = true
    generalize x.toModel.unpack = u at h ⊢
    cases u with
    | infinity s => cases h
    | notANumber => cases h
    | _ => rfl
  obtain ⟨r, hr⟩ := isFinite_iff_exists_denotes.mp hfinite
  rw [Parts.value_eq hr] at h
  rwa [← Option.some.inj h]

namespace Canonical

variable {m : Nat} {e : Int}

theorem normal (h : Canonical m e) (hfull : 2 ^ 52 ≤ m) (he : e ≤ 971) : Normal m e where
  full := (Nat.log2_eq_iff h.pos.ne').mpr ⟨hfull, h.fits⟩
  low := h.low
  high := he

/-- A mantissa that is not filled keeps its bits, too: the stored exponent is then zero. -/
theorem unpack_pack_subnormal (h : Canonical m e) (hm : m < 2 ^ 52) (s : Sign) :
    (Float.Model.pack (.finite s m e h.pos)).unpack = .finite s m e h.pos := by
  have hlow : e = -1074 := by
    by_contra hne
    have := h.full (lt_of_le_of_ne h.low (Ne.symm hne))
    omega
  subst hlow
  have hmantissa : (BitVec.ofNat 52 m).toNat = m := by
    rw [BitVec.toNat_ofNat]
    exact Nat.mod_eq_of_lt hm
  have hnonzero : BitVec.ofNat 52 m ≠ 0#52 := by
    intro hz
    have := congrArg BitVec.toNat hz
    rw [hmantissa, BitVec.toNat_ofNat] at this
    have := h.pos
    omega
  have hlog : m.log2 < 52 := (Nat.log2_lt h.pos.ne').mpr hm
  have hpacked : UnpackedFloat.pack Format.binary64 (.finite s m (-1074) h.pos) =
      packComponents Format.binary64 s 0#11 (BitVec.ofNat 52 m) := by
    have hfits : ¬ 2 ^ Format.binary64.exponentBits ≤
        ((-1074 : Int) + (Format.binary64.exponentBias : Nat) + (52 : Nat)).toNat + 1 := by
      decide
    have hempty : m.log2 + 1 ≠ Format.binary64.mantissaBits := by
      show m.log2 + 1 ≠ 53
      omega
    unfold UnpackedFloat.pack
    simp only [if_neg hfits, if_neg hempty]
  have hones : 0#11 ≠ -1#11 := by decide
  show UnpackedFloat.unpack Format.binary64
    (UnpackedFloat.pack Format.binary64 (.finite s m (-1074) h.pos)) = _
  rw [hpacked]
  unfold UnpackedFloat.unpack
  simp only [unpackExponent_packComponents, unpackMantissa_packComponents,
    unpackSign_packComponents, Sign.ofBitVec_toBitVec, if_neg hones, dif_neg hnonzero, hmantissa]
  rfl

theorem unpack_pack (h : Canonical m e) (he : e ≤ 971) (s : Sign) :
    (Float.Model.pack (.finite s m e h.pos)).unpack = .finite s m e h.pos := by
  by_cases hfull : 2 ^ 52 ≤ m
  · exact (h.normal hfull he).unpack_pack s
  · exact h.unpack_pack_subnormal (not_le.mp hfull) s

/-- Too large an exponent stands for infinity. -/
theorem unpack_pack_large (h : Canonical m e) (he : 971 < e) (s : Sign) :
    (Float.Model.pack (.finite s m e h.pos)).unpack = .infinity s := by
  have hlarge : 2 ^ Format.binary64.exponentBits ≤
      (e + (Format.binary64.exponentBias : Nat) + (52 : Nat)).toNat + 1 := by
    show 2048 ≤ (e + (1023 : Nat) + (52 : Nat)).toNat + 1
    omega
  have hpacked : UnpackedFloat.pack Format.binary64 (.finite s m e h.pos) =
      packedInfinity Format.binary64 s := by
    unfold UnpackedFloat.pack
    simp only [if_pos hlarge]
  show UnpackedFloat.unpack Format.binary64
    (UnpackedFloat.pack Format.binary64 (.finite s m e h.pos)) = _
  rw [hpacked]
  cases s <;> rfl

theorem value_pos (h : Canonical m e) : (0 : ℚ) < m * 2 ^ e := by
  have hpos : (0 : ℚ) < m := by exact_mod_cast h.pos
  positivity

/-- The exponent settles whether the number is below `2 ^ 1024`. -/
theorem lt_iff (h : Canonical m e) : (m : ℚ) * 2 ^ e < 2 ^ 1024 ↔ e ≤ 971 := by
  have hpos : (0 : ℚ) < m := by exact_mod_cast h.pos
  constructor
  · intro hlt
    by_contra hlarge
    have hexponent : (2 : ℚ) ^ (972 : ℤ) ≤ 2 ^ e := zpow_le_zpow_right₀ one_le_two (by omega)
    have hfull : (2 : ℚ) ^ 52 ≤ m := by
      exact_mod_cast h.full (by unfold leastExponent; omega)
    have hproduct := mul_le_mul hfull hexponent (by positivity) hpos.le
    rw [← zpow_natCast, ← zpow_add₀ two_ne_zero] at hproduct
    exact absurd (hproduct.trans_lt hlt) (by norm_num)
  · intro he
    have hexponent : (2 : ℚ) ^ e ≤ 2 ^ (971 : ℤ) := zpow_le_zpow_right₀ one_le_two he
    have hfits : (m : ℚ) < 2 ^ 53 := by exact_mod_cast h.fits
    calc (m : ℚ) * 2 ^ e ≤ m * 2 ^ (971 : ℤ) := mul_le_mul_of_nonneg_left hexponent hpos.le
      _ < 2 ^ 53 * 2 ^ (971 : ℤ) := mul_lt_mul_of_pos_right hfits (by positivity)
      _ = 2 ^ 1024 := by
        rw [← zpow_natCast, ← zpow_natCast, ← zpow_add₀ two_ne_zero]
        rfl

end Canonical

/-! ## Bits that are cut off -/

/-- What an accuracy says of the part that was cut off, the last bit kept being one. -/
def Fits : Accuracy → ℚ → Prop
  | .exact, f => f = 0
  | .inexact .lt, f => 0 < f ∧ f < 1 / 2
  | .inexact .eq, f => f = 1 / 2
  | .inexact .gt, f => 1 / 2 < f ∧ f < 1

/-- The bits that are kept and the two behind them say where the rational lies: at the mantissa, or
below, at or above the half that follows it. -/
def Locates (em : ExtendedMantissa) (q : ℚ) : Prop := Fits em.accuracy (q - em.mantissa)

theorem locates_exact (m : Nat) : Locates ⟨m, false, false⟩ m := sub_self _

namespace Locates

variable {em : ExtendedMantissa} {q : ℚ}

/-- The last bit kept becomes the first one cut off, and the two behind it become one. -/
theorem shiftRightOne (h : Locates em q) : Locates em.shiftRightOne (q / 2) := by
  obtain ⟨m, roundBit, stickyBit⟩ := em
  obtain ⟨k, hk⟩ : ∃ k, m / 2 = k := ⟨_, rfl⟩
  rcases Nat.mod_two_eq_zero_or_one m with hm | hm
  · have hcast : (m : ℚ) = 2 * k := by exact_mod_cast (by omega : m = 2 * k)
    cases roundBit <;> cases stickyBit <;>
      simp only [Locates, ExtendedMantissa.shiftRightOne, ExtendedMantissa.accuracy, Fits, hm, hk,
        hcast, bne_self_eq_false, Bool.or_true, Bool.or_false] at h ⊢
    all_goals first
      | linarith
      | constructor <;> linarith
  · have hcast : (m : ℚ) = 2 * k + 1 := by exact_mod_cast (by omega : m = 2 * k + 1)
    have hodd : (1 != 0) = true := rfl
    cases roundBit <;> cases stickyBit <;>
      simp only [Locates, ExtendedMantissa.shiftRightOne, ExtendedMantissa.accuracy, Fits, hm, hk,
        hcast, hodd, Bool.or_true, Bool.or_false] at h ⊢
    all_goals first
      | linarith
      | constructor <;> linarith

theorem shiftRight (h : Locates em q) (j : Nat) : Locates (em >>> j) (q / 2 ^ j) := by
  induction j with
  | zero => simpa [HShiftRight.hShiftRight, Nat.repeat] using h
  | succ j ih =>
    have hstep := ih.shiftRightOne
    rwa [div_div, ← pow_succ] at hstep

theorem floor_eq (h : Locates em q) : ⌊q⌋ = em.mantissa := by
  have hbounds : 0 ≤ q - em.mantissa ∧ q - em.mantissa < 1 := by
    obtain ⟨m, roundBit, stickyBit⟩ := em
    cases roundBit <;> cases stickyBit <;>
      simp only [Locates, ExtendedMantissa.accuracy, Fits] at h <;>
      constructor <;> linarith
  rw [Int.floor_eq_iff, Int.cast_natCast]
  constructor <;> linarith [hbounds.1, hbounds.2]

theorem roundedMantissa (h : Locates em q) : (em.roundedMantissa : ℤ) = nearestInt q := by
  have hfloor := h.floor_eq
  obtain ⟨m, roundBit, stickyBit⟩ := em
  unfold nearestInt
  rw [hfloor]
  dsimp only
  rw [Int.cast_natCast]
  cases roundBit <;> cases stickyBit <;>
    simp only [Locates, ExtendedMantissa.accuracy, Fits] at h
  · rw [h, if_pos (by norm_num)]
    rfl
  · rw [if_pos h.2]
    rfl
  · rw [h, if_neg (lt_irrefl _), if_neg (lt_irrefl _)]
    rfl
  · rw [if_neg (not_lt.mpr h.1.le), if_pos h.1]
    rfl

end Locates

/-! ## Rounding -/

section Rounding

variable {m : Nat} {e : Int}

/-- The exponent that is aimed at is that of the last place. -/
theorem targetExponent_eq (hm : 0 < m) :
    Format.binary64.targetExponent (totalExponent m e) = lastPlace ((m : ℚ) * 2 ^ e) := by
  have hpos : (0 : ℚ) < (m : ℚ) * 2 ^ e := by positivity
  obtain ⟨hlow, hhigh⟩ := (Nat.log2_eq_iff hm.ne').mp rfl
  have hlow' : (2 : ℚ) ^ m.log2 ≤ m := by exact_mod_cast hlow
  have hhigh' : (m : ℚ) < 2 ^ (m.log2 + 1) := by exact_mod_cast hhigh
  have hleast := leastExponent_le_lastPlace ((m : ℚ) * 2 ^ e)
  show max ((m.log2 : Int) + 1 + e - (53 : Nat)) leastExponent = _
  apply le_antisymm
  · rw [max_le_iff]
    refine ⟨?_, hleast⟩
    have hpower : (2 : ℚ) ^ ((m.log2 : ℤ) + e) ≤ |(m : ℚ) * 2 ^ e| := by
      rw [abs_of_pos hpos, zpow_add₀ two_ne_zero, zpow_natCast]
      exact mul_le_mul_of_nonneg_right hlow' (by positivity)
    have hplace := sub_le_lastPlace hpower
    omega
  · rw [lastPlace_le_iff (le_max_right _ _), abs_of_pos hpos]
    calc (m : ℚ) * 2 ^ e < 2 ^ (m.log2 + 1) * 2 ^ e :=
          mul_lt_mul_of_pos_right hhigh' (by positivity)
      _ = 2 ^ ((m.log2 : ℤ) + 1 + e) := by
          rw [zpow_add₀ two_ne_zero, ← zpow_natCast]
          rfl
      _ ≤ _ := zpow_le_zpow_right₀ one_le_two (by omega)

/-- Nothing is cut off from 53 bits. -/
theorem shiftToTargetExponent_of_lt (hm : m < 2 ^ 53) (he : leastExponent ≤ e) :
    shiftToTargetExponent Format.binary64 m e .exact = (⟨m, false, false⟩, e) := by
  have hlog : m.log2 ≤ 52 := by
    by_cases hzero : m = 0
    · rw [hzero]
      decide
    · exact Nat.le_of_lt_succ ((Nat.log2_lt hzero).mpr hm)
  have htarget : Format.binary64.targetExponent (totalExponent m e) ≤ e := by
    show max ((m.log2 : Int) + 1 + e - (53 : Nat)) leastExponent ≤ e
    omega
  have hshift : (Format.binary64.targetExponent (totalExponent m e) - e).toNat = 0 := by omega
  unfold shiftToTargetExponent shiftToExponent
  simp only [hshift]
  exact Prod.ext rfl (add_zero e)

/-- The next power of two is moved by one place. -/
theorem shiftToTargetExponent_two_pow (he : leastExponent ≤ e) :
    shiftToTargetExponent Format.binary64 (2 ^ 53) e .exact = (⟨2 ^ 52, false, false⟩, e + 1) := by
  have htarget : Format.binary64.targetExponent (totalExponent (2 ^ 53) e) = e + 1 := by
    unfold Format.targetExponent totalExponent
    rw [Nat.log2_two_pow]
    show max (((53 : Nat) : Int) + 1 + e - (53 : Nat)) leastExponent = e + 1
    omega
  have hshift : (e + 1 - e).toNat = 1 := by omega
  unfold shiftToTargetExponent shiftToExponent
  simp only [htarget, hshift]
  exact Prod.ext rfl rfl

/-- The first shift leaves the nearest mantissa. -/
theorem exists_shiftToTargetExponent (hm : 0 < m) (he : e ≤ lastPlace ((m : ℚ) * 2 ^ e)) :
    ∃ em : ExtendedMantissa,
      shiftToTargetExponent Format.binary64 m e .exact = (em, lastPlace ((m : ℚ) * 2 ^ e)) ∧
      (em.roundedMantissa : ℤ) = mantissa ((m : ℚ) * 2 ^ e) := by
  obtain ⟨t, ht⟩ : ∃ t, lastPlace ((m : ℚ) * 2 ^ e) = t := ⟨_, rfl⟩
  rw [ht] at he
  obtain ⟨j, hj⟩ : ∃ j, (t - e).toNat = j := ⟨_, rfl⟩
  refine ⟨(⟨m, false, false⟩ : ExtendedMantissa) >>> j, ?_, ?_⟩
  · unfold shiftToTargetExponent shiftToExponent
    simp only [targetExponent_eq hm, ht, hj]
    refine Prod.ext rfl ?_
    show e + (j : Int) = t
    omega
  · have hplace : (2 : ℚ) ^ t = 2 ^ j * 2 ^ e := by
      rw [← zpow_natCast, ← zpow_add₀ two_ne_zero]
      congr 1
      omega
    rw [((locates_exact m).shiftRight j).roundedMantissa, mantissa, ht, hplace,
      mul_div_mul_right _ _ (by positivity)]

/-- The rounded mantissa has 53 bits, or is the next power of two. -/
theorem roundWithAccuracy_parts (s : Sign) (hm : 0 < m)
    (he : e ≤ lastPlace ((m : ℚ) * 2 ^ e)) :
    Parts (roundWithAccuracy Format.binary64 s m e .exact)
      (withSign s (nearest ((m : ℚ) * 2 ^ e))) := by
  obtain ⟨em, hfirst, hmantissa⟩ := exists_shiftToTargetExponent hm he
  obtain ⟨q, hq⟩ : ∃ q : ℚ, (m : ℚ) * 2 ^ e = q := ⟨_, rfl⟩
  have hpos : 0 ≤ q := by
    rw [← hq]
    positivity
  rw [hq] at hfirst hmantissa ⊢
  have hleast := leastExponent_le_lastPlace q
  have hbound := (abs_le.mp (abs_mantissa_le q)).2
  have hnearest : nearest q = em.roundedMantissa * 2 ^ lastPlace q := by
    rw [nearest, ← hmantissa, Int.cast_natCast]
  unfold roundWithAccuracy
  rw [hfirst, hnearest]
  dsimp only
  rcases (by omega : em.roundedMantissa ≤ 2 ^ 53).lt_or_eq with hlt | heq
  · rw [shiftToTargetExponent_of_lt hlt hleast]
    dsimp only
    split_ifs with hzero
    · rw [hzero, Nat.cast_zero, zero_mul, withSign_zero]
      exact .zero s
    · refine .finite s ⟨Nat.pos_of_ne_zero hzero, hlt, hleast, fun h => ?_⟩
      have := le_mantissa hpos h
      omega
  · have hpower : ((2 ^ 53 : ℕ) : ℚ) * 2 ^ lastPlace q =
        ((2 ^ 52 : ℕ) : ℚ) * 2 ^ (lastPlace q + 1) := by
      rw [zpow_add_one₀ two_ne_zero]
      push_cast
      ring
    rw [heq, shiftToTargetExponent_two_pow hleast, hpower]
    exact .finite s ⟨by norm_num, by norm_num, by omega, fun _ => le_rfl⟩

theorem decreaseExponent_mul (m : Nat) (e t : Int) :
    ((decreaseExponent m e t).1 : ℚ) * 2 ^ (decreaseExponent m e t).2 = m * 2 ^ e := by
  have hexponent : e = ((e - t).toNat : Int) + (e - (e - t).toNat) := by omega
  show ((m <<< (e - t).toNat : Nat) : ℚ) * 2 ^ (e - (e - t).toNat) = m * 2 ^ e
  conv_rhs => rw [hexponent]
  rw [Nat.shiftLeft_eq, Nat.cast_mul, Nat.cast_pow, Nat.cast_ofNat, mul_assoc,
    zpow_add₀ two_ne_zero, zpow_natCast]

theorem round_parts (s : Sign) (hm : 0 < m) :
    Parts (UnpackedFloat.round Format.binary64 s m e)
      (withSign s (nearest ((m : ℚ) * 2 ^ e))) := by
  obtain ⟨t, ht⟩ : ∃ t, lastPlace ((m : ℚ) * 2 ^ e) = t := ⟨_, rfl⟩
  have hvalue := decreaseExponent_mul m e t
  have hlow : (decreaseExponent m e t).2 ≤ t := by
    show e - (e - t).toNat ≤ t
    omega
  have hpos : 0 < (decreaseExponent m e t).1 := by
    show 0 < m <<< (e - t).toNat
    rw [Nat.shiftLeft_eq]
    positivity
  have hparts := roundWithAccuracy_parts s hpos (by rwa [hvalue, ht])
  rw [hvalue] at hparts
  unfold UnpackedFloat.round
  rwa [targetExponent_eq hm, ht]

theorem normalize_parts (n : ℤ) (e : Int) (zeroSign : Sign) :
    Parts (UnpackedFloat.normalize Format.binary64 n e zeroSign) (nearest (n * 2 ^ e)) := by
  unfold UnpackedFloat.normalize
  rcases lt_trichotomy n 0 with hn | rfl | hn
  · have hparts := @round_parts (-n).toNat e .negative (by omega)
    have hcast : (((-n).toNat : ℕ) : ℚ) = -n := by
      exact_mod_cast Int.toNat_of_nonneg (by omega)
    rw [hcast, ← nearest_withSign, withSign, neg_mul, neg_neg] at hparts
    rwa [Int.compare_eq_lt.mpr hn]
  · rw [Int.cast_zero, zero_mul, nearest_zero]
    exact .zero zeroSign
  · have hparts := @round_parts n.toNat e .positive (by omega)
    have hcast : ((n.toNat : ℕ) : ℚ) = n := by
      exact_mod_cast Int.toNat_of_nonneg hn.le
    rw [hcast, ← nearest_withSign, withSign] at hparts
    rwa [Int.compare_eq_gt.mpr hn]

end Rounding

end ChordGrammar.Decimal
