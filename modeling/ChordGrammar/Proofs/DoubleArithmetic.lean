import ChordGrammar.Proofs.DoubleRounding

/-!
# Arithmetic of doubles

A sum, a difference or a product of finite doubles is the exact one, rounded to the nearest double,
unless that is too large. Comparing two finite doubles compares the numbers that they stand for: of
two mantissas with different exponents, the one with the greater exponent is full.
-/
namespace ChordGrammar.Decimal

open Float.Model Float.Model.UnpackedFloat

/-! ## Operations on parts -/

section Operations

variable {u v : UnpackedFloat} {a b : ℚ}

theorem Parts.nearest_eq (h : Parts u a) : nearest a = a := by
  cases h with
  | zero s => exact nearest_zero
  | @finite s m e hc =>
    have hm : |(m : ℤ)| ≤ 2 ^ 53 := by
      rw [Nat.abs_cast]
      exact_mod_cast hc.fits.le
    rw [nearest_withSign, ← Int.cast_natCast, nearest_mantissa hm hc.low]

theorem Parts.neg (h : Parts u a) : Parts u.neg (-a) := by
  cases h with
  | zero s =>
    rw [neg_zero]
    exact .zero (-s)
  | @finite s m e hc =>
    have hsign : -withSign s ((m : ℚ) * 2 ^ e) = withSign (-s) (m * 2 ^ e) := by
      cases s
      · exact neg_neg _
      · rfl
    rw [hsign]
    exact .finite (-s) hc

theorem apply_decreaseExponent_mul (s : Sign) (m : Nat) {e t : Int} (h : t ≤ e) :
    ((s.apply (decreaseExponent m e t).1 : ℤ) : ℚ) * 2 ^ t = withSign s ((m : ℚ) * 2 ^ e) := by
  have hexponent : (decreaseExponent m e t).2 = t := by
    show e - (e - t).toNat = t
    omega
  have hvalue := decreaseExponent_mul m e t
  rw [hexponent] at hvalue
  cases s
  · show ((-((decreaseExponent m e t).1 : ℤ) : ℤ) : ℚ) * 2 ^ t = -(m * 2 ^ e)
    rw [Int.cast_neg, Int.cast_natCast, neg_mul, hvalue]
  · exact hvalue

/-- Both mantissas are brought to the smaller exponent, and added as integers. -/
theorem Parts.add (hu : Parts u a) (hv : Parts v b) :
    Parts (UnpackedFloat.add Format.binary64 u v) (nearest (a + b)) := by
  cases hu with
  | zero s =>
    rw [zero_add, hv.nearest_eq]
    cases hv with
    | zero t => cases s <;> cases t <;> exact .zero _
    | finite t hn => exact .finite t hn
  | @finite s m e hm =>
    cases hv with
    | zero t =>
      have hsame := Parts.finite s hm
      rwa [add_zero, hsame.nearest_eq]
    | @finite t n k hn =>
      have hsum := normalize_parts (s.apply (decreaseExponent m e (min e k)).1 +
        t.apply (decreaseExponent n k (min e k)).1) (min e k) .positive
      rwa [Int.cast_add, add_mul, apply_decreaseExponent_mul s m (min_le_left e k),
        apply_decreaseExponent_mul t n (min_le_right e k)] at hsum

theorem sub_eq_add (f : Format) (u v : UnpackedFloat) :
    UnpackedFloat.sub f u v = UnpackedFloat.add f u v.neg := by
  cases u with
  | finite s m e hm =>
    cases v with
    | finite t n k hn =>
      cases t
      · exact congrArg (UnpackedFloat.normalize f · (min e k) .positive) (sub_neg_eq_add _ _)
      · rfl
    | _ => rfl
  | _ => cases v <;> rfl

theorem Parts.sub (hu : Parts u a) (hv : Parts v b) :
    Parts (UnpackedFloat.sub Format.binary64 u v) (nearest (a - b)) := by
  rw [sub_eq_add, sub_eq_add_neg]
  exact hu.add hv.neg

theorem le_lastPlace {m : Nat} {e : Int} (h : e ≤ leastExponent ∨ 2 ^ 52 ≤ m) :
    e ≤ lastPlace ((m : ℚ) * 2 ^ e) := by
  rcases h with he | hm
  · exact he.trans (leastExponent_le_lastPlace _)
  · have hpower : (2 : ℚ) ^ (((52 : ℕ) : ℤ) + e) ≤ |(m : ℚ) * 2 ^ e| := by
      rw [abs_of_nonneg (by positivity), zpow_add₀ two_ne_zero, zpow_natCast]
      exact mul_le_mul_of_nonneg_right (by exact_mod_cast hm) (by positivity)
    have hplace := sub_le_lastPlace hpower
    omega

theorem withSign_mul (s t : Sign) (a b : ℚ) :
    withSign (s * t) (a * b) = withSign s a * withSign t b := by
  cases s <;> cases t
  · exact (neg_mul_neg a b).symm
  · exact (neg_mul a b).symm
  · exact (mul_neg a b).symm
  · rfl

/-- A product of mantissas has bits to cut off, unless it lies below every exponent. -/
theorem Parts.mul (hu : Parts u a) (hv : Parts v b) :
    Parts (UnpackedFloat.mul Format.binary64 u v) (nearest (a * b)) := by
  cases hu with
  | zero s =>
    rw [zero_mul, nearest_zero]
    cases hv <;> exact .zero _
  | @finite s m e hm =>
    cases hv with
    | zero t =>
      rw [mul_zero, nearest_zero]
      exact .zero _
    | @finite t n k hn =>
      have hplace : e + k ≤ leastExponent ∨ 2 ^ 52 ≤ m * n := by
        by_cases he : leastExponent < e
        · exact .inr ((hm.full he).trans (Nat.le_mul_of_pos_right m hn.pos))
        by_cases hk : leastExponent < k
        · exact .inr ((hn.full hk).trans (Nat.le_mul_of_pos_left n hm.pos))
        · refine .inl ?_
          unfold leastExponent at he hk ⊢
          omega
      have hproduct : ((m * n : ℕ) : ℚ) * 2 ^ (e + k) = (m * 2 ^ e) * (n * 2 ^ k) := by
        rw [zpow_add₀ two_ne_zero, Nat.cast_mul]
        ring
      have hparts := roundWithAccuracy_parts (s * t) (Nat.mul_pos hm.pos hn.pos)
        (le_lastPlace hplace)
      rwa [hproduct, ← nearest_withSign, withSign_mul] at hparts

end Operations

/-! ## Comparing -/

section Comparing

variable {m n : Nat} {e k : Int} {u v : UnpackedFloat} {a b : ℚ}

/-- The one with the greater exponent has a full mantissa. -/
theorem Canonical.lt_of_exponent_lt (h : Canonical m e) (h' : Canonical n k) (hlt : e < k) :
    (m : ℚ) * 2 ^ e < n * 2 ^ k := by
  have hfits : (m : ℚ) < 2 ^ 53 := by exact_mod_cast h.fits
  have hfull : (2 : ℚ) ^ 52 ≤ n := by exact_mod_cast h'.full (h.low.trans_lt hlt)
  calc (m : ℚ) * 2 ^ e < 2 ^ 53 * 2 ^ e := mul_lt_mul_of_pos_right hfits (by positivity)
    _ = 2 ^ 52 * 2 ^ (e + 1) := by
        rw [zpow_add_one₀ two_ne_zero]
        ring
    _ ≤ n * 2 ^ (e + 1) := mul_le_mul_of_nonneg_right hfull (by positivity)
    _ ≤ n * 2 ^ k :=
        mul_le_mul_of_nonneg_left (zpow_le_zpow_right₀ one_le_two (by omega)) (by positivity)

theorem Canonical.compare_eq (h : Canonical m e) (h' : Canonical n k) :
    (compare e k).then (compare m n) = compare ((m : ℚ) * 2 ^ e) (n * 2 ^ k) := by
  rcases lt_trichotomy e k with hlt | rfl | hgt
  · rw [Int.compare_eq_lt.mpr hlt, compare_lt_iff_lt.mpr (h.lt_of_exponent_lt h' hlt)]
    rfl
  · have hpos : (0 : ℚ) < 2 ^ e := by positivity
    rw [Int.compare_eq_eq.mpr rfl]
    show compare m n = _
    rcases lt_trichotomy m n with hlt | rfl | hgt
    · have hlt' : (m : ℚ) < n := by exact_mod_cast hlt
      rw [Nat.compare_eq_lt.mpr hlt, compare_lt_iff_lt.mpr (mul_lt_mul_of_pos_right hlt' hpos)]
    · rw [Nat.compare_eq_eq.mpr rfl, compare_eq_iff_eq.mpr rfl]
    · have hgt' : (n : ℚ) < m := by exact_mod_cast hgt
      rw [Nat.compare_eq_gt.mpr hgt, compare_gt_iff_gt.mpr (mul_lt_mul_of_pos_right hgt' hpos)]
  · rw [Int.compare_eq_gt.mpr hgt, compare_gt_iff_gt.mpr (h'.lt_of_exponent_lt h hgt)]
    rfl

theorem compare_neg (a b : ℚ) : compare (-a) (-b) = (compare a b).swap := by
  rcases lt_trichotomy a b with hlt | rfl | hgt
  · rw [compare_lt_iff_lt.mpr hlt, compare_gt_iff_gt.mpr (neg_lt_neg hlt)]
    rfl
  · rw [compare_eq_iff_eq.mpr rfl, compare_eq_iff_eq.mpr rfl]
    rfl
  · rw [compare_gt_iff_gt.mpr hgt, compare_lt_iff_lt.mpr (neg_lt_neg hgt)]
    rfl

theorem Parts.compare_eq (hu : Parts u a) (hv : Parts v b) :
    u.compare v = some (compare a b) := by
  cases hu with
  | zero s =>
    cases hv with
    | zero t => exact congrArg some (compare_eq_iff_eq.mpr rfl).symm
    | @finite t n k hn =>
      have hpos : (0 : ℚ) < n * 2 ^ k := hn.value_pos
      cases t
      · exact congrArg some (compare_gt_iff_gt.mpr (neg_neg_of_pos hpos)).symm
      · exact congrArg some (compare_lt_iff_lt.mpr hpos).symm
  | @finite s m e hm =>
    have hpos : (0 : ℚ) < m * 2 ^ e := hm.value_pos
    cases hv with
    | zero t =>
      cases s
      · exact congrArg some (compare_lt_iff_lt.mpr (neg_neg_of_pos hpos)).symm
      · exact congrArg some (compare_gt_iff_gt.mpr hpos).symm
    | @finite t n k hn =>
      have hpos' : (0 : ℚ) < n * 2 ^ k := hn.value_pos
      have hcompare := hm.compare_eq hn
      cases s <;> cases t
      · show some ((compare e k).then (compare m n)).swap = some (compare (-_) (-_))
        rw [hcompare, compare_neg]
      · exact congrArg some (compare_lt_iff_lt.mpr ((neg_neg_of_pos hpos).trans hpos')).symm
      · exact congrArg some (compare_gt_iff_gt.mpr ((neg_neg_of_pos hpos').trans hpos)).symm
      · exact congrArg some hcompare

end Comparing

/-! ## Doubles -/

/-- The rational, rounded: infinite where that is too large. -/
structure Rounded (x : Float) (q : ℚ) : Prop where
  isFinite_iff : x.isFinite ↔ |nearest q| < 2 ^ 1024
  denotes : x.isFinite → Denotes x (nearest q)

theorem Parts.rounded {u : UnpackedFloat} {q : ℚ} (h : Parts u (nearest q)) :
    Rounded (.ofModel (.pack u)) q := by
  suffices hpacked : ((Float.Model.pack u).unpack.isFinite ↔ |nearest q| < 2 ^ 1024) ∧
      ((Float.Model.pack u).unpack.isFinite → Parts (Float.Model.pack u).unpack (nearest q)) from
    ⟨hpacked.1, hpacked.2⟩
  generalize nearest q = a at h
  cases h with
  | zero s =>
    have hunpack : (Float.Model.pack (.zero s)).unpack = .zero s := by cases s <;> rfl
    rw [hunpack, abs_zero]
    exact ⟨iff_of_true rfl (by norm_num), fun _ => .zero s⟩
  | @finite s m e hm =>
    rw [abs_withSign, abs_of_pos hm.value_pos, hm.lt_iff]
    by_cases he : e ≤ 971
    · rw [hm.unpack_pack he s]
      exact ⟨iff_of_true rfl he, fun _ => .finite s hm⟩
    · rw [hm.unpack_pack_large (not_le.mp he) s]
      exact ⟨iff_of_false Bool.false_ne_true he, fun h => absurd h Bool.false_ne_true⟩

theorem lt_iff_unpack {x y : Float} : x < y ↔ x.toModel.unpack.lt y.toModel.unpack = true := by
  show (decide (x.toModel.unpack.lt y.toModel.unpack = true)) = true ↔ _
  exact decide_eq_true_iff

namespace Denotes

variable {x y : Float} {a b : ℚ}

theorem nearest_eq (hx : Denotes x a) : nearest a = a := Parts.nearest_eq hx

theorem abs_lt (hx : Denotes x a) : |a| < 2 ^ 1024 := by
  unfold Denotes at hx
  generalize hu : x.toModel.unpack = u at hx
  cases hx with
  | zero s => norm_num
  | @finite s m e hm =>
    rw [abs_withSign, abs_of_pos hm.value_pos, hm.lt_iff]
    exact (canonical_of_unpack hu).2

theorem add (hx : Denotes x a) (hy : Denotes y b) : Rounded (x + y) (a + b) :=
  (Parts.add hx hy).rounded

theorem sub (hx : Denotes x a) (hy : Denotes y b) : Rounded (x - y) (a - b) :=
  (Parts.sub hx hy).rounded

theorem mul (hx : Denotes x a) (hy : Denotes y b) : Rounded (x * y) (a * b) :=
  (Parts.mul hx hy).rounded

theorem lt_iff (hx : Denotes x a) (hy : Denotes y b) : x < y ↔ a < b := by
  rw [lt_iff_unpack, UnpackedFloat.lt, Parts.compare_eq hx hy, ← compare_lt_iff_lt]
  cases compare a b <;> decide

theorem le_iff (hx : Denotes x a) (hy : Denotes y b) : x ≤ y ↔ a ≤ b := by
  show (decide (x.toModel.unpack.le y.toModel.unpack = true)) = true ↔ a ≤ b
  rw [decide_eq_true_iff, UnpackedFloat.le, Parts.compare_eq hx hy, ← compare_le_iff_le]
  cases compare a b <;> decide

end Denotes

/-! ## Absolute values -/

section AbsoluteValues

variable {x y : Float}

theorem unpack_abs (x : Float) : x.abs.toModel.unpack = x.toModel.unpack.abs := by
  show (Float.Model.pack x.toModel.unpack.abs).unpack = x.toModel.unpack.abs
  cases h : x.toModel.unpack with
  | notANumber => rfl
  | infinity s => cases s <;> rfl
  | zero s => cases s <;> rfl
  | finite s m e hm =>
    obtain ⟨hcanonical, hlow⟩ := canonical_of_unpack h
    exact hcanonical.unpack_pack hlow .positive

theorem zero_sub_eq_abs (h : x < 0) : 0 - x = x.abs := by
  rw [lt_iff_unpack] at h
  show Float.ofModel (.pack (UnpackedFloat.sub Format.binary64 (0 : Float).toModel.unpack
    x.toModel.unpack)) = .ofModel (.pack x.toModel.unpack.abs)
  generalize x.toModel.unpack = u at h ⊢
  cases u with
  | notANumber => cases h
  | zero s => cases h
  | infinity s =>
    cases s with
    | negative => rfl
    | positive => cases h
  | finite s m e hm =>
    cases s with
    | negative => rfl
    | positive => cases h

theorem lt_zero_parts (v : UnpackedFloat) (s t : Sign) : v.lt (.zero s) = v.lt (.zero t) := by
  cases v with
  | notANumber => rfl
  | zero r => rfl
  | infinity r => cases r <;> rfl
  | finite r m e hm => cases r <;> rfl

/-- Of a number that is not negative, the absolute value differs in the sign of a zero at most,
which no comparison sees. -/
theorem lt_abs_iff (h : ¬ x < 0) : y < x.abs ↔ y < x := by
  rw [lt_iff_unpack] at h
  rw [lt_iff_unpack, lt_iff_unpack, unpack_abs]
  generalize x.toModel.unpack = u at h ⊢
  cases u with
  | notANumber => rfl
  | zero s => exact Bool.eq_iff_iff.mp (lt_zero_parts _ .positive s)
  | infinity s =>
    cases s with
    | negative => exact absurd rfl h
    | positive => rfl
  | finite s m e hm =>
    cases s with
    | negative => exact absurd rfl h
    | positive => rfl

end AbsoluteValues

/-! ## What is not finite -/

section Infinite

variable {x y z : Float} {u v w : UnpackedFloat}

theorem isFinite_of_pack (h : (Float.Model.pack u).unpack.isFinite) : u.isFinite := by
  cases u with
  | infinity s => cases s <;> exact h
  | notANumber => exact h
  | _ => rfl

theorem isFinite_of_add_parts (h : (UnpackedFloat.add Format.binary64 u v).isFinite) :
    v.isFinite := by
  cases v with
  | infinity t =>
    cases u with
    | infinity s => cases s <;> cases t <;> exact h
    | _ => exact h
  | notANumber => cases u <;> exact h
  | _ => rfl

theorem isFinite_of_mul_parts (h : (UnpackedFloat.mul Format.binary64 u v).isFinite) :
    v.isFinite := by
  cases v with
  | infinity t => cases u <;> exact h
  | notANumber => cases u <;> exact h
  | _ => rfl

/-- No addition leads back from infinity. -/
theorem isFinite_of_add (h : (x + y).isFinite) : y.isFinite :=
  isFinite_of_add_parts (isFinite_of_pack h)

theorem isFinite_of_mul (h : (x * y).isFinite) : y.isFinite :=
  isFinite_of_mul_parts (isFinite_of_pack h)

theorem isFinite_of_between_parts (hu : u.isFinite) (hv : v.isFinite) (hlow : u.le w)
    (hhigh : w.lt v) : w.isFinite := by
  cases w with
  | infinity t =>
    cases t
    · cases u with
      | zero s => exact hlow
      | finite s m e hm => exact hlow
      | _ => exact hu
    · cases v with
      | zero s => exact hhigh
      | finite s m e hm => exact hhigh
      | _ => exact hv
  | notANumber => cases u <;> exact hlow
  | _ => rfl

theorem isFinite_of_between (hx : x.isFinite) (hy : y.isFinite) (hlow : x ≤ z) (hhigh : z < y) :
    z.isFinite :=
  isFinite_of_between_parts hx hy (of_decide_eq_true hlow) (of_decide_eq_true hhigh)

end Infinite

end ChordGrammar.Decimal
