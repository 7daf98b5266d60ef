import Mathlib
import ChordGrammar.Decimal.Shortest

/-!
# Rounding to a double

A rational is rounded to the nearest multiple of its last place, the power of two that makes 53
bits out of it, and to the even one of two that are as near. Below the normal doubles the last place
stays at the least exponent. Rounding keeps the order, and it keeps whatever is a multiple of a last
place or of a greater power of two; sums and products of doubles are bounded by these two facts.
-/
namespace ChordGrammar.Decimal

/-! ## The nearest integer -/

/-- The integer nearest to a rational, and of two the even one. -/
def nearestInt (q : ℚ) : ℤ :=
  let n := ⌊q⌋
  if q - n < 1 / 2 then n
  else if 1 / 2 < q - n then n + 1
  else n + n % 2

@[simp] theorem nearestInt_intCast (n : ℤ) : nearestInt n = n := by
  simp [nearestInt]

theorem floor_le_nearestInt (q : ℚ) : ⌊q⌋ ≤ nearestInt q := by
  unfold nearestInt
  dsimp only
  split_ifs <;> omega

theorem nearestInt_le_floor_add_one (q : ℚ) : nearestInt q ≤ ⌊q⌋ + 1 := by
  unfold nearestInt
  dsimp only
  split_ifs <;> omega

theorem nearestInt_le_add_half (q : ℚ) : nearestInt q ≤ q + 1 / 2 := by
  have hfloor := Int.floor_le q
  have hparity : ((⌊q⌋ % 2 : ℤ) : ℚ) ≤ 1 := by exact_mod_cast (by omega : ⌊q⌋ % 2 ≤ 1)
  unfold nearestInt
  dsimp only
  split_ifs
  all_goals
    push_cast
    linarith

theorem nearestInt_mono {q r : ℚ} (h : q ≤ r) : nearestInt q ≤ nearestInt r := by
  rcases (Int.floor_mono h).lt_or_eq with hlt | heq
  · have hq := nearestInt_le_floor_add_one q
    have hr := floor_le_nearestInt r
    omega
  -- between the same two integers the greater rational is not in an earlier branch
  unfold nearestInt
  dsimp only
  rw [heq]
  split_ifs
  all_goals first
    | omega
    | exfalso; linarith

theorem nearestInt_neg (q : ℚ) : nearestInt (-q) = -nearestInt q := by
  by_cases hint : q = ⌊q⌋
  · rw [hint, ← Int.cast_neg, nearestInt_intCast, nearestInt_intCast]
  have hlow : (⌊q⌋ : ℚ) < q := lt_of_le_of_ne (Int.floor_le q) (Ne.symm hint)
  have hhigh := Int.lt_floor_add_one q
  have hfloor : ⌊-q⌋ = -⌊q⌋ - 1 := by
    rw [Int.floor_eq_iff]
    push_cast
    constructor <;> linarith
  unfold nearestInt
  dsimp only
  rw [hfloor]
  push_cast
  split_ifs
  all_goals first
    | omega
    | exfalso; linarith

/-! ## The last place -/

/-- The exponent of the last bit of the double nearest to `q`. -/
def lastPlace (q : ℚ) : ℤ :=
  if q = 0 then leastExponent else max (Int.log 2 |q| - 52) leastExponent

theorem leastExponent_le_lastPlace (q : ℚ) : leastExponent ≤ lastPlace q := by
  unfold lastPlace
  split_ifs
  · exact le_rfl
  · exact le_max_right _ _

/-- The last place is the least that leaves 53 bits. -/
theorem lastPlace_le_iff {q : ℚ} {e : ℤ} (he : leastExponent ≤ e) :
    lastPlace q ≤ e ↔ |q| < 2 ^ (e + 53) := by
  unfold lastPlace
  split_ifs with hq
  · simp only [hq, abs_zero, he, true_iff]
    positivity
  · have hlog := @Int.lt_zpow_iff_log_lt ℚ _ _ _ _ 2 one_lt_two (e + 53) |q| (abs_pos.mpr hq)
    rw [Nat.cast_ofNat] at hlog
    rw [hlog, max_le_iff]
    omega

theorem lastPlace_mono {q r : ℚ} (h : |q| ≤ |r|) : lastPlace q ≤ lastPlace r := by
  have hleast := leastExponent_le_lastPlace r
  rw [lastPlace_le_iff hleast]
  exact h.trans_lt ((lastPlace_le_iff hleast).mp le_rfl)

theorem abs_lt_lastPlace (q : ℚ) : |q| < 2 ^ (lastPlace q + 53) :=
  (lastPlace_le_iff (leastExponent_le_lastPlace q)).mp le_rfl

theorem sub_le_lastPlace {q : ℚ} {e : ℤ} (h : 2 ^ e ≤ |q|) : e - 52 ≤ lastPlace q := by
  have hexponents := (zpow_lt_zpow_iff_right₀ one_lt_two).mp (h.trans_lt (abs_lt_lastPlace q))
  omega

theorem lastPlace_le_abs {q : ℚ} (h : leastExponent < lastPlace q) :
    2 ^ (lastPlace q + 52) ≤ |q| := by
  have hnot : ¬ lastPlace q ≤ lastPlace q - 1 := by omega
  have hexponent : lastPlace q - 1 + 53 = lastPlace q + 52 := by ring
  rwa [lastPlace_le_iff (by omega), not_lt, hexponent] at hnot

@[simp] theorem lastPlace_neg (q : ℚ) : lastPlace (-q) = lastPlace q := by
  simp [lastPlace]

/-! ## The nearest double -/

/-- How many times the last place fits into `q`, rounded. -/
def mantissa (q : ℚ) : ℤ := nearestInt (q / 2 ^ lastPlace q)

/-- The rational to which `q` is rounded: that of a double, where one is large enough. -/
def nearest (q : ℚ) : ℚ := mantissa q * 2 ^ lastPlace q

@[simp] theorem mantissa_neg (q : ℚ) : mantissa (-q) = -mantissa q := by
  simp [mantissa, neg_div, nearestInt_neg]

@[simp] theorem nearest_neg (q : ℚ) : nearest (-q) = -nearest q := by
  simp [nearest]

/-- 53 bits hold it, or it is the next power of two. -/
theorem abs_mantissa_le (q : ℚ) : |mantissa q| ≤ 2 ^ 53 := by
  have hpos : (0 : ℚ) < 2 ^ lastPlace q := by positivity
  have hbound : |q / 2 ^ lastPlace q| < ((2 ^ 53 : ℤ) : ℚ) := by
    have hlt := abs_lt_lastPlace q
    rw [zpow_add₀ two_ne_zero, mul_comm] at hlt
    rw [abs_div, abs_of_pos hpos, div_lt_iff₀ hpos]
    exact_mod_cast hlt
  obtain ⟨hlow, hhigh⟩ := abs_lt.mp hbound
  have hlow' := nearestInt_mono hlow.le
  have hhigh' := nearestInt_mono hhigh.le
  rw [nearestInt_intCast] at hhigh'
  rw [← Int.cast_neg, nearestInt_intCast] at hlow'
  exact abs_le.mpr ⟨hlow', hhigh'⟩

/-- Above the least exponent all 53 bits are in use. -/
theorem le_mantissa {q : ℚ} (hq : 0 ≤ q) (h : leastExponent < lastPlace q) :
    2 ^ 52 ≤ mantissa q := by
  have hpos : (0 : ℚ) < 2 ^ lastPlace q := by positivity
  have hbound : ((2 ^ 52 : ℤ) : ℚ) ≤ q / 2 ^ lastPlace q := by
    have hle := lastPlace_le_abs h
    rw [zpow_add₀ two_ne_zero, mul_comm, abs_of_nonneg hq] at hle
    rw [le_div_iff₀ hpos]
    exact_mod_cast hle
  have hint := nearestInt_mono hbound
  rwa [nearestInt_intCast] at hint

section Multiples

variable {q : ℚ} {n e : ℤ}

/-- A multiple of a power of two is a multiple of a smaller one. -/
theorem exists_mul_two_zpow (n : ℤ) {e t : ℤ} (h : t ≤ e) :
    ∃ k : ℤ, (n * 2 ^ e : ℚ) = k * 2 ^ t := by
  refine ⟨n * 2 ^ (e - t).toNat, ?_⟩
  have hsplit : (2 : ℚ) ^ e = 2 ^ (e - t).toNat * 2 ^ t := by
    rw [← zpow_natCast, ← zpow_add₀ two_ne_zero]
    congr 1
    omega
  rw [hsplit]
  push_cast
  ring

theorem nearest_le_mul (he : lastPlace q ≤ e) (h : q ≤ n * 2 ^ e) : nearest q ≤ n * 2 ^ e := by
  obtain ⟨k, hk⟩ := exists_mul_two_zpow n he
  have hpos : (0 : ℚ) < 2 ^ lastPlace q := by positivity
  rw [hk] at h ⊢
  have hint := nearestInt_mono ((div_le_iff₀ hpos).mpr h)
  rw [nearestInt_intCast] at hint
  exact mul_le_mul_of_nonneg_right (by exact_mod_cast hint) hpos.le

theorem mul_le_nearest (he : lastPlace q ≤ e) (h : n * 2 ^ e ≤ q) : n * 2 ^ e ≤ nearest q := by
  have hneg := @nearest_le_mul (-q) (-n) e (by simpa using he) (by push_cast; linarith)
  rw [nearest_neg] at hneg
  push_cast at hneg
  linarith

theorem nearest_mul_eq (he : lastPlace (n * 2 ^ e) ≤ e) : nearest (n * 2 ^ e) = n * 2 ^ e :=
  le_antisymm (nearest_le_mul he le_rfl) (mul_le_nearest he le_rfl)

theorem nearest_two_zpow (he : leastExponent ≤ e) : nearest (2 ^ e) = 2 ^ e := by
  have hplace : lastPlace (2 ^ e) ≤ e := by
    rw [lastPlace_le_iff he, abs_of_pos (by positivity)]
    exact zpow_lt_zpow_right₀ one_lt_two (by omega)
  simpa using @nearest_mul_eq 1 e (by simpa using hplace)

/-- What a mantissa of 53 bits can hold is not rounded, nor is the next power of two. -/
theorem nearest_mantissa (hn : |n| ≤ 2 ^ 53) (he : leastExponent ≤ e) :
    nearest (n * 2 ^ e) = n * 2 ^ e := by
  rcases hn.lt_or_eq with hlt | heq
  · have hbound : (|n| : ℚ) < 2 ^ (53 : ℤ) := by exact_mod_cast hlt
    apply nearest_mul_eq
    rw [lastPlace_le_iff he, abs_mul, abs_of_pos (a := (2 : ℚ) ^ e) (by positivity),
      zpow_add₀ two_ne_zero, mul_comm]
    exact mul_lt_mul_of_pos_left hbound (by positivity)
  · have hpower : ((2 ^ 53 : ℤ) : ℚ) * 2 ^ e = 2 ^ (53 + e) := by
      rw [zpow_add₀ two_ne_zero]
      norm_num
    have hexact := @nearest_two_zpow (53 + e) (by omega)
    rcases (abs_eq (by positivity)).mp heq with rfl | rfl
    · rw [hpower, hexact]
    · rw [Int.cast_neg, neg_mul, hpower, nearest_neg, hexact]

end Multiples

@[simp] theorem nearest_zero : nearest 0 = 0 := by
  simpa using @nearest_mantissa 0 leastExponent (by norm_num) le_rfl

theorem nearest_nonneg {q : ℚ} (h : 0 ≤ q) : 0 ≤ nearest q := by
  simpa using @mul_le_nearest q 0 (lastPlace q) le_rfl (by simpa using h)

/-- Rounding does not lead past the power of two from which a greater last place is used. -/
theorem nearest_le_two_zpow {q : ℚ} {e : ℤ} (hq : 0 ≤ q) (h : lastPlace q < e) :
    nearest q ≤ 2 ^ (e + 52) := by
  have hleast := leastExponent_le_lastPlace q
  have hplace : lastPlace q ≤ e - 1 := by omega
  have hexponent : e - 1 + 53 = e + 52 := by ring
  rw [lastPlace_le_iff (by omega), abs_of_nonneg hq, hexponent] at hplace
  simpa using @nearest_le_mul q 1 (e + 52) (by omega) (by simpa using hplace.le)

/-- Where the last places differ, a power of two lies between. -/
theorem nearest_mono_nonneg {q r : ℚ} (hq : 0 ≤ q) (h : q ≤ r) : nearest q ≤ nearest r := by
  have hr : 0 ≤ r := hq.trans h
  have habs : |q| ≤ |r| := by rwa [abs_of_nonneg hq, abs_of_nonneg hr]
  rcases (lastPlace_mono habs).lt_or_eq with hlt | heq
  · have habove := lastPlace_le_abs ((leastExponent_le_lastPlace q).trans_lt hlt)
    rw [abs_of_nonneg hr] at habove
    calc nearest q ≤ 2 ^ (lastPlace r + 52) := nearest_le_two_zpow hq hlt
      _ ≤ nearest r := by
          simpa using @mul_le_nearest r 1 (lastPlace r + 52) (by omega) (by simpa using habove)
  · unfold nearest mantissa
    rw [heq]
    have hpos : (0 : ℚ) < 2 ^ lastPlace r := by positivity
    have hint := nearestInt_mono (div_le_div_of_nonneg_right h hpos.le)
    exact mul_le_mul_of_nonneg_right (by exact_mod_cast hint) hpos.le

theorem nearest_mono {q r : ℚ} (h : q ≤ r) : nearest q ≤ nearest r := by
  rcases le_total 0 q with hq | hq
  · exact nearest_mono_nonneg hq h
  rcases le_total 0 r with hr | hr
  · have hneg := nearest_nonneg (neg_nonneg.mpr hq)
    rw [nearest_neg] at hneg
    exact (neg_nonneg.mp hneg).trans (nearest_nonneg hr)
  · have hneg := nearest_mono_nonneg (neg_nonneg.mpr hr) (neg_le_neg h)
    rw [nearest_neg, nearest_neg] at hneg
    exact neg_le_neg_iff.mp hneg

theorem nearest_nearest (q : ℚ) : nearest (nearest q) = nearest q :=
  nearest_mantissa (abs_mantissa_le q) (leastExponent_le_lastPlace q)

theorem nearest_le_add_half (q : ℚ) : nearest q ≤ q + 2 ^ lastPlace q / 2 := by
  have hpos : (0 : ℚ) < 2 ^ lastPlace q := by positivity
  have hhalf := mul_le_mul_of_nonneg_right (nearestInt_le_add_half (q / 2 ^ lastPlace q)) hpos.le
  rw [add_mul, div_mul_cancel₀ q hpos.ne'] at hhalf
  calc nearest q ≤ q + 1 / 2 * 2 ^ lastPlace q := hhalf
    _ = q + 2 ^ lastPlace q / 2 := by ring

/-- Different doubles of one size are at least a last place apart. -/
theorem nearest_add_lastPlace_le {q r : ℚ} (hplace : lastPlace q = lastPlace r)
    (h : nearest q < nearest r) : nearest q + 2 ^ lastPlace r ≤ nearest r := by
  unfold nearest at h ⊢
  rw [hplace] at h ⊢
  have hpos : (0 : ℚ) < 2 ^ lastPlace r := by positivity
  have hmantissa : mantissa q < mantissa r := by exact_mod_cast lt_of_mul_lt_mul_right h hpos.le
  have hstep : ((mantissa q + 1 : ℤ) : ℚ) ≤ mantissa r := by exact_mod_cast hmantissa
  calc (mantissa q : ℚ) * 2 ^ lastPlace r + 2 ^ lastPlace r
      = ((mantissa q + 1 : ℤ) : ℚ) * 2 ^ lastPlace r := by
        push_cast
        ring
    _ ≤ mantissa r * 2 ^ lastPlace r := mul_le_mul_of_nonneg_right hstep hpos.le

/-- Every double is a multiple of the least power of two. -/
theorem exists_nearest_eq (q : ℚ) : ∃ n : ℤ, nearest q = n * 2 ^ leastExponent :=
  exists_mul_two_zpow (mantissa q) (leastExponent_le_lastPlace q)

end ChordGrammar.Decimal
