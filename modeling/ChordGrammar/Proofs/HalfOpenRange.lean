import ChordGrammar.Proofs.DoubleArithmetic

/-!
# Draws between two bounds

A draw is brought between two bounds by a difference, a product and a sum, and each of them rounds.
However the width of the range was rounded, a fraction of it is not rounded to more than the exact
width, because the draws end `2 ^ -53` short of one; so the sum stays between the bounds. It can
reach the upper one, which the range leaves out: the greatest draw decides whether any draw does.
Where the bounds are so far apart that their difference is infinite, what comes out is not finite.
-/
namespace ChordGrammar

namespace Decimal

/-! ## Fractions of a rounded width -/

/-- A fraction of a width that was rounded up is more than half a last place below it. -/
theorem mul_nearest_lt {d x : ℚ} (hd : 2 ^ (lastPlace d + 52) ≤ d) (hup : d < nearest d)
    (hx : x ≤ 1 - 1 / 2 ^ 53) : x * nearest d < nearest d - 2 ^ lastPlace d / 2 := by
  have hplace : (2 : ℚ) ^ lastPlace d / 2 = 1 / 2 ^ 53 * 2 ^ (lastPlace d + 52) := by
    rw [zpow_add₀ two_ne_zero]
    norm_num
    ring
  have hpos : 0 ≤ nearest d := (by positivity : (0 : ℚ) ≤ _).trans (hd.trans hup.le)
  calc x * nearest d ≤ (1 - 1 / 2 ^ 53) * nearest d := mul_le_mul_of_nonneg_right hx hpos
    _ = nearest d - 1 / 2 ^ 53 * nearest d := by ring
    _ < nearest d - 1 / 2 ^ 53 * 2 ^ (lastPlace d + 52) :=
        sub_lt_sub_left (mul_lt_mul_of_pos_left (hd.trans_lt hup) (by norm_num)) _
    _ = nearest d - 2 ^ lastPlace d / 2 := by rw [hplace]

/-- Rounding twice does not lead past the exact width. -/
theorem nearest_mul_nearest_le {d x : ℚ} (hd : 0 ≤ d) (hmul : ∃ n : ℤ, d = n * 2 ^ leastExponent)
    (hx : 0 ≤ x) (hx' : x ≤ 1 - 1 / 2 ^ 53) : nearest (x * nearest d) ≤ d := by
  have hwidth : 0 ≤ nearest d := nearest_nonneg hd
  by_cases hup : nearest d ≤ d
  · have hfraction : x * nearest d ≤ nearest d :=
      mul_le_of_le_one_left hwidth (hx'.trans (by norm_num))
    calc nearest (x * nearest d) ≤ nearest (nearest d) := nearest_mono hfraction
      _ = nearest d := nearest_nearest d
      _ ≤ d := hup
  rw [not_le] at hup
  -- at the least exponent the width is a multiple of its last place, and is not rounded
  have hplace : leastExponent < lastPlace d := by
    refine lt_of_le_of_ne (leastExponent_le_lastPlace d) fun hleast => hup.ne ?_
    obtain ⟨n, rfl⟩ := hmul
    exact (nearest_mul_eq hleast.ge).symm
  have hfull := lastPlace_le_abs hplace
  rw [abs_of_nonneg hd] at hfull
  have hhalf := nearest_le_add_half d
  have hfraction := mul_nearest_lt hfull hup hx'
  have hbelow : x * nearest d < d := by linarith
  have hpos : 0 ≤ x * nearest d := mul_nonneg hx hwidth
  have hle : lastPlace (x * nearest d) ≤ lastPlace d :=
    lastPlace_mono (by rw [abs_of_nonneg hpos, abs_of_nonneg hd]; exact hbelow.le)
  -- rounded up at a smaller last place, the fraction ends at a power of two below the width; at the
  -- same last place, a whole place below the rounded width
  rcases hle.lt_or_eq with hlt | heq
  · exact (nearest_le_two_zpow hpos hlt).trans hfull
  · have hround := nearest_le_add_half (x * nearest d)
    rw [heq] at hround
    have hstep := nearest_add_lastPlace_le heq (by linarith)
    have hpower : (0 : ℚ) < 2 ^ lastPlace d := by positivity
    linarith

/-! ## Rescaled fractions -/

/-- Where a fraction lies between two bounds, by a difference, a product and a sum that round. -/
def rescaled (low high x : ℚ) : ℚ := nearest (low + nearest (x * nearest (high - low)))

section Rescaled

variable {low high x y : ℚ}

theorem rescaled_mono (h : low ≤ high) (hxy : x ≤ y) :
    rescaled low high x ≤ rescaled low high y := by
  have hwidth : 0 ≤ nearest (high - low) := nearest_nonneg (sub_nonneg.mpr h)
  have hproduct := nearest_mono (mul_le_mul_of_nonneg_right hxy hwidth)
  exact nearest_mono (add_le_add_right hproduct low)

theorem le_rescaled (hlow : nearest low = low) (h : low ≤ high) (hx : 0 ≤ x) :
    low ≤ rescaled low high x := by
  have hwidth : 0 ≤ nearest (high - low) := nearest_nonneg (sub_nonneg.mpr h)
  have hproduct : 0 ≤ nearest (x * nearest (high - low)) := nearest_nonneg (mul_nonneg hx hwidth)
  calc low = nearest low := hlow.symm
    _ ≤ rescaled low high x := nearest_mono (by linarith)

theorem rescaled_le (hlow : nearest low = low) (hhigh : nearest high = high) (h : low ≤ high)
    (hx : 0 ≤ x) (hx' : x ≤ 1 - 1 / 2 ^ 53) : rescaled low high x ≤ high := by
  have hmul : ∃ n : ℤ, high - low = n * 2 ^ leastExponent := by
    obtain ⟨j, hj⟩ := exists_nearest_eq low
    obtain ⟨k, hk⟩ := exists_nearest_eq high
    refine ⟨k - j, ?_⟩
    rw [← hhigh, ← hlow, hj, hk]
    push_cast
    ring
  have hproduct := nearest_mul_nearest_le (sub_nonneg.mpr h) hmul hx hx'
  calc rescaled low high x ≤ nearest high := nearest_mono (by linarith)
    _ = high := hhigh

end Rescaled

end Decimal

/-! ## Doubles between two bounds -/

namespace Xoshiro

open Decimal

theorem denotes_unit (word : UInt64) : Denotes (unit word) (unit word) :=
  denotes_of_value (value_unit word)

theorem unit_nonneg (word : UInt64) : (0 : Rat) ≤ unit word := by
  rw [unit_rat]
  positivity

theorem unit_le (word : UInt64) : (unit word : Rat) ≤ 1 - 1 / 2 ^ 53 := by
  have hsteps : (stepsOf word : ℚ) + 1 ≤ 2 ^ 53 := by exact_mod_cast stepsOf_lt word
  rw [unit_rat, div_le_iff₀ (by positivity), sub_mul, one_mul, div_mul_cancel₀ _ (by positivity)]
  linarith

/-- The word of the greatest draw. -/
def greatestWord : UInt64 := 0xffffffffffffffff

theorem unit_greatestWord : (unit greatestWord : Rat) = 1 - 1 / 2 ^ 53 := by
  have hsteps : stepsOf greatestWord = 2 ^ 53 - 1 := rfl
  rw [unit_rat, hsteps]
  norm_num

theorem exists_output_eq_greatestWord : ∃ g : Xoshiro, g.output = greatestWord :=
  ⟨⟨greatestWord, 0, 0, 1⟩, rfl⟩

section Range

variable {low high : Float} {a b : Rat}

/-- With a finite width none of the three steps leads to infinity. -/
theorem denotes_rescaled (hlow : Denotes low a) (hhigh : Denotes high b) (h : a ≤ b)
    (hwidth : (high - low).isFinite) (word : UInt64) :
    Denotes (low + unit word * (high - low)) (rescaled a b (unit word)) := by
  have hdifference := hhigh.sub hlow
  have hd : Denotes (high - low) (nearest (b - a)) := hdifference.denotes hwidth
  have hproduct := (denotes_unit word).mul hd
  have hsmall : |nearest (unit word * nearest (b - a))| < 2 ^ 1024 := by
    have hnonneg : 0 ≤ nearest (b - a) := nearest_nonneg (sub_nonneg.mpr h)
    have hfraction : unit word * nearest (b - a) ≤ nearest (b - a) :=
      mul_le_of_le_one_left hnonneg ((unit_le word).trans (by norm_num))
    rw [abs_of_nonneg (nearest_nonneg (mul_nonneg (unit_nonneg word) hnonneg))]
    calc nearest (unit word * nearest (b - a)) ≤ nearest (nearest (b - a)) := nearest_mono hfraction
      _ = nearest (b - a) := nearest_nearest _
      _ ≤ |nearest (b - a)| := le_abs_self _
      _ < 2 ^ 1024 := hdifference.isFinite_iff.mp hwidth
  have hp := hproduct.denotes (hproduct.isFinite_iff.mpr hsmall)
  have hsum := hlow.add hp
  have hbelow := (abs_lt.mp hlow.abs_lt).1
  have habove := (abs_lt.mp hhigh.abs_lt).2
  have hge := le_rescaled hlow.nearest_eq h (unit_nonneg word)
  have hle := rescaled_le hlow.nearest_eq hhigh.nearest_eq h
    (unit_nonneg word) (unit_le word)
  exact hsum.denotes (hsum.isFinite_iff.mpr
    (abs_lt.mpr ⟨hbelow.trans_le hge, hle.trans_lt habove⟩))

theorem range_eq (h : low < high) (g : Xoshiro) :
    range low high g = .ok (low + unit g.output * (high - low), g.advance) := if_pos h

end Range

/-- A draw between two finite doubles is one of the closed interval between them if their difference
is finite, and it is not finite otherwise. The greatest draw decides whether every draw is below the
upper bound, too. -/
theorem range_within (low high : Float) (hlow : low.isFinite) (hhigh : high.isFinite)
    (h : low < high) :
    (∀ g : Xoshiro, ∃ v, range low high g = .ok (v, g.advance) ∧
      ((high - low).isFinite → low ≤ v ∧ v ≤ high) ∧
      (v.isFinite → (high - low).isFinite)) ∧
    ((∀ g : Xoshiro, ∃ v, range low high g = .ok (v, g.advance) ∧ low ≤ v ∧ v < high) ↔
      (high - low).isFinite ∧ low + unit greatestWord * (high - low) < high) := by
  obtain ⟨a, ha⟩ := isFinite_iff_exists_denotes.mp hlow
  obtain ⟨b, hb⟩ := isFinite_iff_exists_denotes.mp hhigh
  have hab : a ≤ b := ((ha.lt_iff hb).mp h).le
  have hfinite : ∀ word : UInt64, (low + unit word * (high - low)).isFinite →
      (high - low).isFinite := fun _ hv => isFinite_of_mul (isFinite_of_add hv)
  have hlower : ∀ word : UInt64, (high - low).isFinite → low ≤ low + unit word * (high - low) := by
    intro word hwidth
    rw [ha.le_iff (denotes_rescaled ha hb hab hwidth word)]
    exact le_rescaled ha.nearest_eq hab (unit_nonneg word)
  refine ⟨fun g => ⟨_, range_eq h g, fun hwidth => ⟨hlower g.output hwidth, ?_⟩,
    hfinite g.output⟩, ?_, ?_⟩
  · rw [(denotes_rescaled ha hb hab hwidth g.output).le_iff hb]
    exact rescaled_le ha.nearest_eq hb.nearest_eq hab (unit_nonneg g.output)
      (unit_le g.output)
  · intro hall
    obtain ⟨g, hg⟩ := exists_output_eq_greatestWord
    obtain ⟨v, hv, hge, hlt⟩ := hall g
    rw [range_eq h g, hg] at hv
    obtain rfl := congrArg Prod.fst (Except.ok.inj hv)
    exact ⟨hfinite greatestWord (isFinite_of_between hlow hhigh hge hlt), hlt⟩
  · rintro ⟨hwidth, hlt⟩ g
    refine ⟨_, range_eq h g, hlower g.output hwidth, ?_⟩
    rw [(denotes_rescaled ha hb hab hwidth greatestWord).lt_iff hb] at hlt
    rw [(denotes_rescaled ha hb hab hwidth g.output).lt_iff hb]
    have hword : (unit g.output : Rat) ≤ unit greatestWord := by
      rw [unit_greatestWord]
      exact unit_le g.output
    exact (rescaled_mono hab hword).trans_lt hlt

theorem range_within_middleHalf :
    (∀ g : Xoshiro, ∃ v : Float, range 0.25 0.75 g = .ok (v, g.advance) ∧ 0.25 ≤ v ∧ v ≤ 0.75) ∧
    ¬ ∀ g : Xoshiro, ∃ v : Float,
      range 0.25 0.75 g = .ok (v, g.advance) ∧ 0.25 ≤ v ∧ v < 0.75 := by
  obtain ⟨hclosed, hopen⟩ := range_within 0.25 0.75 (by decide) (by decide) (by decide)
  constructor
  · intro g
    obtain ⟨v, hv, hbounds, -⟩ := hclosed g
    exact ⟨v, hv, hbounds (by decide)⟩
  · intro hall
    exact absurd (hopen.mp hall).2 (by decide)

/-- Between two neighbouring doubles the draw of an ordinary seed is the upper bound. -/
theorem not_range_below_high :
    ¬ ∀ (low high : Float) (g : Xoshiro), low.isFinite → high.isFinite → low < high →
      ∃ v, range low high g = .ok (v, g.advance) ∧ low ≤ v ∧ v < high := by
  intro hall
  have hreached : range (Float.ofBits 0x3ff0000000000000) (Float.ofBits 0x3ff0000000000001)
      (ofSeed 1) = .ok (Float.ofBits 0x3ff0000000000001, (ofSeed 1).advance) := by
    rfl
  obtain ⟨v, hv, -, hlt⟩ := hall (Float.ofBits 0x3ff0000000000000) (Float.ofBits 0x3ff0000000000001)
    (ofSeed 1) (by decide) (by decide) (by decide)
  rw [hreached] at hv
  obtain rfl := congrArg Prod.fst (Except.ok.inj hv)
  exact absurd hlt (by decide)

end Xoshiro
end ChordGrammar
