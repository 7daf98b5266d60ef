import Mathlib.Data.FinEnum
import Mathlib.Dynamics.PeriodicPts.Defs
import Mathlib.NumberTheory.LucasPrimality
import Mathlib.SetTheory.Cardinal.NatCard
import Mathlib.Tactic.NormNum.Prime
import Mathlib.Tactic.ReduceModChar
import ChordGrammar.Proofs.StepPolynomials

/-!
# The cycle of generator states

One state comes back after `2 ^ 256 - 1` steps, but not after that number divided by one of its
prime factors. There are just as many states besides that of four zeros, so these all lie on one
cycle, and the state of four zeros is the only one that hands out nothing but zeros. A seeded
generator is never in it.
-/
namespace ChordGrammar.Xoshiro

open Function (minimalPeriod)

/-! ## Prime factors

Three of the prime factors are too large for trial division. They pass Lucas's test, and so do the
large primes that this test needs.
-/

/-- Lucas's test, with the primes of which `p - 1` is made up as a list. -/
theorem prime_of_lucas {p : Nat} (root : ZMod p) (qs : List Nat) (hqs : qs.Forall Nat.Prime)
    (k : Nat) (hfactors : p - 1 ∣ qs.prod ^ k)
    (horder : root ^ (p - 1) = 1 ∧ qs.Forall fun q => root ^ ((p - 1) / q) ≠ 1) : p.Prime := by
  rw [List.forall_iff_forall_mem] at hqs horder
  refine lucas_primality p root horder.1 fun q hq hdvd => ?_
  have hprod : q ∣ qs.prod := hq.dvd_of_dvd_pow (hdvd.trans hfactors)
  obtain ⟨r, hr, hqr⟩ := (Prime.dvd_prod_iff hq.prime).mp hprod
  rw [(Nat.prime_dvd_prime_iff_eq hq (hqs r hr)).mp hqr]
  exact horder.2 r hr

theorem prime_55515497 : Nat.Prime 55515497 :=
  prime_of_lucas 3 [2, 6939437]
    ⟨by norm_num, by norm_num⟩ 3 (by norm_num)
    (by norm_num; reduce_mod_char; decide)

theorem prime_733803839347 : Nat.Prime 733803839347 :=
  prime_of_lucas 2 [2, 3, 2203, 55515497]
    ⟨by norm_num, by norm_num, by norm_num, prime_55515497⟩ 1 (by norm_num)
    (by norm_num; reduce_mod_char; decide)

theorem prime_5704689200685129054721 : Nat.Prime 5704689200685129054721 :=
  prime_of_lucas 21 [2, 3, 5, 12497, 733803839347]
    ⟨by norm_num, by norm_num, by norm_num, by norm_num, prime_733803839347⟩ 9 (by norm_num)
    (by norm_num; reduce_mod_char; decide)

theorem prime_18533742247 : Nat.Prime 18533742247 :=
  prime_of_lucas 6 [2, 3, 181, 1896229]
    ⟨by norm_num, by norm_num, by norm_num, by norm_num⟩ 3 (by norm_num)
    (by norm_num; reduce_mod_char; decide)

theorem prime_116503103764643 : Nat.Prime 116503103764643 :=
  prime_of_lucas 2 [2, 7, 449, 18533742247]
    ⟨by norm_num, by norm_num, by norm_num, prime_18533742247⟩ 1 (by norm_num)
    (by norm_num; reduce_mod_char; decide)

theorem prime_59649589127497217 : Nat.Prime 59649589127497217 :=
  prime_of_lucas 3 [2, 116503103764643]
    ⟨by norm_num, prime_116503103764643⟩ 9 (by norm_num)
    (by norm_num; reduce_mod_char; decide)

theorem prime_67280421310721 : Nat.Prime 67280421310721 :=
  prime_of_lucas 3 [2, 5, 47, 373, 2998279]
    ⟨by norm_num, by norm_num, by norm_num, by norm_num, by norm_num⟩ 8 (by norm_num)
    (by norm_num; reduce_mod_char; decide)

/-- The prime factors of `2 ^ 256 - 1`. -/
def periodFactors : List Nat :=
  [ 5704689200685129054721, 59649589127497217, 67280421310721, 6700417, 274177, 65537, 641, 257, 17,
    5, 3 ]

theorem prod_periodFactors : periodFactors.prod = 2 ^ 256 - 1 := by decide +kernel

theorem prime_of_mem {q : Nat} (hq : q ∈ periodFactors) : q.Prime := by
  have hall : periodFactors.Forall Nat.Prime :=
    ⟨prime_5704689200685129054721, prime_59649589127497217, prime_67280421310721, by norm_num,
      by norm_num, by norm_num, by norm_num, by norm_num, by norm_num, by norm_num, by norm_num⟩
  exact List.forall_iff_forall_mem.mp hall q hq

/-! ## The period of one state -/

/-- The state of a single bit. -/
def spark : Xoshiro := ⟨1, 0, 0, 0⟩

theorem recurs_spark : Recurs spark := by
  rw [Recurs]
  decide +kernel

theorem act_two : act 2 = advance := by
  funext g
  exact (act_two_mul 1 g).trans (act_one g.advance)

/-- The inverse of what the test makes of the variable, which is the polynomial 2. -/
def testInverse : Nat := 0x25d5914d9897871aa5904d712601f8efe441a1f47f4af4b2c1f272a2002afdba

theorem testInverse_times : times testInverse (orderTest 2 periodFactors) = 1 := by decide +kernel

theorem orderTest_spark : act (orderTest 2 periodFactors) spark ≠ still := by
  intro hstill
  have hone : act (times testInverse (orderTest 2 periodFactors)) spark = spark := by
    rw [testInverse_times, act_one]
  rw [act_times recurs_spark, hstill, act_still] at hone
  exact absurd hone (by decide)

theorem spark_returns : advance^[2 ^ 256 - 1] spark = spark ∧
    ∀ q ∈ periodFactors, advance^[(2 ^ 256 - 1) / q] spark ≠ spark := by
  have htest := of_orderTest recurs_spark (fun q hq => (prime_of_mem hq).pos) orderTest_spark
  rwa [prod_periodFactors, act_two] at htest

theorem minimalPeriod_spark : minimalPeriod advance spark = 2 ^ 256 - 1 := by
  have hdvd : minimalPeriod advance spark ∣ 2 ^ 256 - 1 :=
    Function.IsPeriodicPt.minimalPeriod_dvd spark_returns.1
  obtain ⟨m, hm⟩ := hdvd
  by_contra hne
  have hm_ne : m ≠ 1 := by
    rintro rfl
    exact hne (by rw [hm, Nat.mul_one])
  -- A prime factor of what is missing is one of the factors, and leaving it out is still a period.
  obtain ⟨q, hq, k, rfl⟩ := Nat.exists_prime_and_dvd hm_ne
  have hq_dvd : q ∣ periodFactors.prod := by
    rw [prod_periodFactors, hm]
    exact Dvd.intro_left (minimalPeriod advance spark * k) (by ring)
  obtain ⟨r, hr, hqr⟩ := (Prime.dvd_prod_iff hq.prime).mp hq_dvd
  obtain rfl : q = r := (Nat.prime_dvd_prime_iff_eq hq (prime_of_mem hr)).mp hqr
  have hquotient : (2 ^ 256 - 1) / q = minimalPeriod advance spark * k :=
    Nat.div_eq_of_eq_mul_left hq.pos (by rw [hm]; ring)
  apply spark_returns.2 q hr
  rw [hquotient]
  exact (Function.isPeriodicPt_minimalPeriod advance spark).mul_const k

/-! ## All states -/

/-- The four words of a state. -/
def fourWords : Xoshiro ≃ UInt64 × UInt64 × UInt64 × UInt64 where
  toFun g := (g.s0, g.s1, g.s2, g.s3)
  invFun w := ⟨w.1, w.2.1, w.2.2.1, w.2.2.2⟩
  left_inv _ := rfl
  right_inv _ := rfl

instance : Finite Xoshiro := .of_equiv _ fourWords.symm

theorem card_states : Nat.card Xoshiro = 2 ^ 256 := by
  have hword : Nat.card UInt64 = 2 ^ 64 := Nat.card_eq_of_equiv_fin FinEnum.equiv
  rw [Nat.card_congr fourWords, Nat.card_prod, Nat.card_prod, Nat.card_prod, hword]
  norm_num

theorem skip_eq_iterate (n : Nat) : skip n = advance^[n] := by
  induction n with
  | zero => rfl
  | succ n ih =>
    funext g
    rw [skip, ih, Function.iterate_succ_apply]

theorem skip_eq_still_iff {n : Nat} {g : Xoshiro} : skip n g = still ↔ g = still := by
  constructor
  · intro h
    exact skip_injective n (h.trans (skip_still n).symm)
  · rintro rfl
    exact skip_still n

/-- A cycle with as many states as there are besides the zero state leaves none of them out. -/
theorem exists_skip_of_period {g : Xoshiro} (hg : g ≠ still) {period : Nat}
    (hperiod : minimalPeriod advance g = period) (hcard : Nat.card Xoshiro = period + 1)
    {h : Xoshiro} (hh : h ≠ still) : ∃ n < period, skip n g = h := by
  let visit : Option (Fin period) → Xoshiro := fun n => n.elim still fun n => skip n g
  have hvisit : Function.Injective visit := by
    rintro (_ | m) (_ | n) hmn
    · rfl
    · exact absurd (skip_eq_still_iff.mp hmn.symm) hg
    · exact absurd (skip_eq_still_iff.mp hmn) hg
    · have hmn : advance^[m] g = advance^[n] g := by rwa [← skip_eq_iterate, ← skip_eq_iterate]
      have hm : m.val < minimalPeriod advance g := by rw [hperiod]; exact m.isLt
      have hn : n.val < minimalPeriod advance g := by rw [hperiod]; exact n.isLt
      rw [Function.iterate_eq_iterate_iff_of_lt_minimalPeriod hm hn] at hmn
      rw [Fin.ext hmn]
  have hcard_le : Nat.card Xoshiro ≤ Nat.card (Option (Fin period)) := by
    rw [hcard, Finite.card_option, Nat.card_fin]
  obtain ⟨n, hn⟩ := (hvisit.bijective_of_nat_card_le hcard_le).surjective h
  cases n with
  | none => exact absurd hn.symm hh
  | some n => exact ⟨n, n.isLt, hn⟩

/-- Every state but the zero state comes back after `2 ^ 256 - 1` steps, and no sooner. -/
theorem minimalPeriod_of_ne_still {g : Xoshiro} (hg : g ≠ still) :
    minimalPeriod advance g = 2 ^ 256 - 1 := by
  have hspark : spark ≠ still := by decide
  have hcard : Nat.card Xoshiro = 2 ^ 256 - 1 + 1 := card_states
  obtain ⟨n, -, rfl⟩ := exists_skip_of_period hspark minimalPeriod_spark hcard hg
  have hperiodic : spark ∈ Function.periodicPts advance :=
    Function.minimalPeriod_pos_iff_mem_periodicPts.mp (by rw [minimalPeriod_spark]; decide)
  rw [skip_eq_iterate, Function.minimalPeriod_apply_iterate hperiodic, minimalPeriod_spark]

/-- All states but the zero state lie on one cycle: from each of them each is reached, in fewer than
`2 ^ 256 - 1` steps. -/
theorem exists_skip_eq {g h : Xoshiro} (hg : g ≠ still) (hh : h ≠ still) :
    ∃ n < 2 ^ 256 - 1, skip n g = h :=
  exists_skip_of_period hg (minimalPeriod_of_ne_still hg) card_states hh

/-- Only the zero state hands out nothing but zeros. -/
theorem eq_still_of_output_eq_zero {g : Xoshiro} (h : ∀ n, (skip n g).output = 0) : g = still := by
  by_contra hg
  obtain ⟨n, -, hn⟩ := exists_skip_eq hg (show spark ≠ still by decide)
  have hspark : spark.output = 0 := by rw [← hn, h n]
  exact absurd hspark (by decide)

/-- A seeded generator never degenerates: its state is never that of four zeros, the only one from
which every word is zero. -/
theorem skip_ofSeed_ne_still :
    (∀ g : Xoshiro, (∀ n, (skip n g).output = 0) ↔ g = still) ∧
      ∀ seed n, skip n (ofSeed seed) ≠ still := by
  refine ⟨fun g => ⟨eq_still_of_output_eq_zero, ?_⟩, fun seed n h => ?_⟩
  · rintro rfl n
    rw [skip_still]
    decide
  · exact ofSeed_ne_still seed (skip_eq_still_iff.mp h)

end ChordGrammar.Xoshiro
