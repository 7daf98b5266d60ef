import Mathlib.Algebra.BigOperators.Group.List.Lemmas
import Mathlib.Data.Nat.Bitwise
import ChordGrammar.Proofs.GeneratorStates

/-!
# Polynomials in a step

A step only moves bits and xors them, so it keeps xors of states. A polynomial over the field of two
elements therefore acts on states, with a step in the place of its variable. It is kept as the
natural number whose bits are its coefficients. On a state that some polynomial of degree 256 takes
to the state of four zeros, it is enough to calculate modulo that polynomial, and whether the state
comes back after a number of steps, but not after parts of it, becomes a calculation too.
-/
namespace ChordGrammar.Xoshiro

/-! ## Xored states -/

/-- The words of two states, xored. -/
def xor (g h : Xoshiro) : Xoshiro where
  s0 := g.s0 ^^^ h.s0
  s1 := g.s1 ^^^ h.s1
  s2 := g.s2 ^^^ h.s2
  s3 := g.s3 ^^^ h.s3

theorem still_xor (g : Xoshiro) : still.xor g = g := by
  simp only [xor, still, UInt64.zero_xor]

theorem xor_still (g : Xoshiro) : g.xor still = g := by
  simp only [xor, still, UInt64.xor_zero]

theorem xor_self (g : Xoshiro) : g.xor g = still := by
  simp only [xor, still, UInt64.xor_self]

theorem rotateLeft_xor {w : Nat} (x y : BitVec w) (n : Nat) :
    (x ^^^ y).rotateLeft n = x.rotateLeft n ^^^ y.rotateLeft n := by
  apply BitVec.eq_of_getLsbD_eq
  intro i hi
  by_cases hround : i < n % w
  · simp only [BitVec.getLsbD_xor, BitVec.getLsbD_rotateLeft, hround, decide_true, cond_true]
  · simp only [BitVec.getLsbD_xor, BitVec.getLsbD_rotateLeft, hround, hi, decide_true,
      decide_false, cond_false, Bool.true_and]

theorem rotate_xor (x y : UInt64) {n : UInt64} (hn : 0 < n.toNat ∧ n.toNat < 64) :
    rotate (x ^^^ y) n = rotate x n ^^^ rotate y n := by
  rw [← UInt64.toBitVec_inj, UInt64.toBitVec_xor, toBitVec_rotate _ hn, toBitVec_rotate _ hn,
    toBitVec_rotate _ hn, UInt64.toBitVec_xor, rotateLeft_xor]

theorem words_comm (a b c d : UInt64) : a ^^^ b ^^^ (c ^^^ d) = a ^^^ c ^^^ (b ^^^ d) := by ac_rfl

theorem xor_xor_comm (g h g' h' : Xoshiro) :
    (g.xor h).xor (g'.xor h') = (g.xor g').xor (h.xor h') := by
  change Xoshiro.mk _ _ _ _ = Xoshiro.mk _ _ _ _
  congr 1 <;> exact words_comm _ _ _ _

theorem advance_xor (g h : Xoshiro) : (g.xor h).advance = g.advance.xor h.advance := by
  have hs2 : g.s2 ^^^ h.s2 ^^^ (g.s0 ^^^ h.s0) = g.s2 ^^^ g.s0 ^^^ (h.s2 ^^^ h.s0) :=
    words_comm g.s2 h.s2 g.s0 h.s0
  have hs3 : g.s3 ^^^ h.s3 ^^^ (g.s1 ^^^ h.s1) = g.s3 ^^^ g.s1 ^^^ (h.s3 ^^^ h.s1) :=
    words_comm g.s3 h.s3 g.s1 h.s1
  change Xoshiro.mk _ _ _ _ = Xoshiro.mk _ _ _ _
  congr 1
  · change g.s0 ^^^ h.s0 ^^^ (g.s3 ^^^ h.s3 ^^^ (g.s1 ^^^ h.s1)) = _
    rw [hs3, words_comm g.s0]
    rfl
  · change g.s1 ^^^ h.s1 ^^^ (g.s2 ^^^ h.s2 ^^^ (g.s0 ^^^ h.s0)) = _
    rw [hs2, words_comm g.s1]
    rfl
  · change g.s2 ^^^ h.s2 ^^^ (g.s0 ^^^ h.s0) ^^^ ((g.s1 ^^^ h.s1) <<< 17) = _
    rw [hs2, UInt64.shiftLeft_xor, words_comm (g.s2 ^^^ g.s0)]
    rfl
  · change rotate (g.s3 ^^^ h.s3 ^^^ (g.s1 ^^^ h.s1)) 45 = _
    rw [hs3, rotate_xor _ _ (by decide)]
    rfl

/-! ## Polynomials at work on states -/

/-- What a polynomial makes of a state, with a step for the variable: the state as it is, if the
lowest bit of `a` is set, xored with what the other bits make of the next state. -/
def act (a : Nat) (g : Xoshiro) : Xoshiro :=
  if a = 0 then still else xor (if a % 2 = 1 then g else still) (act (a / 2) g.advance)

theorem act_zero (g : Xoshiro) : act 0 g = still := by
  rw [act, if_pos rfl]

/-- One bit at work. -/
theorem act_eq (a : Nat) (g : Xoshiro) :
    act a g = xor (if a % 2 = 1 then g else still) (act (a / 2) g.advance) := by
  by_cases ha : a = 0
  · subst ha
    rw [act_zero, Nat.zero_div, act_zero, if_neg (by decide), still_xor]
  · rw [act, if_neg ha]

theorem act_one (g : Xoshiro) : act 1 g = g := by
  rw [act_eq, if_pos rfl, act_zero, xor_still]

theorem act_two_mul (a : Nat) (g : Xoshiro) : act (2 * a) g = act a g.advance := by
  rw [act_eq, if_neg (by omega), Nat.mul_div_cancel_left a (by decide), still_xor]

theorem act_mod_two_mul (a b : Nat) (g : Xoshiro) :
    act (a % 2 * b) g = if a % 2 = 1 then act b g else still := by
  split_ifs with ha
  · rw [ha, Nat.one_mul]
  · rw [Nat.mod_two_ne_one.mp ha, Nat.zero_mul, act_zero]

theorem act_xor (a b : Nat) (g : Xoshiro) : act (a ^^^ b) g = (act a g).xor (act b g) := by
  induction a, g using act.induct generalizing b with
  | case1 g => rw [Nat.zero_xor, act_zero, still_xor]
  | case2 a g _ ih =>
    have hbit : (if (a ^^^ b) % 2 = 1 then g else still) =
        (if a % 2 = 1 then g else still).xor (if b % 2 = 1 then g else still) := by
      rw [Nat.xor_mod_two_eq]
      rcases Nat.mod_two_eq_zero_or_one a with ha | ha <;>
        rcases Nat.mod_two_eq_zero_or_one b with hb | hb <;>
        simp [Nat.add_mod, ha, hb, xor_self, xor_still, still_xor]
    rw [act_eq, hbit, Nat.xor_div_two, ih, xor_xor_comm, ← act_eq, ← act_eq]

theorem act_still (a : Nat) : act a still = still := by
  induction a using Nat.strong_induction_on with
  | h a ih =>
    by_cases ha : a = 0
    · rw [ha, act_zero]
    · rw [act_eq, advance_still, ih (a / 2) (by omega), ite_self, xor_still]

theorem advance_act (a : Nat) (g : Xoshiro) : (act a g).advance = act a g.advance := by
  induction a, g using act.induct with
  | case1 g => rw [act_zero, act_zero, advance_still]
  | case2 a g _ ih =>
    rw [act_eq, advance_xor, ih, act_eq a g.advance, apply_ite advance, advance_still]

theorem act_xor_states (a : Nat) (g h : Xoshiro) :
    act a (g.xor h) = (act a g).xor (act a h) := by
  induction a, g using act.induct generalizing h with
  | case1 g => rw [act_zero, act_zero, act_zero, xor_still]
  | case2 a g _ ih =>
    have hbit : (if a % 2 = 1 then g.xor h else still) =
        (if a % 2 = 1 then g else still).xor (if a % 2 = 1 then h else still) := by
      split_ifs
      · rfl
      · rw [xor_still]
    rw [act_eq, hbit, advance_xor, ih, xor_xor_comm, ← act_eq, ← act_eq]

theorem act_comm (a b : Nat) (g : Xoshiro) : act a (act b g) = act b (act a g) := by
  induction a, g using act.induct with
  | case1 g => rw [act_zero, act_zero, act_still]
  | case2 a g _ ih =>
    have hbit : (if a % 2 = 1 then act b g else still) =
        act b (if a % 2 = 1 then g else still) := by
      rw [apply_ite (act b), act_still]
    rw [act_eq, hbit, advance_act, ih, ← act_xor_states, ← act_eq]

/-! ## Calculating with polynomials -/

/-- The characteristic polynomial of a step. -/
def modulus : Nat := 0x10003c03c3f3ecb1904b4edcf26259f850280002bcefd1a5e9d116f2bb0f0f001

/-- The state keeps the recurrence of the modulus, and so does every state that comes from it. -/
def Recurs (g : Xoshiro) : Prop := act modulus g = still

theorem recurs_act {g : Xoshiro} (hg : Recurs g) (a : Nat) : Recurs (act a g) := by
  rw [Recurs, act_comm, hg, act_still]

-- The next two functions name the operations of `Nat` themselves, and the second its recursor,
-- because the kernel evaluates these at once.

/-- The polynomial times the variable, reduced by the modulus. -/
def timesX (a : Nat) : Nat :=
  Nat.xor (Nat.mul 2 a) (Nat.mul (Nat.mod (Nat.shiftRight a 255) 2) modulus)

/-- The product of two polynomials, the first of which has at most `n` bits. -/
def timesUpTo (n : Nat) : Nat → Nat → Nat :=
  Nat.rec (fun _ _ => 0)
    (fun _ product a b => Nat.xor (Nat.mul (Nat.mod a 2) b) (product (Nat.div a 2) (timesX b))) n

def times (a b : Nat) : Nat := timesUpTo (a.log2 + 1) a b

theorem act_timesX {g : Xoshiro} (hg : Recurs g) (a : Nat) :
    act (timesX a) g = act a g.advance := by
  have htimesX : timesX a = 2 * a ^^^ ((a >>> 255) % 2 * modulus) := rfl
  have hreduced : act ((a >>> 255) % 2 * modulus) g = still := by
    rw [act_mod_two_mul, hg, ite_self]
  rw [htimesX, act_xor, hreduced, xor_still, act_two_mul]

theorem act_timesUpTo {g : Xoshiro} (hg : Recurs g) {n a : Nat} (ha : a < 2 ^ n) (b : Nat) :
    act (timesUpTo n a b) g = act a (act b g) := by
  induction n generalizing a b with
  | zero =>
    have hzero : a = 0 := by omega
    rw [hzero, act_zero]
    exact act_zero g
  | succ n ih =>
    have hstep : timesUpTo (n + 1) a b = a % 2 * b ^^^ timesUpTo n (a / 2) (timesX b) := rfl
    rw [hstep, act_xor, act_mod_two_mul, ih (by omega), act_timesX hg, ← advance_act, ← act_eq]

theorem act_times {g : Xoshiro} (hg : Recurs g) (a b : Nat) :
    act (times a b) g = act a (act b g) := act_timesUpTo hg Nat.lt_log2_self b

/-- A power of a polynomial, the exponent of which has at most `n` bits. -/
def powUpTo (a : Nat) : Nat → Nat → Nat
  | 0, _ => 1
  | n + 1, k =>
    let root := powUpTo a n (k / 2)
    if k % 2 = 1 then times a (times root root) else times root root

def pow (a k : Nat) : Nat := powUpTo a (k.log2 + 1) k

theorem recurs_iterate {g : Xoshiro} (hg : Recurs g) (a k : Nat) : Recurs ((act a)^[k] g) := by
  induction k generalizing g with
  | zero => exact hg
  | succ k ih => exact ih (recurs_act hg a)

theorem act_powUpTo {g : Xoshiro} (hg : Recurs g) (a : Nat) {n k : Nat} (hk : k < 2 ^ n) :
    act (powUpTo a n k) g = (act a)^[k] g := by
  induction n generalizing g k with
  | zero =>
    have hzero : k = 0 := by omega
    rw [hzero]
    exact act_one g
  | succ n ih =>
    have hhalf : k / 2 < 2 ^ n := by omega
    have hsquare : act (times (powUpTo a n (k / 2)) (powUpTo a n (k / 2))) g =
        (act a)^[k / 2 + k / 2] g := by
      rw [act_times hg, ih hg hhalf, ih (recurs_iterate hg a _) hhalf, Function.iterate_add_apply]
    rw [powUpTo]
    split_ifs with hodd
    · have hk : k = k / 2 + k / 2 + 1 := by omega
      rw [act_times hg, hsquare]
      conv_rhs => rw [hk, Function.iterate_succ_apply']
    · have hk : k = k / 2 + k / 2 := by omega
      rw [hsquare, ← hk]

theorem act_pow {g : Xoshiro} (hg : Recurs g) (a k : Nat) : act (pow a k) g = (act a)^[k] g :=
  act_powUpTo hg a Nat.lt_log2_self

theorem act_pow_iterate {g : Xoshiro} (hg : Recurs g) (a k n : Nat) :
    (act (pow a k))^[n] g = (act a)^[k * n] g := by
  induction n generalizing g with
  | zero => rfl
  | succ n ih =>
    rw [Function.iterate_succ_apply, act_pow hg, ih (recurs_iterate hg a k),
      ← Function.iterate_add_apply, Nat.mul_succ]

/-! ## The order of a polynomial -/

/-- For a polynomial `a` and the product `N` of the factors: the product over the factors `q` of the
differences between `a ^ (N / q)` and 1, unless `a ^ N` itself is not 1. -/
def orderTest (a : Nat) : List Nat → Nat
  | [] => if a = 1 then 1 else 0
  | q :: qs => times (pow a qs.prod ^^^ 1) (orderTest (pow a q) qs)

/-- A state that the test does not take to the zero state comes back after `N` rounds, but not after
`N / q` of them. -/
theorem of_orderTest {g : Xoshiro} (hg : Recurs g) {qs : List Nat} (hqs : ∀ q ∈ qs, 0 < q) {a : Nat}
    (h : act (orderTest a qs) g ≠ still) :
    (act a)^[qs.prod] g = g ∧ ∀ q ∈ qs, (act a)^[qs.prod / q] g ≠ g := by
  induction qs generalizing a with
  | nil =>
    rw [orderTest] at h
    split_ifs at h with ha
    · refine ⟨?_, List.forall_mem_nil _⟩
      rw [ha]
      exact act_one g
    · exact absurd (act_zero g) h
  | cons q qs ih =>
    rw [List.forall_mem_cons] at hqs
    rw [orderTest, act_times hg] at h
    have hrest : act (orderTest (pow a q) qs) g ≠ still := by
      intro hstill
      rw [hstill, act_still] at h
      exact h rfl
    have hdifference : act (pow a qs.prod ^^^ 1) g ≠ still := by
      intro hstill
      rw [act_comm, hstill, act_still] at h
      exact h rfl
    rw [act_xor, act_pow hg, act_one] at hdifference
    obtain ⟨hreturn, hparts⟩ := ih hqs.2 hrest
    rw [act_pow_iterate hg] at hreturn
    refine ⟨by rwa [List.prod_cons], List.forall_mem_cons.mpr ⟨?_, fun q' hq' => ?_⟩⟩
    · rw [List.prod_cons, Nat.mul_div_cancel_left _ hqs.1]
      intro hreturn
      rw [hreturn, xor_self] at hdifference
      exact hdifference rfl
    · have hpart := hparts q' hq'
      rwa [act_pow_iterate hg, ← Nat.mul_div_assoc _ (List.dvd_prod hq'), ← List.prod_cons] at hpart

end ChordGrammar.Xoshiro
