import Mathlib.Logic.Function.Basic
import ChordGrammar.Random.Xoshiro

/-!
# Generator states

Nothing that happens to a generator loses information. A word xored with a shifted copy of itself
is folded; folding twice is folding with twice the shift, so the fourth fold by 16 bits or more
gives the word back. Rotations and odd factors can be undone too, so a seed can be computed from its
state, and a state from the one that follows it. Generators in different states therefore stay in
different states.
-/
namespace ChordGrammar.Xoshiro

/-! ## Folded words -/

theorem toNat_mod_sixtyFour {n : UInt64} (hn : n.toNat < 64) :
    (n.toBitVec % 64).toNat = n.toNat := Nat.mod_eq_of_lt hn

/-- A shift of words by so many bits that four of them leave nothing. -/
structure WideShift where
  shift : UInt64 → UInt64
  shift_xor : ∀ x y, shift (x ^^^ y) = shift x ^^^ shift y
  shift_four : ∀ x, shift (shift (shift (shift x))) = 0

namespace WideShift

def down (n : UInt64) (hn : 16 ≤ n.toNat ∧ n.toNat < 64) : WideShift where
  shift x := x >>> n
  shift_xor _ _ := UInt64.shiftRight_xor
  shift_four x := by
    rw [← UInt64.toBitVec_inj]
    simp only [UInt64.toBitVec_shiftRight, BitVec.ushiftRight_eq', toNat_mod_sixtyFour hn.2,
      ← BitVec.shiftRight_add]
    exact BitVec.ushiftRight_eq_zero (by omega)

def up (n : UInt64) (hn : 16 ≤ n.toNat ∧ n.toNat < 64) : WideShift where
  shift x := x <<< n
  shift_xor _ _ := UInt64.shiftLeft_xor
  shift_four x := by
    rw [← UInt64.toBitVec_inj]
    simp only [UInt64.toBitVec_shiftLeft, BitVec.shiftLeft_eq', toNat_mod_sixtyFour hn.2,
      ← BitVec.shiftLeft_add]
    exact BitVec.shiftLeft_eq_zero (by omega)

variable (s : WideShift)

/-- A word xored with its shifted copy. -/
def fold (x : UInt64) : UInt64 := x ^^^ s.shift x

/-- Three more folds undo one. -/
def unfold (x : UInt64) : UInt64 := s.fold (s.fold (s.fold x))

theorem fold_fold (x : UInt64) : s.fold (s.fold x) = x ^^^ s.shift (s.shift x) := by
  calc s.fold (s.fold x)
    _ = x ^^^ s.shift x ^^^ (s.shift x ^^^ s.shift (s.shift x)) := by
      rw [fold, fold, s.shift_xor]
    _ = x ^^^ (s.shift x ^^^ s.shift x) ^^^ s.shift (s.shift x) := by ac_rfl
    _ = x ^^^ s.shift (s.shift x) := by rw [UInt64.xor_self, UInt64.xor_zero]

theorem unfold_fold (x : UInt64) : s.unfold (s.fold x) = x := by
  let moved : UInt64 := s.shift (s.shift x)
  have hmoved : s.shift (s.shift (x ^^^ moved)) = moved ^^^ 0 := by
    rw [s.shift_xor, s.shift_xor, s.shift_four]
  calc s.unfold (s.fold x)
    _ = s.fold (s.fold (x ^^^ moved)) := by rw [unfold, s.fold_fold x]
    _ = x ^^^ moved ^^^ (moved ^^^ 0) := by rw [fold_fold, hmoved]
    _ = x ^^^ (moved ^^^ moved) ^^^ 0 := by ac_rfl
    _ = x := by rw [UInt64.xor_self, UInt64.xor_zero, UInt64.xor_zero]

theorem fold_unfold (x : UInt64) : s.fold (s.unfold x) = x := s.unfold_fold x

theorem fold_injective : Function.Injective s.fold := Function.LeftInverse.injective s.unfold_fold

end WideShift

/-! ## Seeds -/

theorem mul_right_injective {c inverse : UInt64} (h : c * inverse = 1) :
    Function.Injective fun x : UInt64 => x * c := by
  intro x y hxy
  have hback : x * c * inverse = y * c * inverse := congrArg (· * inverse) hxy
  rwa [UInt64.mul_assoc, UInt64.mul_assoc, h, UInt64.mul_one, UInt64.mul_one] at hback

theorem scramble_injective : Function.Injective scramble := by
  have hfirst : (0xbf58476d1ce4e5b9 : UInt64) * 0x96de1b173f119089 = 1 := by decide
  have hsecond : (0x94d049bb133111eb : UInt64) * 0x319642b2d24d8ec3 = 1 := by decide
  intro x y h
  have hlast := (WideShift.down 31 (by decide)).fold_injective h
  have hmiddle := (WideShift.down 27 (by decide)).fold_injective (mul_right_injective hsecond hlast)
  exact (WideShift.down 30 (by decide)).fold_injective (mul_right_injective hfirst hmiddle)

theorem ofSeed_injective : Function.Injective ofSeed := by
  intro seed seed' h
  have hs0 : scramble (seed + seedStep) = scramble (seed' + seedStep) := congrArg s0 h
  exact (UInt64.add_left_inj seedStep).1 (scramble_injective hs0)

/-! ## Steps -/

theorem toBitVec_rotate (x : UInt64) {n : UInt64} (hn : 0 < n.toNat ∧ n.toNat < 64) :
    (rotate x n).toBitVec = x.toBitVec.rotateLeft n.toNat := by
  have hle : n ≤ 64 := UInt64.le_iff_toNat_le.2 (Nat.le_of_lt hn.2)
  have hback : (64 - n).toNat = 64 - n.toNat := UInt64.toNat_sub_of_le 64 n hle
  have hback_lt : (64 - n).toNat < 64 := by omega
  rw [rotate, BitVec.rotateLeft_def, Nat.mod_eq_of_lt hn.2, UInt64.toBitVec_or,
    UInt64.toBitVec_shiftLeft, UInt64.toBitVec_shiftRight, BitVec.shiftLeft_eq',
    BitVec.ushiftRight_eq', toNat_mod_sixtyFour hn.2, toNat_mod_sixtyFour hback_lt, hback]

/-- Two rotations that go all the way round together. -/
theorem rotateLeft_rotateLeft (x : BitVec 64) {m n : Nat} (hm : 0 < m) (hn : 0 < n)
    (h : m + n = 64) : (x.rotateLeft m).rotateLeft n = x := by
  have hm_mod : m % 64 = m := Nat.mod_eq_of_lt (by omega)
  have hn_mod : n % 64 = n := Nat.mod_eq_of_lt (by omega)
  apply BitVec.eq_of_getLsbD_eq
  intro i hi
  -- The lowest `n` bits went round in the second rotation, the others in the first.
  by_cases hlow : i < n
  · have hhigh : ¬64 - n + i < m := by omega
    have hlt : 64 - n + i < 64 := by omega
    have hplace : 64 - n + i - m = i := by omega
    simp only [BitVec.getLsbD_rotateLeft, hm_mod, hn_mod, hlow, hhigh, hlt, hplace, decide_true,
      decide_false, cond_true, cond_false, Bool.true_and]
  · have hround : i - n < m := by omega
    have hplace : 64 - m + (i - n) = i := by omega
    simp only [BitVec.getLsbD_rotateLeft, hm_mod, hn_mod, hlow, hround, hi, hplace, decide_true,
      decide_false, cond_true, cond_false, Bool.true_and]

theorem rotate_rotate (x : UInt64) {m n : UInt64} (hm : 0 < m.toNat) (hn : 0 < n.toNat)
    (h : m.toNat + n.toNat = 64) : rotate (rotate x m) n = x := by
  rw [← UInt64.toBitVec_inj, toBitVec_rotate _ ⟨hn, by omega⟩, toBitVec_rotate _ ⟨hm, by omega⟩,
    rotateLeft_rotateLeft _ hm hn h]

/-- The shift in a step. The two words that it takes part in, xored, are one of them folded. -/
def stepShift : WideShift := .up 17 (by decide)

/-- The state before the last word was handed out. -/
def retreat (g : Xoshiro) : Xoshiro :=
  let s3 := rotate g.s3 19
  let s0 := g.s0 ^^^ s3
  let s1 := stepShift.unfold (g.s1 ^^^ g.s2)
  { s0 := s0, s1 := s1, s2 := g.s1 ^^^ s1 ^^^ s0, s3 := s3 ^^^ s1 }

theorem xor_xor_cancel (x y : UInt64) : x ^^^ y ^^^ y = x := by
  rw [UInt64.xor_assoc, UInt64.xor_self, UInt64.xor_zero]

theorem xor_xor_xor_cancel (x y z : UInt64) : x ^^^ y ^^^ (y ^^^ z) = x ^^^ z := by
  rw [← UInt64.xor_assoc, xor_xor_cancel]

theorem retreat_advance (g : Xoshiro) : g.advance.retreat = g := by
  have hs3 : rotate g.advance.s3 19 = g.s3 ^^^ g.s1 :=
    rotate_rotate _ (by decide) (by decide) (by decide)
  have hs0 : g.advance.s0 ^^^ (g.s3 ^^^ g.s1) = g.s0 := xor_xor_cancel g.s0 (g.s3 ^^^ g.s1)
  have hfold : g.advance.s1 ^^^ g.advance.s2 = stepShift.fold g.s1 :=
    xor_xor_xor_cancel g.s1 (g.s2 ^^^ g.s0) (g.s1 <<< 17)
  have hs1 : stepShift.unfold (g.advance.s1 ^^^ g.advance.s2) = g.s1 := by
    rw [hfold, WideShift.unfold_fold]
  have hs2 : g.advance.s1 ^^^ g.s1 ^^^ g.s0 = g.s2 := by
    rw [advance, UInt64.xor_comm g.s1, xor_xor_cancel, xor_xor_cancel]
  simp only [retreat, hs3, hs0, hs1, hs2, xor_xor_cancel]

theorem advance_retreat (g : Xoshiro) : g.retreat.advance = g := by
  have hs3 : g.retreat.s3 ^^^ g.retreat.s1 = rotate g.s3 19 :=
    xor_xor_cancel (rotate g.s3 19) g.retreat.s1
  have hs0 : g.retreat.s0 ^^^ rotate g.s3 19 = g.s0 := xor_xor_cancel g.s0 (rotate g.s3 19)
  have hs2 : g.retreat.s2 ^^^ g.retreat.s0 = g.s1 ^^^ g.retreat.s1 :=
    xor_xor_cancel (g.s1 ^^^ g.retreat.s1) g.retreat.s0
  have hs1 : g.retreat.s1 ^^^ (g.s1 ^^^ g.retreat.s1) = g.s1 := by
    rw [UInt64.xor_comm, xor_xor_cancel]
  have hfold : g.retreat.s1 ^^^ (g.retreat.s1 <<< 17) = g.s1 ^^^ g.s2 :=
    stepShift.fold_unfold (g.s1 ^^^ g.s2)
  have hshifted : g.s1 ^^^ g.retreat.s1 ^^^ (g.retreat.s1 <<< 17) = g.s2 := by
    rw [UInt64.xor_assoc, hfold, ← UInt64.xor_assoc, UInt64.xor_self, UInt64.zero_xor]
  have hrotate : rotate (rotate g.s3 19) 45 = g.s3 :=
    rotate_rotate g.s3 (by decide) (by decide) (by decide)
  simp only [advance, hs3, hs0, hs2, hs1, hshifted, hrotate]

theorem advance_injective : Function.Injective advance :=
  Function.LeftInverse.injective retreat_advance

theorem advance_surjective : Function.Surjective advance :=
  Function.RightInverse.surjective advance_retreat

/-! ## Runs -/

theorem skip_injective (n : Nat) : Function.Injective (skip n) := by
  induction n with
  | zero => exact Function.injective_id
  | succ n ih => exact ih.comp advance_injective

/-- Draws leave a generator where as many words do. -/
theorem drawMany_snd {R : Type} [Scalar R] (n : Nat) (g : Xoshiro) :
    (drawMany n g : List R × Xoshiro).2 = skip n g := by
  induction n generalizing g with
  | zero => rfl
  | succ n ih => exact ih g.advance

/-- Generators never merge: a step is a bijection and the state of a seed is that of no other seed,
so after equally many words or draws, two different states or seeds have led to two different
states. -/
theorem states_never_merge {R : Type} [Scalar R] :
    Function.Bijective (fun g : Xoshiro => g.next.2) ∧
    Function.Injective ofSeed ∧
    (∀ n, Function.Injective (skip n)) ∧
    (∀ n, Function.Injective fun seed => skip n (ofSeed seed)) ∧
    ∀ n g, (drawMany n g : List R × Xoshiro).2 = skip n g := by
  refine ⟨⟨advance_injective, advance_surjective⟩, ofSeed_injective, skip_injective, ?_, ?_⟩
  · exact fun n => (skip_injective n).comp ofSeed_injective
  · exact drawMany_snd

/-! ## The state of four zeros -/

/-- The state of four zeros, which every step leaves as it is. -/
def still : Xoshiro := ⟨0, 0, 0, 0⟩

theorem advance_still : still.advance = still := by decide

theorem skip_still (n : Nat) : skip n still = still := by
  induction n with
  | zero => rfl
  | succ n ih => rw [skip, advance_still, ih]

/-- The first two words of a seeded state are different, so they are not both zero. -/
theorem ofSeed_ne_still (seed : UInt64) : ofSeed seed ≠ still := by
  intro h
  have hwords : scramble (seed + seedStep) = scramble (seed + seedStep + seedStep) :=
    (congrArg s0 h).trans (congrArg s1 h).symm
  have hstep : seedStep = 0 := UInt64.left_eq_add.1 (scramble_injective hwords)
  exact absurd hstep (by decide)

end ChordGrammar.Xoshiro
