import Mathlib.Algebra.BigOperators.Group.List.Basic
import Mathlib.Algebra.Order.BigOperators.Group.List
import Mathlib.Algebra.Order.Floor.Ring
import Mathlib.Order.Interval.Finset.Nat
import Mathlib.Tactic.Linarith
import ChordGrammar.Grammar.Rule
import ChordGrammar.Proofs.ExactDraws
import ChordGrammar.Proofs.Grafting

/-!
# Selection realises the weights

The rules of a symbol lay their weights end to end from zero: the draws from one running sum up to,
but not including, the next select the rule in between, and the last rule also has whatever lies
beyond. A draw is a number of steps of `2 ^ -53`, so a bucket that ends by one gets as many draws
as there are whole numbers of steps in it, within one of what its weight asks for.
-/
namespace ChordGrammar

variable {S P M : Type}

/-! ## Buckets laid end to end -/

section Buckets

/-- Where the bucket at place `i` starts: the weights before it, summed. -/
def bucketStart (weights : List Rat) (i : Nat) : Rat := (weights.take i).sum

@[simp] theorem bucketStart_zero (weights : List Rat) : bucketStart weights 0 = 0 := by
  simp [bucketStart]

@[simp] theorem bucketStart_cons_succ (w : Rat) (weights : List Rat) (i : Nat) :
    bucketStart (w :: weights) (i + 1) = w + bucketStart weights i := by
  simp [bucketStart]

theorem bucketStart_nonneg {weights : List Rat} (hweights : ∀ w ∈ weights, 0 ≤ w) (i : Nat) :
    0 ≤ bucketStart weights i :=
  List.sum_nonneg fun w hw => hweights w (List.mem_of_mem_take hw)

/-- The draw lies in the bucket at place `i`, from where it starts to below where the next one does.
The last bucket has no upper end. -/
structure InBucket (weights : List Rat) (i : Nat) (x : Rat) : Prop where
  inside : i < weights.length
  lower : bucketStart weights i ≤ x
  upper : i + 1 < weights.length → x < bucketStart weights (i + 1)

variable {weights : List Rat} {i : Nat} {x : Rat}

theorem inBucket_cons_zero (w : Rat) :
    InBucket (w :: weights) 0 x ↔ 0 ≤ x ∧ (weights ≠ [] → x < w) := by
  have hlast : 0 + 1 < (w :: weights).length ↔ weights ≠ [] := by
    simp [List.length_pos_iff]
  constructor
  · rintro ⟨-, hlower, hupper⟩
    rw [hlast] at hupper
    simpa using And.intro hlower hupper
  · rintro ⟨hlower, hupper⟩
    refine ⟨by simp, by simpa using hlower, ?_⟩
    rw [hlast]
    simpa using hupper

theorem inBucket_cons_succ (w : Rat) :
    InBucket (w :: weights) (i + 1) x ↔ InBucket weights i (x - w) := by
  constructor
  · rintro ⟨hinside, hlower, hupper⟩
    simp only [bucketStart_cons_succ, List.length_cons] at hinside hlower hupper
    exact ⟨by omega, by linarith, fun h => by linarith [hupper (by omega)]⟩
  · rintro ⟨hinside, hlower, hupper⟩
    constructor
    · simpa using hinside
    · rw [bucketStart_cons_succ]
      linarith
    · intro h
      rw [List.length_cons] at h
      rw [bucketStart_cons_succ]
      linarith [hupper (by omega)]

theorem not_inBucket_nil : ¬InBucket [] i x := fun h => Nat.not_lt_zero i h.inside

/-- A draw below the end of the first bucket lies in no later one. -/
theorem not_inBucket_cons_succ {w : Rat} (hweights : ∀ v ∈ weights, 0 ≤ v) (hx : x < w) :
    ¬InBucket (w :: weights) (i + 1) x := by
  intro h
  rw [inBucket_cons_succ] at h
  have hstart : 0 ≤ x - w := (bucketStart_nonneg hweights i).trans h.lower
  linarith

/-- The walk along the rules stops at the bucket that the draw lies in. -/
theorem bucketFrom_eq_some_iff {lower : Rat} (hweights : ∀ w ∈ weights, 0 ≤ w)
    (hx : lower ≤ x) : bucketFrom lower weights x = some i ↔ InBucket weights i (x - lower) := by
  induction weights generalizing lower i with
  | nil => simp [bucketFrom, not_inBucket_nil]
  | cons w ws ih =>
    have hws : ∀ v ∈ ws, 0 ≤ v := fun v hv => hweights v (List.mem_cons_of_mem w hv)
    have hnonneg : 0 ≤ x - lower := by linarith
    cases ws with
    | nil =>
      -- the last bucket, which takes whatever comes to it
      cases i with
      | zero => simp [bucketFrom, inBucket_cons_zero, hnonneg]
      | succ i => simp [bucketFrom, inBucket_cons_succ, not_inBucket_nil]
    | cons v vs =>
      by_cases hlt : x < lower + w
      · have hfirst : x - lower < w := by linarith
        cases i with
        | zero => simp [bucketFrom, hlt, inBucket_cons_zero, hnonneg, hfirst]
        | succ i => simp [bucketFrom, hlt, not_inBucket_cons_succ hws hfirst]
      · have hbeyond : ¬x - lower < w := by linarith
        cases i with
        | zero => simp [bucketFrom, hlt, inBucket_cons_zero, hbeyond]
        | succ i =>
          rw [inBucket_cons_succ, sub_sub, ← ih hws (not_lt.mp hlt)]
          simp [bucketFrom, hlt]

theorem bucket_eq_some_iff (hweights : ∀ w ∈ weights, 0 ≤ w) (hx : 0 ≤ x) :
    bucket weights x = some i ↔ InBucket weights i x := by
  unfold bucket
  rw [bucketFrom_eq_some_iff hweights hx, sub_zero]

/-- The buckets are disjoint, and they cover every draw. -/
theorem existsUnique_inBucket (hne : weights ≠ []) (hweights : ∀ w ∈ weights, 0 ≤ w)
    (hx : 0 ≤ x) : ∃! i, InBucket weights i x := by
  obtain ⟨i, hi, -⟩ := exists_bucketFrom 0 weights x hne
  have hbucket : bucket weights x = some i := hi
  refine ⟨i, (bucket_eq_some_iff hweights hx).mp hbucket, ?_⟩
  intro j hj
  rw [← bucket_eq_some_iff hweights hx, hbucket] at hj
  exact (Option.some.inj hj).symm

section Rules

variable {rules : List (Rule Rat S P M)}

/-- The rule returned is the one at the place of the bucket. -/
theorem select_of_inBucket (hweights : ∀ w ∈ rules.map (·.weight), 0 ≤ w) (hx : 0 ≤ x)
    (h : InBucket (rules.map (·.weight)) i x) : select rules x = rules[i]? := by
  unfold select
  rw [(bucket_eq_some_iff hweights hx).mpr h]
  rfl

/-- Where no two rules are the same, the rule returned tells its bucket. -/
theorem select_eq_getElem?_iff (hdistinct : rules.Nodup) (hi : i < rules.length)
    (hweights : ∀ w ∈ rules.map (·.weight), 0 ≤ w) (hx : 0 ≤ x) :
    select rules x = rules[i]? ↔ InBucket (rules.map (·.weight)) i x := by
  constructor
  · intro h
    have hne : rules.map (·.weight) ≠ [] := by
      rw [← List.length_pos_iff, List.length_map]
      omega
    obtain ⟨j, hj, -⟩ := existsUnique_inBucket hne hweights hx
    have hinside : j < rules.length := by simpa using hj.inside
    have hsame : rules[j]? = rules[i]? := by rw [← select_of_inBucket hweights hx hj, h]
    rwa [← (List.getElem?_inj hinside hdistinct).mp hsame]
  · exact select_of_inBucket hweights hx

end Rules

end Buckets

/-! ## Steps in a bucket -/

section Steps

variable {weights : List Rat} {i : Nat}

/-- The draws, by their number of steps above zero, that fall into the bucket at place `i`. -/
def stepsInto (weights : List Rat) (i : Nat) : Finset Nat :=
  (Finset.range (2 ^ 53)).filter fun k => bucket weights (k / 2 ^ 53) = some i

theorem bucketStart_succ {w : Rat} (hw : weights[i]? = some w) :
    bucketStart weights (i + 1) = bucketStart weights i + w := by
  unfold bucketStart
  rw [List.take_add_one, hw, List.sum_append]
  simp

theorem stepsInto_eq_Ico (hweights : ∀ w ∈ weights, 0 ≤ w) (hi : i + 1 < weights.length)
    (hone : bucketStart weights (i + 1) ≤ 1) :
    stepsInto weights i =
      Finset.Ico ⌈2 ^ 53 * bucketStart weights i⌉₊ ⌈2 ^ 53 * bucketStart weights (i + 1)⌉₊ := by
  have hsteps : (0 : Rat) < 2 ^ 53 := by positivity
  ext k
  have hdraw : (0 : Rat) ≤ k / 2 ^ 53 := by positivity
  have hlower : bucketStart weights i ≤ k / 2 ^ 53 ↔ 2 ^ 53 * bucketStart weights i ≤ k := by
    rw [le_div_iff₀' hsteps]
  have hupper : (k / 2 ^ 53 : Rat) < bucketStart weights (i + 1) ↔
      k < 2 ^ 53 * bucketStart weights (i + 1) := by
    rw [div_lt_iff₀' hsteps]
  unfold stepsInto
  rw [Finset.mem_filter, Finset.mem_range, Finset.mem_Ico, bucket_eq_some_iff hweights hdraw,
    Nat.ceil_le, Nat.lt_ceil, ← hlower, ← hupper]
  constructor
  · rintro ⟨-, h⟩
    exact ⟨h.lower, h.upper hi⟩
  · rintro ⟨hlow, hup⟩
    have hk : (k : Rat) < 2 ^ 53 := by
      calc (k : Rat)
        _ < 2 ^ 53 * bucketStart weights (i + 1) := hupper.mp hup
        _ ≤ 2 ^ 53 * 1 := mul_le_mul_of_nonneg_left hone hsteps.le
        _ = 2 ^ 53 := mul_one _
    exact ⟨by exact_mod_cast hk, ⟨by omega, hlow, fun _ => hup⟩⟩

/-- A bucket holds the whole numbers of steps from one end to the other. -/
theorem card_stepsInto (hweights : ∀ w ∈ weights, 0 ≤ w) (hi : i + 1 < weights.length)
    (hone : bucketStart weights (i + 1) ≤ 1) :
    ((stepsInto weights i).card : Int) =
      ⌈2 ^ 53 * bucketStart weights (i + 1)⌉ - ⌈2 ^ 53 * bucketStart weights i⌉ := by
  have hw : weights[i]? = some weights[i] := List.getElem?_eq_getElem (by omega)
  have hle : bucketStart weights i ≤ bucketStart weights (i + 1) := by
    rw [bucketStart_succ hw]
    have := hweights _ (List.mem_of_getElem? hw)
    linarith
  have hceil : ⌈2 ^ 53 * bucketStart weights i⌉₊ ≤ ⌈2 ^ 53 * bucketStart weights (i + 1)⌉₊ :=
    Nat.ceil_mono (mul_le_mul_of_nonneg_left hle (by positivity))
  have hcast : ∀ j, ((⌈2 ^ 53 * bucketStart weights j⌉₊ : Nat) : Int) =
      ⌈2 ^ 53 * bucketStart weights j⌉ := fun j =>
    Int.natCast_ceil_eq_ceil (mul_nonneg (by positivity) (bucketStart_nonneg hweights j))
  rw [stepsInto_eq_Ico hweights hi hone, Nat.card_Ico, Nat.cast_sub hceil, hcast, hcast]

theorem abs_card_stepsInto_sub_lt {w : Rat} (hweights : ∀ w ∈ weights, 0 ≤ w)
    (hw : weights[i]? = some w) (hi : i + 1 < weights.length)
    (hone : bucketStart weights (i + 1) ≤ 1) :
    |((stepsInto weights i).card : Rat) - 2 ^ 53 * w| < 1 := by
  have hcard : ((stepsInto weights i).card : Rat) =
      ⌈2 ^ 53 * bucketStart weights (i + 1)⌉ - ⌈2 ^ 53 * bucketStart weights i⌉ := by
    exact_mod_cast card_stepsInto hweights hi hone
  have hwidth : 2 ^ 53 * w =
      2 ^ 53 * bucketStart weights (i + 1) - 2 ^ 53 * bucketStart weights i := by
    rw [bucketStart_succ hw]
    ring
  have hlow := Int.le_ceil (2 ^ 53 * bucketStart weights i)
  have hlow' := Int.ceil_lt_add_one (2 ^ 53 * bucketStart weights i)
  have hup := Int.le_ceil (2 ^ 53 * bucketStart weights (i + 1))
  have hup' := Int.ceil_lt_add_one (2 ^ 53 * bucketStart weights (i + 1))
  rw [hcard, hwidth, abs_lt]
  constructor
  · linarith
  · linarith

end Steps

/-! ## Selection by drawing -/

/-- Selection realises the weights, whatever they add up to. The buckets are disjoint and cover
every draw, and a draw selects the rule at the place of its bucket; since rules of a table can be
the same, the place is what is told, and the rule tells it where no two are. Every draw of a
generator is exactly a number of steps below `2 ^ 53`, read over the rationals and as a double. A
bucket other than the last that ends by one is met by the whole numbers of steps in it, which are
within one of what its weight asks for. -/
theorem selection_realises_weights [DecidableEq S] [SymbolText S] (table : RuleTable Rat S P M)
    (symbol : S) (hne : table.matching symbol ≠ [])
    (haccepted : ∀ r ∈ table.matching symbol, r.Accepted) :
    let rules := table.matching symbol
    let weights := rules.map (·.weight)
    (∀ x, 0 ≤ x → (∃! i, InBucket weights i x) ∧
      (∀ i, InBucket weights i x ↔ bucket weights x = some i) ∧
      (∀ i, InBucket weights i x → select rules x = rules[i]?) ∧
      (rules.Nodup → ∀ i, i < rules.length →
        (select rules x = rules[i]? ↔ InBucket weights i x))) ∧
    (∀ g : Xoshiro, Xoshiro.stepsOf g.next.1 < 2 ^ 53 ∧
      (draw g : Rat × Xoshiro).1 = Xoshiro.stepsOf g.next.1 / 2 ^ 53 ∧
      (Decimal.Binary.ofFloat (draw g : Float × Xoshiro).1).value =
        some (Xoshiro.stepsOf g.next.1 / 2 ^ 53 : Rat)) ∧
    ∀ i r, rules[i]? = some r → i + 1 < rules.length → bucketStart weights (i + 1) ≤ 1 →
      ((stepsInto weights i).card : Int) =
        ⌈2 ^ 53 * bucketStart weights (i + 1)⌉ - ⌈2 ^ 53 * bucketStart weights i⌉ ∧
      |((stepsInto weights i).card : Rat) - 2 ^ 53 * r.weight| < 1 := by
  intro rules weights
  have hweights : ∀ w ∈ weights, 0 ≤ w := by
    intro w hw
    obtain ⟨r, hr, rfl⟩ := List.mem_map.mp hw
    exact (r.accepted_iff.mp (haccepted r hr)).1.le
  refine ⟨fun x hx => ?_, fun g => ?_, fun i r hr hi hone => ?_⟩
  · refine ⟨existsUnique_inBucket (by simpa [weights] using hne) hweights hx,
      fun i => (bucket_eq_some_iff hweights hx).symm,
      fun i h => select_of_inBucket hweights hx h,
      fun hdistinct i hi => select_eq_getElem?_iff hdistinct hi hweights hx⟩
  · refine ⟨Xoshiro.stepsOf_lt _, Xoshiro.unit_rat _, ?_⟩
    rw [← Xoshiro.unit_rat]
    exact Xoshiro.value_unit _
  · have hw : weights[i]? = some r.weight := by simp [weights, hr]
    have hlast : i + 1 < weights.length := by simpa [weights] using hi
    exact ⟨card_stepsInto hweights hlast hone, abs_card_stepsInto_sub_lt hweights hw hlast hone⟩

/-- Three rules for one letter, with a rule for another letter between them. -/
def mixedTable : RuleTable Rat Char Nat Unit where
  rules := [⟨'S', 3 / 10, fun p => [.leaf 'A' p]⟩, ⟨'S', 3 / 10, fun p => [.leaf 'B' p]⟩,
    ⟨'T', 1, fun p => [.leaf 'D' p]⟩, ⟨'S', 1 / 5, fun p => [.leaf 'C' p]⟩]

theorem selection_realises_mixedTable :
    mixedTable.matching 'S' ≠ [] ∧ (∀ r ∈ mixedTable.matching 'S', r.Accepted) ∧
      bucket ((mixedTable.matching 'S').map (·.weight)) (3 / 10) = some 1 ∧
      (stepsInto ((mixedTable.matching 'S').map (·.weight)) 0).card = 2702159776422298 := by
  have hne : mixedTable.matching 'S' ≠ [] := List.cons_ne_nil _ _
  have haccepted : ∀ r ∈ mixedTable.matching 'S', r.Accepted := by
    intro r hr
    have hr' : r ∈ mixedTable.rules := List.mem_of_mem_filter hr
    rw [Rule.accepted_iff]
    simp only [mixedTable, List.mem_cons, List.not_mem_nil, or_false] at hr'
    rcases hr' with rfl | rfl | rfl | rfl <;> norm_num
  have hweights : (mixedTable.matching 'S').map (·.weight) = [3 / 10, 3 / 10, 1 / 5] := rfl
  obtain ⟨hdraws, -, hcount⟩ := selection_realises_weights mixedTable 'S' hne haccepted
  rw [hweights] at hdraws hcount ⊢
  refine ⟨hne, haccepted, ?_, ?_⟩
  · obtain ⟨-, hbucket, -⟩ := hdraws (3 / 10) (by norm_num)
    rw [← hbucket]
    constructor
    · decide
    · norm_num [bucketStart]
    · norm_num [bucketStart]
  · have hone : bucketStart [3 / 10, 3 / 10, 1 / 5] (0 + 1) ≤ 1 := by norm_num [bucketStart]
    obtain ⟨hcard, -⟩ := hcount 0 _ rfl (by decide) hone
    have hceil : ⌈(2 ^ 53 * (3 / 10) : Rat)⌉ = 2702159776422298 := by
      rw [Int.ceil_eq_iff]
      norm_num
    simp only [bucketStart_cons_succ, bucketStart_zero, add_zero, mul_zero, Int.ceil_zero,
      sub_zero, hceil] at hcard
    exact_mod_cast hcard

end ChordGrammar
