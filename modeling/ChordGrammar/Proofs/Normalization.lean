import Mathlib.Algebra.Order.Group.Unbundled.Abs
import Mathlib.Data.List.Pairwise
import ChordGrammar.Proofs.DoubleArithmetic
import ChordGrammar.Proofs.RuleOrder

/-!
# Normalization

The weights of a symbol should add up to one, and a table can be asked for the symbols whose weights
miss that. One scan collects the symbols, in the order of their first rules; for each of them
another adds up the weights of its rules, which may stand anywhere in the table. A symbol is kept if
its total is further from one than the tolerance.
-/
namespace ChordGrammar

/-! ## Distances -/

namespace Scalar

theorem distance_eq_abs (x y : Rat) : distance x y = |x - y| := by
  show (if x - y < 0 then 0 - (x - y) else x - y) = |x - y|
  split_ifs with h
  · rw [abs_of_neg h, zero_sub]
  · rw [abs_of_nonneg (not_lt.mp h)]

theorem lt_distance_iff (t x y : Float) : t < distance x y ↔ t < (x - y).abs := by
  show t < (if x - y < 0 then 0 - (x - y) else x - y) ↔ t < (x - y).abs
  split_ifs with h
  · rw [Decimal.zero_sub_eq_abs h]
  · exact (Decimal.lt_abs_iff h).symm

end Scalar

/-! ## First appearances -/

section FirstAppearances

variable {α : Type} [DecidableEq α]

theorem pairwise_firstAppearances (xs : List α) :
    (firstAppearances xs).Pairwise fun x y => xs.idxOf x < xs.idxOf y := by
  induction xs with
  | nil => exact .nil
  | cons x xs ih =>
    rw [firstAppearances, List.pairwise_cons]
    have hlater : ∀ y ≠ x, (x :: xs).idxOf y = xs.idxOf y + 1 :=
      fun y hy => List.idxOf_cons_ne xs hy.symm
    constructor
    · intro y hy
      have hne : y ≠ x := by simpa using (List.mem_filter.mp hy).2
      rw [List.idxOf_cons_self, hlater y hne]
      exact Nat.succ_pos _
    · refine List.pairwise_filter.mpr (ih.imp fun {y z} hlt hy hz => ?_)
      rw [hlater y (by simpa using hy), hlater z (by simpa using hz)]
      exact Nat.succ_lt_succ hlt

/-- What has been seen after one more element. -/
def collect (seen : List α) (x : α) : List α := if x ∈ seen then seen else seen ++ [x]

/-- A scan adds to what it has seen the first appearances of everything else. -/
theorem foldl_collect (seen xs : List α) :
    xs.foldl collect seen = seen ++ (firstAppearances xs).filter (· ∉ seen) := by
  induction xs generalizing seen with
  | nil => simp [firstAppearances]
  | cons x xs ih =>
    rw [List.foldl_cons, ih, firstAppearances, collect]
    by_cases hx : x ∈ seen
    · have hkeep : ∀ y, y ∉ seen → y ≠ x := fun y hy hyx => hy (hyx ▸ hx)
      rw [if_pos hx, List.filter_cons_of_neg (by simpa using hx), List.filter_filter]
      congr 2
      funext y
      by_cases hy : y ∈ seen <;> simp [hy, hkeep]
    · rw [if_neg hx, List.filter_cons_of_pos (by simpa using hx), List.filter_filter,
        List.append_assoc]
      simp [not_or]

end FirstAppearances

/-! ## Tables -/

namespace RuleTable

variable {W S P M : Type} [DecidableEq S]

/-- The place of the first rule for a symbol. -/
def firstPlace (table : RuleTable W S P M) (s : S) : Nat := table.rules.findIdx (·.symbol = s)

theorem firstPlace_eq_idxOf (table : RuleTable W S P M) (s : S) :
    table.firstPlace s = (table.rules.map (·.symbol)).idxOf s := by
  rw [List.idxOf, List.findIdx_map]
  rfl

theorem pairwise_symbols (table : RuleTable W S P M) :
    table.symbols.Pairwise fun s s' => table.firstPlace s < table.firstPlace s' := by
  simp only [firstPlace_eq_idxOf]
  exact pairwise_firstAppearances _

theorem symbols_eq_foldl (table : RuleTable W S P M) :
    table.symbols = table.rules.foldl (fun seen r => collect seen r.symbol) [] := by
  rw [← List.foldl_map, foldl_collect, symbols]
  simp

theorem mem_symbols_iff_exists {table : RuleTable W S P M} {s : S} :
    s ∈ table.symbols ↔ ∃ r ∈ table.rules, r.symbol = s := by
  rw [symbols, mem_firstAppearances, List.mem_map]

variable [Scalar W]

theorem totalWeight_eq_foldl (table : RuleTable W S P M) (s : S) :
    table.totalWeight s =
      table.rules.foldl (fun total r => if r.symbol = s then total + r.weight else total) 0 := by
  rw [totalWeight, Scalar.sum, matching, List.foldl_map, List.foldl_filter]
  simp only [decide_eq_true_eq]

theorem mem_unnormalized_iff {table : RuleTable W S P M} {tolerance : W} {s : S} :
    s ∈ table.unnormalized tolerance ↔ (∃ r ∈ table.rules, r.symbol = s) ∧
      tolerance < Scalar.distance (table.totalWeight s) 1 := by
  rw [unnormalized, List.mem_filter, mem_symbols_iff_exists, decide_eq_true_iff]

end RuleTable

/-- Every symbol whose weights miss one by more than the tolerance is reported, no other symbol is,
and each once, in the order of their first rules. The symbols are what one scan of the table
collects, and a total is what another adds up, taking in every rule for the symbol. A distance from
one is an absolute value: of a rational, and of a double as far as comparisons go. -/
theorem unnormalized_reports_once {W S P M : Type} [DecidableEq S] [Scalar W]
    (table : RuleTable W S P M) (tolerance : W) :
    (table.unnormalized tolerance).Nodup ∧
    (table.unnormalized tolerance).Pairwise
      (fun s s' => table.firstPlace s < table.firstPlace s') ∧
    (∀ s, s ∈ table.unnormalized tolerance ↔ (∃ r ∈ table.rules, r.symbol = s) ∧
      tolerance < Scalar.distance (table.totalWeight s) 1) ∧
    table.symbols = table.rules.foldl (fun seen r => collect seen r.symbol) [] ∧
    (∀ s, table.totalWeight s =
      table.rules.foldl (fun total r => if r.symbol = s then total + r.weight else total) 0) ∧
    (∀ x y : Rat, Scalar.distance x y = |x - y|) ∧
    ∀ t x y : Float, t < Scalar.distance x y ↔ t < (x - y).abs :=
  ⟨(nodup_firstAppearances _).filter _, table.pairwise_symbols.filter _,
    fun _ => RuleTable.mem_unnormalized_iff, table.symbols_eq_foldl, table.totalWeight_eq_foldl,
    Scalar.distance_eq_abs, Scalar.lt_distance_iff⟩

/-- The halves of one symbol stand around the rules of another. -/
example : (RuleTable.mk [⟨'I', 1 / 2, fun _ => []⟩, ⟨'V', 2 / 5, fun _ => []⟩,
      ⟨'I', 1 / 2, fun _ => []⟩, ⟨'V', 2 / 5, fun _ => []⟩, ⟨'T', 1 / 3, fun _ => []⟩] :
    RuleTable Rat Char Unit Unit).unnormalized (1 / 10) = ['V', 'T'] := by decide +kernel

end ChordGrammar
