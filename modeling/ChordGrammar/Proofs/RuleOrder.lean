import Mathlib.Data.List.Nodup
import Mathlib.Data.List.Perm.Basic
import ChordGrammar.Proofs.KeptForms

/-!
# The order of rules

Which rule a draw selects depends on the order of the rules of one symbol, since it is this order in
which their buckets are laid. How the rules of different symbols lie between one another has no
influence. Two tables differ in nothing but this if one comes out of the other by letting neighbours
of different symbols change places, and that is the case exactly if every symbol has the same rules
in the same order in both.
-/
namespace ChordGrammar

variable {W S P M σ : Type}

/-! ## Neighbours that change places -/

/-- The second list is the first with rules moved past rules of other symbols. -/
inductive Reordered : List (Rule W S P M) → List (Rule W S P M) → Prop
  | nil : Reordered [] []
  | cons (r : Rule W S P M) {rs rs' : List (Rule W S P M)} (h : Reordered rs rs') :
      Reordered (r :: rs) (r :: rs')
  | swap {q r : Rule W S P M} (h : q.symbol ≠ r.symbol) (rs : List (Rule W S P M)) :
      Reordered (q :: r :: rs) (r :: q :: rs)
  | trans {rs rs' rs'' : List (Rule W S P M)} (h : Reordered rs rs') (h' : Reordered rs' rs'') :
      Reordered rs rs''

namespace Reordered

variable {rs rs' : List (Rule W S P M)}

theorem refl : ∀ rs : List (Rule W S P M), Reordered rs rs
  | [] => .nil
  | r :: rs => .cons r (refl rs)

/-- A rule may be moved behind rules of other symbols. -/
theorem move {r : Rule W S P M} {before : List (Rule W S P M)}
    (h : ∀ q ∈ before, q.symbol ≠ r.symbol) (after : List (Rule W S P M)) :
    Reordered (r :: (before ++ after)) (before ++ r :: after) := by
  induction before with
  | nil => exact refl (r :: after)
  | cons q before ih =>
    rw [List.forall_mem_cons] at h
    exact (swap h.1.symm (before ++ after)).trans (cons q (ih h.2))

variable [DecidableEq S]

theorem filter_eq (h : Reordered rs rs') (s : S) :
    rs.filter (·.symbol = s) = rs'.filter (·.symbol = s) := by
  induction h with
  | nil => rfl
  | cons r _ ih => rw [List.filter_cons, List.filter_cons, ih]
  | @swap q r h rs =>
    by_cases hq : q.symbol = s
    · have hr : r.symbol ≠ s := fun hr => h (hq.trans hr.symm)
      simp [hq, hr]
    · simp [List.filter_cons, hq]
  | trans _ _ ih ih' => exact ih.trans ih'

/-- By induction on the first list: its head is the first rule of its symbol in the second, and what
stands before it there has other symbols. -/
theorem of_filter_eq (h : ∀ s, rs.filter (·.symbol = s) = rs'.filter (·.symbol = s)) :
    Reordered rs rs' := by
  induction rs generalizing rs' with
  | nil =>
    cases rs' with
    | nil => exact .nil
    | cons r rs' => simpa using h r.symbol
  | cons r rs ih =>
    have hhead := h r.symbol
    rw [List.filter_cons_of_pos (by simp)] at hhead
    obtain ⟨before, after, rfl, hbefore, -, -⟩ := List.filter_eq_cons_iff.mp hhead.symm
    have hmove : Reordered (r :: (before ++ after)) (before ++ r :: after) :=
      move (by simpa using hbefore) after
    have hrest : Reordered rs (before ++ after) := by
      refine ih fun s => ?_
      have hs := (h s).trans (hmove.filter_eq s).symm
      by_cases hr : r.symbol = s
      · simpa [List.filter_cons, hr] using hs
      · simpa [List.filter_cons, hr] using hs
    exact (cons r hrest).trans hmove

end Reordered

/-! ## Tables that agree on every symbol -/

theorem mem_firstAppearances {α : Type} [DecidableEq α] {x : α} {xs : List α} :
    x ∈ firstAppearances xs ↔ x ∈ xs := by
  induction xs with
  | nil => rfl
  | cons y xs ih => by_cases h : x = y <;> simp [firstAppearances, ih, h]

theorem nodup_firstAppearances {α : Type} [DecidableEq α] (xs : List α) :
    (firstAppearances xs).Nodup := by
  induction xs with
  | nil => exact List.nodup_nil
  | cons y xs ih =>
    rw [firstAppearances, List.nodup_cons]
    exact ⟨by simp, ih.filter _⟩

variable [DecidableEq S]

namespace RuleTable

/-- Both tables have the same rules for every symbol, in the same order. -/
def AgreesWith (table table' : RuleTable W S P M) : Prop :=
  ∀ s, table.matching s = table'.matching s

theorem agreesWith_iff_reordered {table table' : RuleTable W S P M} :
    table.AgreesWith table' ↔ Reordered table.rules table'.rules :=
  ⟨Reordered.of_filter_eq, Reordered.filter_eq⟩

theorem mem_symbols_iff {table : RuleTable W S P M} {s : S} :
    s ∈ table.symbols ↔ table.matching s ≠ [] := by
  simp [symbols, mem_firstAppearances, matching]

variable {table table' : RuleTable W S P M}

theorem AgreesWith.symbols_perm (h : table.AgreesWith table') :
    table.symbols.Perm table'.symbols := by
  refine (List.perm_ext_iff_of_nodup (nodup_firstAppearances _) (nodup_firstAppearances _)).mpr ?_
  intro s
  rw [← symbols, ← symbols, mem_symbols_iff, mem_symbols_iff, h s]

variable [Scalar W]

theorem AgreesWith.totalWeight_eq (h : table.AgreesWith table') (s : S) :
    table.totalWeight s = table'.totalWeight s := by
  rw [totalWeight, totalWeight, h s]

theorem AgreesWith.unnormalized_perm (h : table.AgreesWith table') (tolerance : W) :
    (table.unnormalized tolerance).Perm (table'.unnormalized tolerance) := by
  simp only [unnormalized, h.totalWeight_eq]
  exact h.symbols_perm.filter _

end RuleTable

/-! ## Passes -/

namespace RuleTable.AgreesWith

variable [Scalar W] [DrawSource σ W] {table table' : RuleTable W S P M}

theorem produceLeaf_eq (h : table.AgreesWith table') (s : S) (p : P) (src : σ) :
    produceLeaf table s p src = produceLeaf table' s p src := by
  rw [produceLeaf, produceLeaf, h s]

mutual

theorem produceTerm_eq (h : table.AgreesWith table') :
    ∀ (t : Term S P M) (src : σ), produceTerm table t src = produceTerm table' t src
  | .leaf s p, src => h.produceLeaf_eq s p src
  | .seq ts, src => by simp only [produceTerm, produce_eq h ts]
  | .modulated _ t, src => by simp only [produceTerm, produceTerm_eq h t]
  | .letIn _ v b, src => by simp only [produceTerm, produceTerm_eq h v, produceTerm_eq h b]
  | .var _, _ => rfl

/-- The step: a pass asks a table for nothing but the rules of a symbol. -/
theorem produce_eq (h : table.AgreesWith table') :
    ∀ (ts : List (Term S P M)) (src : σ), produce table ts src = produce table' ts src
  | [], _ => rfl
  | t :: ts, src => by simp only [produce, produceTerm_eq h t, produce_eq h ts]

end

/-- The run: so does any number of passes. -/
theorem generate_eq (h : table.AgreesWith table') (n : Nat) (ts : Sentence S P M) (src : σ) :
    generate table n ts src = generate table' n ts src := by
  induction n generalizing ts src with
  | zero => rfl
  | succ n ih => simp only [generate, h.produce_eq, ih]

theorem generateHistory_eq (h : table.AgreesWith table') (n : Nat) (ts : Sentence S P M)
    (src : σ) : generateHistory table n ts src = generateHistory table' n ts src := by
  rw [generateHistory_eq_map, generateHistory_eq_map]
  simp only [h.generate_eq]

end RuleTable.AgreesWith

/-- Only the order within a symbol matters. Two tables have the same rules for every symbol in the
same order exactly if one comes out of the other by moving rules past rules of other symbols. They
then generate the same forms from every sentence, in any number of passes, and leave the draw source
in the same state; every symbol has the same total weight, and the same symbols are reported as
unnormalized, perhaps in another order. -/
theorem order_within_symbols [Scalar W] (table table' : RuleTable W S P M) :
    ((∀ s, table.matching s = table'.matching s) ↔ Reordered table.rules table'.rules) ∧
    ((∀ s, table.matching s = table'.matching s) →
      (∀ {σ : Type} [DrawSource σ W] (n : Nat) (ts : Sentence S P M) (src : σ),
        generate table n ts src = generate table' n ts src ∧
        generateHistory table n ts src = generateHistory table' n ts src) ∧
      (∀ s, table.totalWeight s = table'.totalWeight s) ∧
      ∀ tolerance, (table.unnormalized tolerance).Perm (table'.unnormalized tolerance)) := by
  refine ⟨RuleTable.agreesWith_iff_reordered, fun h => ?_⟩
  have hagrees : table.AgreesWith table' := h
  exact ⟨fun n ts src => ⟨hagrees.generate_eq n ts src, hagrees.generateHistory_eq n ts src⟩,
    hagrees.totalWeight_eq, hagrees.unnormalized_perm⟩

/-- Two symbols with two rules each, first the rules of one and then those of the other. -/
def groupedRules : RuleTable Rat Char Rat Nat where
  rules :=
    [⟨'I', 1 / 4, fun d => [.leaf 'I' (d / 2), .leaf 'V' (d / 2)]⟩,
      ⟨'I', 1 / 2, fun d => [.leaf 'V' d]⟩,
      ⟨'V', 1 / 2, fun d => [.modulated 7 (.leaf 'I' d)]⟩,
      ⟨'V', 1 / 4, fun d => [.leaf 'V' (d / 2), .leaf 'V' (d / 2)]⟩]

/-- The same rules, in turn. -/
def alternatingRules : RuleTable Rat Char Rat Nat where
  rules :=
    [⟨'V', 1 / 2, fun d => [.modulated 7 (.leaf 'I' d)]⟩,
      ⟨'I', 1 / 4, fun d => [.leaf 'I' (d / 2), .leaf 'V' (d / 2)]⟩,
      ⟨'V', 1 / 4, fun d => [.leaf 'V' (d / 2), .leaf 'V' (d / 2)]⟩,
      ⟨'I', 1 / 2, fun d => [.leaf 'V' d]⟩]

theorem order_within_symbols_alternating :
    let src : Cycle Rat := ⟨[1 / 10, 3 / 5, 9 / 10], List.cons_ne_nil _ _, 0⟩
    let whole : Sentence Char Rat Nat := [.leaf 'I' 8, .seq [.leaf 'V' 4]]
    Reordered groupedRules.rules alternatingRules.rules ∧
    (∀ s, groupedRules.matching s = alternatingRules.matching s) ∧
    generate groupedRules 3 whole src = generate alternatingRules 3 whole src ∧
    (generate groupedRules 3 whole src).2.issued = 12 ∧
    groupedRules.unnormalized 0 = ['I', 'V'] ∧ alternatingRules.unnormalized 0 = ['V', 'I'] := by
  intro src whole
  have hreordered : Reordered groupedRules.rules alternatingRules.rules := by
    have hne : 'I' ≠ 'V' := by decide
    -- The first rule for V moves past both rules for I, the second past one.
    exact (((Reordered.swap hne _).cons _).trans (.swap hne _)).trans
      (((Reordered.swap hne _).cons _).cons _)
  obtain ⟨hiff, hsame⟩ := order_within_symbols groupedRules alternatingRules
  have hmatching := hiff.mpr hreordered
  exact ⟨hreordered, hmatching, ((hsame hmatching).1 3 whole src).1, by decide +kernel,
    by decide +kernel, by decide +kernel⟩

end ChordGrammar
