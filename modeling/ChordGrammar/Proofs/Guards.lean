import Mathlib.Data.List.Forall2
import ChordGrammar.Proofs.Histories

/-!
# Guards change only what they reject

Guards may be put around any rules of a table, several around one rule. They leave symbols and
weights alone, so a pass over the guarded table takes the same draws, and each draw chooses the
rule at the same place of the table. The results differ at the leaves that a guard of the chosen
rule does not take, and nowhere else: such a leaf stays.
-/
namespace ChordGrammar

variable {W S P M σ : Type}

/-! ## Guards around a rule -/

/-- The rule inside the guards of a list, the first of them innermost. -/
def Rule.guardedBy (r : Rule W S P M) (guards : List (P → Bool)) : Rule W S P M :=
  guards.foldl Rule.guarded r

namespace Rule

@[simp] theorem guardedBy_symbol (r : Rule W S P M) (guards : List (P → Bool)) :
    (r.guardedBy guards).symbol = r.symbol := by
  induction guards generalizing r with
  | nil => rfl
  | cons accept guards ih => exact ih (r.guarded accept)

@[simp] theorem guardedBy_weight (r : Rule W S P M) (guards : List (P → Bool)) :
    (r.guardedBy guards).weight = r.weight := by
  induction guards generalizing r with
  | nil => rfl
  | cons accept guards ih => exact ih (r.guarded accept)

/-- Guards inside one another act together: one that rejects is enough. -/
theorem guardedBy_production (r : Rule W S P M) (guards : List (P → Bool)) (p : P) :
    (r.guardedBy guards).production p =
      if guards.any fun accept => !accept p then [.leaf r.symbol p] else r.production p := by
  induction guards generalizing r with
  | nil => rfl
  | cons accept guards ih =>
    have hinner := ih (r.guarded accept)
    rw [guardedBy, List.foldl_cons, ← guardedBy, hinner]
    cases haccept : accept p <;> simp [guarded, haccept]

end Rule

/-! ## Places of a table -/

namespace RuleTable

/-- The table with the guards of `guards i` around the rule at place `i`. -/
def guardedBy (table : RuleTable W S P M) (guards : Nat → List (P → Bool)) :
    RuleTable W S P M :=
  ⟨table.rules.mapIdx fun i r => r.guardedBy (guards i)⟩

variable [DecidableEq S]

/-- The rules for a symbol, each with its place in the table. -/
def placed (table : RuleTable W S P M) (s : S) : List (Rule W S P M × Nat) :=
  table.rules.zipIdx.filter (·.1.symbol = s)

theorem map_fst_placed (table : RuleTable W S P M) (s : S) :
    (table.placed s).map Prod.fst = table.matching s := by
  rw [matching, ← List.zipIdx_map_fst 0 table.rules, List.filter_map]
  simp [placed, Function.comp_def]

theorem map_snd_placed (table : RuleTable W S P M) (s : S) :
    (table.placed s).map Prod.snd = table.positions s := rfl

theorem getElem?_of_mem_placed {table : RuleTable W S P M} {s : S} {r : Rule W S P M} {i : Nat}
    (h : (r, i) ∈ table.placed s) : table.rules[i]? = some r ∧ r.symbol = s := by
  rw [placed, List.mem_filter] at h
  exact ⟨List.mem_zipIdx_iff_getElem?.mp h.1, of_decide_eq_true h.2⟩

theorem placed_guardedBy (table : RuleTable W S P M) (guards : Nat → List (P → Bool)) (s : S) :
    (table.guardedBy guards).placed s =
      (table.placed s).map fun place => (place.1.guardedBy (guards place.2), place.2) := by
  have hzip : (table.guardedBy guards).rules.zipIdx =
      table.rules.zipIdx.map fun place => (place.1.guardedBy (guards place.2), place.2) := by
    apply List.ext_getElem?
    intro i
    simp only [guardedBy, List.getElem?_zipIdx, List.getElem?_mapIdx, List.getElem?_map]
    cases table.rules[i]? <;> simp
  simp [placed, hzip, List.filter_map, Function.comp_def]

theorem map_weight_guardedBy (table : RuleTable W S P M) (guards : Nat → List (P → Bool)) (s : S) :
    ((table.guardedBy guards).matching s).map (·.weight) =
      (table.matching s).map (·.weight) := by
  simp [← map_fst_placed, placed_guardedBy, Function.comp_def]

theorem positions_guardedBy (table : RuleTable W S P M) (guards : Nat → List (P → Bool)) (s : S) :
    (table.guardedBy guards).positions s = table.positions s := by
  simp [← map_snd_placed, placed_guardedBy, Function.comp_def]

theorem isEmpty_matching_guardedBy (table : RuleTable W S P M) (guards : Nat → List (P → Bool))
    (s : S) : ((table.guardedBy guards).matching s).isEmpty = (table.matching s).isEmpty := by
  simp [← map_fst_placed, placed_guardedBy]

section Weights

variable [Scalar W]

theorem totalWeight_guardedBy (table : RuleTable W S P M) (guards : Nat → List (P → Bool))
    (s : S) : (table.guardedBy guards).totalWeight s = table.totalWeight s := by
  rw [totalWeight, totalWeight, map_weight_guardedBy]

theorem unnormalized_guardedBy (table : RuleTable W S P M) (guards : Nat → List (P → Bool))
    (tolerance : W) :
    (table.guardedBy guards).unnormalized tolerance = table.unnormalized tolerance := by
  have hsymbols : (table.guardedBy guards).symbols = table.symbols := by
    rw [symbols, symbols]
    congr 1
    apply List.ext_getElem?
    simp [guardedBy, Function.comp_def]
  simp only [unnormalized, hsymbols, totalWeight_guardedBy]

/-- The rule that a draw chooses for a symbol, with its place in the table. -/
def chosen (table : RuleTable W S P M) (s : S) (x : W) : Option (Rule W S P M × Nat) :=
  (bucket ((table.matching s).map (·.weight)) x).bind fun i => (table.placed s)[i]?

theorem select_matching (table : RuleTable W S P M) (s : S) (x : W) :
    select (table.matching s) x = (table.chosen s x).map Prod.fst := by
  simp only [select, chosen, Option.map_bind, Function.comp_def, ← List.getElem?_map,
    map_fst_placed]

theorem getElem?_of_chosen {table : RuleTable W S P M} {s : S} {x : W} {r : Rule W S P M} {i : Nat}
    (h : table.chosen s x = some (r, i)) : table.rules[i]? = some r ∧ r.symbol = s := by
  obtain ⟨k, -, hk⟩ := Option.bind_eq_some_iff.mp h
  exact getElem?_of_mem_placed (List.mem_of_getElem? hk)

/-- The same draw chooses the rule at the same place. -/
theorem chosen_guardedBy (table : RuleTable W S P M) (guards : Nat → List (P → Bool)) (s : S)
    (x : W) : (table.guardedBy guards).chosen s x =
      (table.chosen s x).map fun place => (place.1.guardedBy (guards place.2), place.2) := by
  simp only [chosen, map_weight_guardedBy, placed_guardedBy, List.getElem?_map, Option.map_bind,
    Function.comp_def]

end Weights
end RuleTable

/-! ## One pass -/

section Numbering

variable [DecidableEq S] (table : RuleTable W S P M) (guards : Nat → List (P → Bool))

mutual

theorem openLeaves_guardedBy : ∀ t : Term S P M,
    openLeaves (table.guardedBy guards) t = openLeaves table t
  | .leaf s p => by simp only [openLeaves, table.isEmpty_matching_guardedBy guards]
  | .seq ts => sentenceOpenLeaves_guardedBy ts
  | .modulated _ t => openLeaves_guardedBy t
  | .letIn _ v b => by simp only [openLeaves, openLeaves_guardedBy v, openLeaves_guardedBy b]
  | .var _ => rfl

theorem sentenceOpenLeaves_guardedBy : ∀ ts : List (Term S P M),
    sentenceOpenLeaves (table.guardedBy guards) ts = sentenceOpenLeaves table ts
  | [] => rfl
  | t :: ts => by
    simp only [sentenceOpenLeaves, openLeaves_guardedBy t, sentenceOpenLeaves_guardedBy ts]

end

mutual

theorem numberFrom_guardedBy : ∀ (t : Term S P M) (n : Nat),
    numberFrom (table.guardedBy guards) t n = numberFrom table t n
  | .leaf s p, n => by simp only [numberFrom, table.isEmpty_matching_guardedBy guards]
  | .seq ts, n => by simp only [numberFrom, numberSentenceFrom_guardedBy ts n]
  | .modulated _ t, n => by simp only [numberFrom, numberFrom_guardedBy t n]
  | .letIn _ v b, n => by
    simp only [numberFrom, openLeaves_guardedBy, numberFrom_guardedBy v, numberFrom_guardedBy b]
  | .var _, _ => rfl

theorem numberSentenceFrom_guardedBy : ∀ (ts : List (Term S P M)) (n : Nat),
    numberSentenceFrom (table.guardedBy guards) ts n = numberSentenceFrom table ts n
  | [], _ => rfl
  | t :: ts, n => by
    simp only [numberSentenceFrom, openLeaves_guardedBy, numberFrom_guardedBy t,
      numberSentenceFrom_guardedBy ts]

end

theorem numbered_guardedBy (ts : Sentence S P M) :
    numbered (table.guardedBy guards) ts = numbered table ts :=
  numberSentenceFrom_guardedBy table guards ts 0

end Numbering

section Pass

variable [DecidableEq S] [Scalar W]

/-- The rule, with its place, that a pass with the given draws chooses for a leaf: the leaf's number
picks the draw. -/
def RuleTable.chosenFor (table : RuleTable W S P M) (draws : List W) (s : S)
    (leaf : P × Option Nat) : Option (Rule W S P M × Nat) :=
  leaf.2.bind fun i => draws[i]?.bind (table.chosen s)

theorem rewriting_eq (table : RuleTable W S P M) (draws : List W) (s : S)
    (leaf : P × Option Nat) :
    rewriting table draws s leaf =
      (table.chosenFor draws s leaf).elim [.leaf s leaf.1] fun place =>
        place.1.production leaf.1 := by
  have hselect : (leaf.2.bind fun i => draws[i]?.bind (select (table.matching s))) =
      (table.chosenFor draws s leaf).map Prod.fst := by
    simp only [RuleTable.chosenFor, Option.map_bind, Function.comp_def, ← table.select_matching]
  rw [rewriting, hselect]
  cases table.chosenFor draws s leaf <;> rfl

theorem symbol_of_chosenFor {table : RuleTable W S P M} {draws : List W} {s : S}
    {leaf : P × Option Nat} {place : Rule W S P M × Nat}
    (h : table.chosenFor draws s leaf = some place) : place.1.symbol = s := by
  obtain ⟨i, -, hi⟩ := Option.bind_eq_some_iff.mp h
  obtain ⟨x, -, hx⟩ := Option.bind_eq_some_iff.mp hi
  exact (RuleTable.getElem?_of_chosen hx).2

theorem chosenFor_guardedBy (table : RuleTable W S P M) (guards : Nat → List (P → Bool))
    (draws : List W) (s : S) (leaf : P × Option Nat) :
    (table.guardedBy guards).chosenFor draws s leaf =
      (table.chosenFor draws s leaf).map fun place =>
        (place.1.guardedBy (guards place.2), place.2) := by
  have hchosen := funext (table.chosen_guardedBy guards s)
  simp only [RuleTable.chosenFor, hchosen, Option.map_bind, Function.comp_def]

/-- The rule chosen for the leaf has a guard that does not take the leaf's parameter. -/
def rejects (table : RuleTable W S P M) (guards : Nat → List (P → Bool)) (draws : List W) (s : S)
    (leaf : P × Option Nat) : Bool :=
  (table.chosenFor draws s leaf).any fun place => (guards place.2).any fun accept => !accept leaf.1

/-- Guards put a leaf that they reject in its own place, and change nothing at any other. -/
theorem rewriting_guardedBy (table : RuleTable W S P M) (guards : Nat → List (P → Bool))
    (draws : List W) (s : S) (leaf : P × Option Nat) :
    rewriting (table.guardedBy guards) draws s leaf =
      if rejects table guards draws s leaf then [.leaf s leaf.1]
      else rewriting table draws s leaf := by
  rw [rewriting_eq, rewriting_eq, chosenFor_guardedBy, rejects]
  cases h : table.chosenFor draws s leaf with
  | none => rfl
  | some place => simp [Rule.guardedBy_production, symbol_of_chosenFor h]

variable [DrawSource σ W]

theorem forall₂_chosen (table : RuleTable W S P M) (guards : Nat → List (P → Bool))
    (ts : Sentence S P M) (src : σ) :
    List.Forall₂ (fun leaf x => ∃ r i,
        table.rules[i]? = some r ∧ table.chosen leaf.1 x = some (r, i) ∧
        (table.guardedBy guards).chosen leaf.1 x = some (r.guardedBy (guards i), i))
      (sentenceOpenLeaves table ts)
      (drawMany (sentenceOpenLeaves table ts).length src : List W × σ).1 := by
  refine (forall₂_exists_select table ts src).imp fun leaf x ⟨r, hr⟩ => ?_
  rw [table.select_matching] at hr
  obtain ⟨⟨r, i⟩, hchosen, rfl⟩ := Option.map_eq_some_iff.mp hr
  refine ⟨r, i, (RuleTable.getElem?_of_chosen hchosen).1, hchosen, ?_⟩
  rw [table.chosen_guardedBy, hchosen, Option.map_some]

/-- Guards change only the leaves that they reject. Whatever guards are put around the rules of a
table, a pass takes the same draws, each draw chooses the rule at the same place, and the leaf is
replaced by what the bare rule makes of it, unless a guard of that rule does not take the leaf's
parameter: then the leaf stays. Places, totals and the symbols reported as unnormalized are those
of the bare table. -/
theorem produce_guardedBy (table : RuleTable W S P M) (guards : Nat → List (P → Bool))
    (ts : Sentence S P M) (src : σ) :
    let wrapped := table.guardedBy guards
    let leaves := sentenceOpenLeaves table ts
    let taken : List W × σ := drawMany leaves.length src
    (produce table ts (Recorded.start src : Recorded σ W)).2.history = taken.1 ∧
    (produce wrapped ts (Recorded.start src : Recorded σ W)).2.history = taken.1 ∧
    (∀ s x, select (table.matching s) x = (table.chosen s x).map Prod.fst) ∧
    (∀ s x, select (wrapped.matching s) x = (wrapped.chosen s x).map Prod.fst) ∧
    List.Forall₂ (fun leaf x => ∃ r i, table.rules[i]? = some r ∧
      table.chosen leaf.1 x = some (r, i) ∧
      wrapped.chosen leaf.1 x = some (r.guardedBy (guards i), i)) leaves taken.1 ∧
    produce table ts src =
      (graftSentence (rewriting table taken.1) (numbered table ts), taken.2) ∧
    produce wrapped ts src =
      (graftSentence (fun s leaf => if rejects table guards taken.1 s leaf then [.leaf s leaf.1]
        else rewriting table taken.1 s leaf) (numbered table ts), taken.2) ∧
    (∀ s, wrapped.positions s = table.positions s) ∧
    (∀ s, wrapped.totalWeight s = table.totalWeight s) ∧
    ∀ tolerance, wrapped.unnormalized tolerance = table.unnormalized tolerance := by
  intro wrapped leaves taken
  have hleaves : sentenceOpenLeaves wrapped ts = leaves :=
    sentenceOpenLeaves_guardedBy table guards ts
  have hnumbered : numbered wrapped ts = numbered table ts := numbered_guardedBy table guards ts
  have hrewriting := funext₂ (rewriting_guardedBy table guards taken.1)
  refine ⟨history_produce table ts src, ?_, table.select_matching, wrapped.select_matching,
    forall₂_chosen table guards ts src, produce_eq table ts src, ?_,
    table.positions_guardedBy guards, table.totalWeight_guardedBy guards,
    table.unnormalized_guardedBy guards⟩
  · rw [history_produce, hleaves]
  · rw [produce_eq, hleaves, hnumbered]
    exact congrArg (fun g => (graftSentence g (numbered table ts), taken.2)) hrewriting

end Pass
end ChordGrammar
