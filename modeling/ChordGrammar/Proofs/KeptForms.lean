import Mathlib.Logic.Function.Iterate
import ChordGrammar.Proofs.Histories

/-!
# Runs that keep their forms

A history is what a run collects that puts the form it stands at behind itself before every pass,
and the last one at the end. The collecting run makes the same passes over the same source as one
that forgets, so its forms are the ends of the shorter runs, and it leaves the source where the
forgetting run does.
-/
namespace ChordGrammar

variable {W S P M σ : Type}

/-- A run that keeps its forms, between two passes: the forms behind it, the one it stands at, and
its source. -/
structure Progress (S P M σ : Type) where
  behind : List (Sentence S P M)
  here : Sentence S P M
  source : σ

variable [DecidableEq S] [Scalar W] [DrawSource σ W]

namespace Progress

/-- The forms of a run that ends here, in order, and its source. -/
def collected (run : Progress S P M σ) : List (Sentence S P M) × σ :=
  (run.behind ++ [run.here], run.source)

/-- One pass. The form that the run stood at is behind it afterwards. -/
def step (table : RuleTable W S P M) (run : Progress S P M σ) : Progress S P M σ where
  behind := run.behind ++ [run.here]
  here := (produce table run.here run.source).1
  source := (produce table run.here run.source).2

/-- The run has come `i` passes from a form and a source: it stands where `i` passes lead, and
behind it are the forms to which fewer passes lead, in order. -/
structure After (table : RuleTable W S P M) (ts : Sentence S P M) (src : σ) (i : Nat)
    (run : Progress S P M σ) : Prop where
  behind : run.behind = (List.range i).map fun j => (generate table j ts src).1
  here : run.here = (generate table i ts src).1
  source : run.source = (generate table i ts src).2

variable {table : RuleTable W S P M} {ts : Sentence S P M} {src : σ}

theorem after_zero : After table ts src 0 ⟨[], ts, src⟩ := ⟨rfl, rfl, rfl⟩

/-- The step: a pass takes the run one pass further. -/
theorem After.step {i : Nat} {run : Progress S P M σ} (h : After table ts src i run) :
    After table ts src (i + 1) (run.step table) where
  behind := by
    rw [List.range_succ, List.map_append, ← h.behind]
    simp only [Progress.step, List.map_singleton, h.here]
  here := by
    rw [generate_succ, ← h.here, ← h.source]
    rfl
  source := by
    rw [generate_succ, ← h.here, ← h.source]
    rfl

/-- The run: `n` steps from the start are `n` passes. -/
theorem after_iterate (n : Nat) : After table ts src n ((step table)^[n] ⟨[], ts, src⟩) := by
  induction n with
  | zero => exact after_zero
  | succ n ih =>
    rw [Function.iterate_succ_apply']
    exact ih.step

end Progress

/-- The history is what such a run has collected. -/
theorem collected_iterate (table : RuleTable W S P M) (n : Nat) (ts : Sentence S P M) (src : σ)
    (past : List (Sentence S P M)) :
    ((Progress.step table)^[n] ⟨past, ts, src⟩).collected =
      (past ++ (generateHistory table n ts src).1, (generateHistory table n ts src).2) := by
  induction n generalizing ts src past with
  | zero => rfl
  | succ n ih =>
    have hrest := ih (produce table ts src).1 (produce table ts src).2 (past ++ [ts])
    rw [List.append_assoc] at hrest
    exact hrest

theorem generateHistory_eq_map (table : RuleTable W S P M) (n : Nat) (ts : Sentence S P M)
    (src : σ) :
    generateHistory table n ts src =
      ((List.range (n + 1)).map fun i => (generate table i ts src).1,
        (generate table n ts src).2) := by
  have hafter : Progress.After table ts src n ((Progress.step table)^[n] ⟨[], ts, src⟩) :=
    Progress.after_iterate n
  calc generateHistory table n ts src
    _ = ((Progress.step table)^[n] ⟨[], ts, src⟩).collected :=
      (collected_iterate table n ts src []).symm
    _ = (((List.range n).map fun i => (generate table i ts src).1) ++
          [(generate table n ts src).1], (generate table n ts src).2) := by
      rw [Progress.collected, hafter.behind, hafter.here, hafter.source]
    _ = _ := by rw [List.range_succ, List.map_append, List.map_singleton]

/-- The two drivers agree and passes compose. A history of `n` passes has `n + 1` forms, form `i`
is the end of a run of `i` passes from the same start, and the source is left where the run of `n`
passes leaves it. A run of `n + m` passes goes on for `m` passes from where a run of `n` passes
ends. -/
theorem history_agrees_with_generate (table : RuleTable W S P M) (n m : Nat) (ts : Sentence S P M)
    (src : σ) :
    (generateHistory table n ts src).1.length = n + 1 ∧
    (∀ i ≤ n, (generateHistory table n ts src).1[i]? = some (generate table i ts src).1) ∧
    (generateHistory table n ts src).2 = (generate table n ts src).2 ∧
    generate table (n + m) ts src =
      generate table m (generate table n ts src).1 (generate table n ts src).2 := by
  rw [generateHistory_eq_map]
  refine ⟨by simp, fun i hi => ?_, rfl, generate_add table n m ts src⟩
  have hlt : i < n + 1 := Nat.lt_succ_of_le hi
  simp only [List.getElem?_map, List.getElem?_range hlt, Option.map_some]

/-- Splits of one symbol: three quarters and one quarter, or two halves. -/
def unevenRules : RuleTable Rat Char Rat Nat where
  rules :=
    [⟨'I', 1 / 2, fun d => [.leaf 'I' (d * 3 / 4), .leaf 'V' (d / 4)]⟩,
      ⟨'I', 1 / 2, fun d => [.leaf 'I' (d / 2), .leaf 'I' (d / 2)]⟩]

theorem history_agrees_unevenRules :
    let src : Cycle Rat := ⟨[1 / 10, 3 / 5], List.cons_ne_nil _ _, 0⟩
    let whole : Sentence Char Rat Nat := [.leaf 'I' 8]
    let history := generateHistory unevenRules 2 whole src
    1 ≤ 2 ∧
    history.1[1]? = some (generate unevenRules 1 whole src).1 ∧
    history.1.map expandSentence =
      [.ok [⟨[], 'I', 8⟩], .ok [⟨[], 'I', 6⟩, ⟨[], 'V', 2⟩],
        .ok [⟨[], 'I', 3⟩, ⟨[], 'I', 3⟩, ⟨[], 'V', 2⟩]] ∧
    history.2 = (generate unevenRules 2 whole src).2 := by
  intro src whole history
  obtain ⟨-, hforms, hsource, -⟩ := history_agrees_with_generate unevenRules 2 1 whole src
  have hfirst : 1 ≤ 2 := by decide
  exact ⟨hfirst, hforms 1 hfirst, by decide +kernel, hsource⟩

end ChordGrammar
