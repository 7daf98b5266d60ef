import Mathlib.Logic.Function.Basic
import ChordGrammar.Grammar.Expansion
import ChordGrammar.Proofs.Leaves

/-!
# Scoping

What a term expands to depends only on what its free variables stand for. `occurrences` reads a
term under a function from names to values; `expand_eq` says that expansion computes this reading
from the look-up of its environment and hands the environment back as it was. A term without free
variables therefore expands, and to the same occurrences wherever it stands.
-/
namespace ChordGrammar

variable {S P M : Type}

/-- What each name stands for. -/
abbrev Bindings (S P M : Type) := String → Option (List (Occurrence S P M))

/-! ## Reading a term under bindings -/

mutual

/-- The occurrences that a term stands for. A let rebinds its name for the body alone. -/
def occurrences : Term S P M → Bindings S P M →
    Except UnboundVariable (List (Occurrence S P M))
  | .leaf s p, _ => .ok [.ofLeaf s p]
  | .seq ts, ρ => sentenceOccurrences ts ρ
  | .modulated m t, ρ => (occurrences t ρ).map (·.map (·.modulate m))
  | .letIn x v b, ρ =>
    (occurrences v ρ).bind fun value => occurrences b (Function.update ρ x (some value))
  | .var x, ρ =>
    match ρ x with
    | some value => .ok value
    | none => .error ⟨x⟩

/-- The occurrences that a list of terms stands for, one term after the other. -/
def sentenceOccurrences : List (Term S P M) → Bindings S P M →
    Except UnboundVariable (List (Occurrence S P M))
  | [], _ => .ok []
  | t :: ts, ρ => (occurrences t ρ).bind fun os => (sentenceOccurrences ts ρ).map (os ++ ·)

end

namespace Environment

@[simp] theorem unbind_bind (env : Environment S P M) (x : String)
    (value : List (Occurrence S P M)) : (env.bind x value).unbind = env := rfl

theorem lookup_bind (env : Environment S P M) (x : String) (value : List (Occurrence S P M)) :
    (env.bind x value).lookup = Function.update env.lookup x (some value) := by
  funext y
  by_cases h : y = x
  · simp [lookup, bind, h]
  · have hne : (y == x) = false := by simpa using h
    simp [lookup, bind, List.lookup_cons, h, hne]

end Environment

mutual

/-- Expansion reads its term under the look-up of its environment, which it leaves untouched. -/
theorem expand_eq : ∀ (t : Term S P M) (env : Environment S P M),
    expand t env = (occurrences t env.lookup, env)
  | .leaf s p, env => rfl
  | .seq ts, env => by simp only [expand, occurrences, expandAll_eq ts env]
  | .modulated m t, env => by simp only [expand, occurrences, expand_eq t env]
  | .letIn x v b, env => by
    simp only [expand, occurrences, expand_eq v env]
    cases occurrences v env.lookup with
    | error e => rfl
    | ok value =>
      simp only [expand_eq b, Environment.lookup_bind, Environment.unbind_bind]
      rfl
  | .var x, env => by
    simp only [expand, occurrences]
    cases env.lookup x <;> rfl

theorem expandAll_eq : ∀ (ts : List (Term S P M)) (env : Environment S P M),
    expandAll ts env = (sentenceOccurrences ts env.lookup, env)
  | [], env => rfl
  | t :: ts, env => by
    simp only [expandAll, sentenceOccurrences, expand_eq t env]
    cases occurrences t env.lookup with
    | error e => rfl
    | ok os =>
      simp only [expandAll_eq ts env]
      rfl

end

/-- A sentence that nothing encloses is read with every name unbound. -/
theorem expandSentence_eq (ts : Sentence S P M) :
    expandSentence ts = sentenceOccurrences ts fun _ => none := by
  rw [expandSentence, expandAll_eq]
  rfl

/-! ## Sentences as terms -/

theorem sentenceOccurrences_append (ts us : List (Term S P M)) (ρ : Bindings S P M) :
    sentenceOccurrences (ts ++ us) ρ =
      (sentenceOccurrences ts ρ).bind fun os => (sentenceOccurrences us ρ).map (os ++ ·) := by
  induction ts with
  | nil =>
    cases h : sentenceOccurrences us ρ <;>
      simp [sentenceOccurrences, h, Except.bind, Except.map]
  | cons t ts ih =>
    simp only [List.cons_append, sentenceOccurrences, ih]
    cases occurrences t ρ <;> cases sentenceOccurrences ts ρ <;> cases sentenceOccurrences us ρ <;>
      simp [Except.bind, Except.map]

theorem sentenceOccurrences_singleton (t : Term S P M) (ρ : Bindings S P M) :
    sentenceOccurrences [t] ρ = occurrences t ρ := by
  cases h : occurrences t ρ <;> simp [sentenceOccurrences, h, Except.bind, Except.map]

/-- Collapsing a sentence to one term does not change what it stands for. -/
theorem occurrences_ofSentence (ts : Sentence S P M) (ρ : Bindings S P M) :
    occurrences (.ofSentence ts) ρ = sentenceOccurrences ts ρ := by
  match ts with
  | [] => rfl
  | [t] => exact (sentenceOccurrences_singleton t ρ).symm
  | _ :: _ :: _ => rfl

mutual

/-- Whatever holds of the leaves of a term and of the values that it is read with, holds of its
occurrences. -/
theorem forall_occurrences {p : S → P → Prop} :
    ∀ (t : Term S P M) (path : List M) {ρ : Bindings S P M} {os : List (Occurrence S P M)},
      (∀ l ∈ leavesUnder path t, p l.symbol l.param) →
      (∀ x value, ρ x = some value → ∀ o ∈ value, p o.symbol o.param) →
      occurrences t ρ = .ok os → ∀ o ∈ os, p o.symbol o.param
  | .leaf s q, path, _, _, hl, _, hos => by
    simp only [occurrences, Except.ok.injEq] at hos
    subst hos
    intro o ho
    rw [List.mem_singleton.mp ho]
    exact hl ⟨path, s, q⟩ (by simp [leavesUnder])
  | .seq ts, path, _, _, hl, hρ, hos => forall_sentenceOccurrences ts path hl hρ hos
  | .modulated m t, path, ρ, _, hl, hρ, hos => by
    cases ht : occurrences t ρ with
    | error e => simp [occurrences, ht, Except.map] at hos
    | ok us =>
      simp only [occurrences, ht, Except.map, Except.ok.injEq] at hos
      subst hos
      intro o ho
      obtain ⟨u, hu, rfl⟩ := List.mem_map.mp ho
      exact forall_occurrences t (path ++ [m]) hl hρ ht u hu
  | .letIn x v b, path, ρ, _, hl, hρ, hos => by
    cases hv : occurrences v ρ with
    | error e => simp [occurrences, hv, Except.bind] at hos
    | ok value =>
      simp only [occurrences, hv, Except.bind] at hos
      have hvalue := forall_occurrences v path
        (fun l hlv => hl l (List.mem_append_left _ hlv)) hρ hv
      refine forall_occurrences b path (fun l hlb => hl l (List.mem_append_right _ hlb)) ?_ hos
      intro y w hw
      by_cases hyx : y = x
      · subst y
        rw [Function.update_self, Option.some.injEq] at hw
        exact hw ▸ hvalue
      · rw [Function.update_of_ne hyx] at hw
        exact hρ y w hw
  | .var x, _, ρ, os, _, hρ, hos => by
    cases hx : ρ x with
    | none => simp [occurrences, hx] at hos
    | some value =>
      simp only [occurrences, hx, Except.ok.injEq] at hos
      exact hos ▸ hρ x value hx

theorem forall_sentenceOccurrences {p : S → P → Prop} :
    ∀ (ts : List (Term S P M)) (path : List M) {ρ : Bindings S P M}
      {os : List (Occurrence S P M)},
      (∀ l ∈ sentenceLeavesUnder path ts, p l.symbol l.param) →
      (∀ x value, ρ x = some value → ∀ o ∈ value, p o.symbol o.param) →
      sentenceOccurrences ts ρ = .ok os → ∀ o ∈ os, p o.symbol o.param
  | [], _, _, _, _, _, hos => by
    simp only [sentenceOccurrences, Except.ok.injEq] at hos
    simp [← hos]
  | t :: ts, path, ρ, _, hl, hρ, hos => by
    cases ht : occurrences t ρ with
    | error e => simp [sentenceOccurrences, ht, Except.bind] at hos
    | ok us =>
      cases hts : sentenceOccurrences ts ρ with
      | error e => simp [sentenceOccurrences, ht, hts, Except.bind, Except.map] at hos
      | ok rest =>
        simp only [sentenceOccurrences, ht, hts, Except.bind, Except.map, Except.ok.injEq] at hos
        subst hos
        intro o ho
        rcases List.mem_append.mp ho with hus | hrest
        · exact forall_occurrences t path (fun l hlt => hl l (List.mem_append_left _ hlt)) hρ ht
            o hus
        · exact forall_sentenceOccurrences ts path
            (fun l hlts => hl l (List.mem_append_right _ hlts)) hρ hts o hrest

end

/-- The occurrences of an expansion are copies of leaves of the sentence. -/
theorem forall_expandSentence {p : S → P → Prop} {ts : Sentence S P M}
    {os : List (Occurrence S P M)} (h : ∀ l ∈ sentenceLeaves ts, p l.symbol l.param)
    (hos : expandSentence ts = .ok os) : ∀ o ∈ os, p o.symbol o.param := by
  rw [expandSentence_eq] at hos
  exact forall_sentenceOccurrences ts [] h (by simp) hos

/-! ## Free variables -/

mutual

/-- The names of the variables that no let of the term binds, in reading order. A let's value is
outside its scope. -/
def freeNames : Term S P M → List String
  | .leaf _ _ => []
  | .seq ts => sentenceFreeNames ts
  | .modulated _ t => freeNames t
  | .letIn x v b => freeNames v ++ (freeNames b).filter (· ≠ x)
  | .var x => [x]

/-- The free names of a list of terms, in reading order. -/
def sentenceFreeNames : List (Term S P M) → List String
  | [] => []
  | t :: ts => freeNames t ++ sentenceFreeNames ts

end

/-- Every variable of the sentence stands in the body of a let of its name. -/
def Closed (ts : Sentence S P M) : Prop := sentenceFreeNames ts = []

instance (ts : Sentence S P M) : Decidable (Closed ts) :=
  inferInstanceAs (Decidable (sentenceFreeNames ts = []))

@[simp] theorem mem_freeNames_letIn {x y : String} {v b : Term S P M} :
    y ∈ freeNames (.letIn x v b) ↔ y ∈ freeNames v ∨ y ∈ freeNames b ∧ y ≠ x := by
  simp [freeNames]

/-- Every one of the names stands for something. -/
def Covers (ρ : Bindings S P M) (names : List String) : Prop :=
  ∀ x ∈ names, ∃ value, ρ x = some value

namespace Covers

variable {ρ : Bindings S P M} {x : String} {v b : Term S P M}

theorem value (h : Covers ρ (freeNames (.letIn x v b))) : Covers ρ (freeNames v) :=
  fun y hy => h y (mem_freeNames_letIn.mpr (Or.inl hy))

/-- What covers a let covers its body once the name of the let is bound. -/
theorem body (h : Covers ρ (freeNames (.letIn x v b))) (os : List (Occurrence S P M)) :
    Covers (Function.update ρ x (some os)) (freeNames b) := by
  intro y hy
  by_cases hyx : y = x
  · exact ⟨os, by simp [hyx]⟩
  · simpa only [Function.update_of_ne hyx] using h y (mem_freeNames_letIn.mpr (Or.inr ⟨hy, hyx⟩))

theorem head {t : Term S P M} {ts : List (Term S P M)}
    (h : Covers ρ (sentenceFreeNames (t :: ts))) : Covers ρ (freeNames t) :=
  fun y hy => h y (by simp [sentenceFreeNames, hy])

theorem tail {t : Term S P M} {ts : List (Term S P M)}
    (h : Covers ρ (sentenceFreeNames (t :: ts))) : Covers ρ (sentenceFreeNames ts) :=
  fun y hy => h y (by simp [sentenceFreeNames, hy])

end Covers

mutual

/-- Bindings that agree on the free names give the same reading. -/
theorem occurrences_congr : ∀ (t : Term S P M) {ρ ρ' : Bindings S P M},
    (∀ x ∈ freeNames t, ρ x = ρ' x) → occurrences t ρ = occurrences t ρ'
  | .leaf _ _, _, _, _ => rfl
  | .seq ts, _, _, h => sentenceOccurrences_congr ts h
  | .modulated _ t, _, _, h => by simp only [occurrences, occurrences_congr t h]
  | .letIn x v b, ρ, ρ', h => by
    have hv := occurrences_congr v fun y hy => h y (mem_freeNames_letIn.mpr (Or.inl hy))
    simp only [occurrences, hv]
    congr 1
    funext value
    apply occurrences_congr b
    intro y hy
    by_cases hyx : y = x
    · simp [hyx]
    · simpa only [Function.update_of_ne hyx] using
        h y (mem_freeNames_letIn.mpr (Or.inr ⟨hy, hyx⟩))
  | .var x, _, _, h => by simp only [occurrences, h x (by simp [freeNames])]

theorem sentenceOccurrences_congr : ∀ (ts : List (Term S P M)) {ρ ρ' : Bindings S P M},
    (∀ x ∈ sentenceFreeNames ts, ρ x = ρ' x) →
      sentenceOccurrences ts ρ = sentenceOccurrences ts ρ'
  | [], _, _, _ => rfl
  | t :: ts, _, _, h => by
    simp only [sentenceOccurrences,
      occurrences_congr t fun y hy => h y (by simp [sentenceFreeNames, hy]),
      sentenceOccurrences_congr ts fun y hy => h y (by simp [sentenceFreeNames, hy])]

end

/-! ## The name that a failed reading reports -/

/-- The name in the error, if there is an error. -/
def unboundName {α : Type} : Except UnboundVariable α → Option String
  | .ok _ => none
  | .error e => some e.name

section UnboundName

variable {α β : Type}

theorem exists_ok_iff {r : Except UnboundVariable α} :
    (∃ a, r = .ok a) ↔ unboundName r = none := by
  cases r <;> simp [unboundName]

theorem eq_error_iff {r : Except UnboundVariable α} {e : UnboundVariable} :
    r = .error e ↔ unboundName r = some e.name := by
  cases r with
  | ok a => simp [unboundName]
  | error d =>
    obtain ⟨x⟩ := d
    obtain ⟨y⟩ := e
    simp [unboundName]

@[simp] theorem unboundName_map (f : α → β) (r : Except UnboundVariable α) :
    unboundName (r.map f) = unboundName r := by
  cases r <;> rfl

end UnboundName

/-- The first of the names that stands for nothing. -/
def firstUnbound (ρ : Bindings S P M) (names : List String) : Option String :=
  names.find? fun x => (ρ x).isNone

theorem firstUnbound_append (ρ : Bindings S P M) (xs ys : List String) :
    firstUnbound ρ (xs ++ ys) = (firstUnbound ρ xs).or (firstUnbound ρ ys) :=
  List.find?_append

/-- Leaving a name out of the search is the same as binding it. -/
theorem firstUnbound_filter_ne (ρ : Bindings S P M) (x : String)
    (value : List (Occurrence S P M)) (names : List String) :
    firstUnbound ρ (names.filter (· ≠ x)) =
      firstUnbound (Function.update ρ x (some value)) names := by
  rw [firstUnbound, firstUnbound, List.find?_filter]
  congr 1
  funext y
  by_cases h : y = x
  · simp [h]
  · rw [Function.update_of_ne h]
    simp only [ne_eq, h, not_false_eq_true, decide_true, true_and, Bool.decide_eq_true]

theorem firstUnbound_eq_none_iff {ρ : Bindings S P M} {names : List String} :
    firstUnbound ρ names = none ↔ Covers ρ names := by
  simp [firstUnbound, Covers, Option.isSome_iff_exists, ← Option.isSome_iff_ne_none]

mutual

/-- Reading a term fails at the first free name that stands for nothing, and only there. -/
theorem unboundName_occurrences : ∀ (t : Term S P M) (ρ : Bindings S P M),
    unboundName (occurrences t ρ) = firstUnbound ρ (freeNames t)
  | .leaf _ _, _ => rfl
  | .seq ts, ρ => unboundName_sentenceOccurrences ts ρ
  | .modulated _ t, ρ => by
    simp only [occurrences, unboundName_map, freeNames, unboundName_occurrences t ρ]
  | .letIn x v b, ρ => by
    have hv := unboundName_occurrences v ρ
    rw [freeNames, firstUnbound_append, ← hv, occurrences]
    cases occurrences v ρ with
    | error e => rfl
    | ok value =>
      rw [firstUnbound_filter_ne ρ x value]
      exact unboundName_occurrences b (Function.update ρ x (some value))
  | .var x, ρ => by
    cases h : ρ x <;> simp [occurrences, freeNames, firstUnbound, unboundName, h]

theorem unboundName_sentenceOccurrences : ∀ (ts : List (Term S P M)) (ρ : Bindings S P M),
    unboundName (sentenceOccurrences ts ρ) = firstUnbound ρ (sentenceFreeNames ts)
  | [], _ => rfl
  | t :: ts, ρ => by
    have ht := unboundName_occurrences t ρ
    rw [sentenceFreeNames, firstUnbound_append, ← ht, sentenceOccurrences]
    cases occurrences t ρ with
    | error e => rfl
    | ok os =>
      simp only [Except.bind, unboundName_map, unboundName_sentenceOccurrences ts ρ]
      rfl

end

/-- A sentence that nothing encloses fails at the first of its free names. -/
theorem unboundName_expandSentence (ts : Sentence S P M) :
    unboundName (expandSentence ts) = (sentenceFreeNames ts).head? := by
  rw [expandSentence_eq, unboundName_sentenceOccurrences, firstUnbound]
  cases sentenceFreeNames ts <;> rfl

/-- A term whose free names are all bound stands for something. -/
theorem exists_occurrences (t : Term S P M) {ρ : Bindings S P M} (h : Covers ρ (freeNames t)) :
    ∃ os, occurrences t ρ = .ok os := by
  rw [exists_ok_iff, unboundName_occurrences]
  exact firstUnbound_eq_none_iff.mpr h

namespace Closed

variable {ts : Sentence S P M}

/-- A closed sentence means the same wherever it stands. -/
theorem sentenceOccurrences_eq (h : Closed ts) (ρ : Bindings S P M) :
    sentenceOccurrences ts ρ = expandSentence ts := by
  rw [expandSentence_eq]
  exact sentenceOccurrences_congr ts fun x hx => absurd (h ▸ hx) (List.not_mem_nil)

/-- Every closed sentence expands. -/
theorem exists_expandSentence (h : Closed ts) : ∃ os, expandSentence ts = .ok os := by
  rw [exists_ok_iff, unboundName_expandSentence, h]
  rfl

end Closed

end ChordGrammar
