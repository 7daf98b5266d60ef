import ChordGrammar.Proofs.Scoping

/-!
# What expansion takes from its environment

Expansion only borrows its environment: whatever scopes it opens are closed again on every way out,
and the scopes below them are never touched. What it reads there are the values of the free
references of its term. It needs them all, also those in a value that is never used, and asks for
them in reading order, so it fails exactly at the first one that has no value.
-/
namespace ChordGrammar

variable {S P M : Type}

/-- Expansion leaves its environment as it was, scope by scope, whether it succeeds or fails, and
however many lets are open where it fails. -/
theorem expand_leaves_environment (env : Environment S P M) :
    (∀ t : Term S P M, (expand t env).2 = env) ∧
    ∀ ts : List (Term S P M), (expandAll ts env).2 = env := by
  constructor
  · intro t
    rw [expand_eq t env]
  · intro ts
    rw [expandAll_eq ts env]

example :
    let env : Environment Char Nat Nat := ⟨[("x", [.ofLeaf 'N' 1]), ("x", [.ofLeaf 'O' 0])]⟩
    expand (.letIn "x" (.leaf 'A' 1) (.letIn "y" (.var "x") (.var "z"))) env =
      (.error ⟨"z"⟩, env) := rfl

/-! ## References -/

/-- A variable at its place: its name and the names of the lets whose bodies it stands in, outermost
first. -/
structure Reference where
  name : String
  binders : List String
  deriving DecidableEq

/-- None of the lets whose bodies hold the reference binds its name. -/
def Reference.Free (r : Reference) : Prop := r.name ∉ r.binders

instance : DecidablePred Reference.Free := fun r => inferInstanceAs (Decidable (r.name ∉ r.binders))

mutual

/-- The references of a term in reading order, when it stands in the bodies of lets that bind
`binders`. A let's value comes before its body and is not part of it. -/
def referencesUnder (binders : List String) : Term S P M → List Reference
  | .leaf _ _ => []
  | .seq ts => sentenceReferencesUnder binders ts
  | .modulated _ t => referencesUnder binders t
  | .letIn x v b => referencesUnder binders v ++ referencesUnder (binders ++ [x]) b
  | .var x => [⟨x, binders⟩]

/-- The references of a list of terms, one term after the other. -/
def sentenceReferencesUnder (binders : List String) : List (Term S P M) → List Reference
  | [] => []
  | t :: ts => referencesUnder binders t ++ sentenceReferencesUnder binders ts

end

/-- The references of a term that no let encloses. -/
def references (t : Term S P M) : List Reference := referencesUnder [] t

mutual

theorem map_name_filter_free : ∀ (t : Term S P M) (binders : List String),
    ((referencesUnder binders t).filter (·.Free)).map (·.name) =
      (freeNames t).filter (· ∉ binders)
  | .leaf _ _, _ => rfl
  | .seq ts, binders => map_name_filter_free_sentence ts binders
  | .modulated _ t, binders => map_name_filter_free t binders
  | .letIn x v b, binders => by
    have hv := map_name_filter_free v binders
    have hb := map_name_filter_free b (binders ++ [x])
    have hhidden : (freeNames b).filter (· ∉ binders ++ [x]) =
        ((freeNames b).filter (· ≠ x)).filter (· ∉ binders) := by
      rw [List.filter_filter]
      congr 1
      funext y
      simp
    simp only [referencesUnder, freeNames, List.filter_append, List.map_append, hv, hb, hhidden]
  | .var x, binders => by
    by_cases h : x ∈ binders <;> simp [referencesUnder, freeNames, Reference.Free, h]

theorem map_name_filter_free_sentence : ∀ (ts : List (Term S P M)) (binders : List String),
    ((sentenceReferencesUnder binders ts).filter (·.Free)).map (·.name) =
      (sentenceFreeNames ts).filter (· ∉ binders)
  | [], _ => rfl
  | t :: ts, binders => by
    have ht := map_name_filter_free t binders
    have hts := map_name_filter_free_sentence ts binders
    simp only [sentenceReferencesUnder, sentenceFreeNames, List.filter_append, List.map_append,
      ht, hts]

end

/-- The free names of a term are those of its free references, in the same order. -/
theorem freeNames_eq_map_name (t : Term S P M) :
    freeNames t = ((references t).filter (·.Free)).map (·.name) := by
  rw [references, map_name_filter_free, List.filter_eq_self.mpr]
  simp

theorem mem_freeNames {t : Term S P M} {x : String} :
    x ∈ freeNames t ↔ ∃ r ∈ references t, r.Free ∧ r.name = x := by
  simp [freeNames_eq_map_name, and_assoc]

/-! ## The reference that fails -/

/-- The reference is free and the environment has no value for it. -/
def Environment.Misses (env : Environment S P M) (r : Reference) : Prop :=
  r.Free ∧ env.lookup r.name = none

instance (env : Environment S P M) : DecidablePred env.Misses :=
  fun r => inferInstanceAs (Decidable (r.Free ∧ env.lookup r.name = none))

theorem unboundName_expand (t : Term S P M) (env : Environment S P M) :
    unboundName (expand t env).1 = ((references t).find? (env.Misses ·)).map (·.name) := by
  have hmisses (r : Reference) :
      (decide r.Free && (env.lookup r.name).isNone) = decide (env.Misses r) := by
    rw [Bool.eq_iff_iff, decide_eq_true_iff]
    simp [Environment.Misses]
  calc unboundName (expand t env).1
    _ = firstUnbound env.lookup (freeNames t) := by rw [expand_eq, unboundName_occurrences]
    _ = (((references t).filter (·.Free)).find? fun r => (env.lookup r.name).isNone).map
          (·.name) := by
      rw [freeNames_eq_map_name, firstUnbound, List.find?_map]
      rfl
    _ = ((references t).find? (env.Misses ·)).map (·.name) := by
      rw [List.find?_filter]
      simp only [Bool.decide_and, Bool.decide_eq_true, hmisses]

theorem expand_eq_error_iff {t : Term S P M} {env : Environment S P M} {e : UnboundVariable} :
    (expand t env).1 = .error e ↔
      ∃ r, (references t).find? (env.Misses ·) = some r ∧ e = ⟨r.name⟩ := by
  rw [eq_error_iff, unboundName_expand, Option.map_eq_some_iff]
  refine exists_congr fun r => and_congr_right fun _ => ?_
  constructor
  · rintro h
    rw [h]
  · rintro rfl
    rfl

/-- Expansion depends on the free references alone and fails exactly at the first one that has no
value. Two environments that agree on the names of the free references give the same result; an
expansion fails if and only if some free reference has no value; and the name that it reports is the
name of the first such reference in reading order. -/
theorem expand_by_free_references (t : Term S P M) :
    (∀ env env' : Environment S P M,
      (∀ r ∈ references t, r.Free → env.lookup r.name = env'.lookup r.name) →
        (expand t env).1 = (expand t env').1) ∧
    ∀ env : Environment S P M,
      ((∃ e, (expand t env).1 = .error e) ↔
        ∃ r ∈ references t, r.Free ∧ env.lookup r.name = none) ∧
      ∀ e, (expand t env).1 = .error e ↔
        ∃ before r after, references t = before ++ r :: after ∧ env.Misses r ∧
          (∀ q ∈ before, ¬env.Misses q) ∧ e = ⟨r.name⟩ := by
  refine ⟨fun env env' hagree => ?_, fun env => ⟨?_, fun e => ?_⟩⟩
  · have hlookup : ∀ x ∈ freeNames t, env.lookup x = env'.lookup x := by
      intro x hx
      obtain ⟨r, hr, hfree, rfl⟩ := mem_freeNames.mp hx
      exact hagree r hr hfree
    rw [expand_eq, expand_eq, occurrences_congr t hlookup]
  · calc (∃ e, (expand t env).1 = .error e)
      _ ↔ ∃ r, (references t).find? (env.Misses ·) = some r := by
        simp only [expand_eq_error_iff]
        exact ⟨fun ⟨_, r, hr, _⟩ => ⟨r, hr⟩, fun ⟨r, hr⟩ => ⟨_, r, hr, rfl⟩⟩
      _ ↔ ∃ r ∈ references t, env.Misses r := by
        rw [← Option.isSome_iff_exists, List.find?_isSome]
        simp only [decide_eq_true_eq]
  · rw [expand_eq_error_iff]
    constructor
    · rintro ⟨r, hr, rfl⟩
      obtain ⟨hmiss, before, after, hreferences, hbefore⟩ :=
        List.find?_eq_some_iff_append.mp hr
      refine ⟨before, r, after, hreferences, of_decide_eq_true hmiss, fun q hq => ?_, rfl⟩
      simpa using hbefore q hq
    · rintro ⟨before, r, after, hreferences, hmiss, hbefore, rfl⟩
      refine ⟨r, List.find?_eq_some_iff_append.mpr ⟨decide_eq_true hmiss, before, after,
        hreferences, fun q hq => ?_⟩, rfl⟩
      simpa using hbefore q hq

/-- The value of `x` is never used and reads `y`; the inner let reads `y` from outside itself. -/
def unusedValue : Term Char Nat Nat :=
  .letIn "x" (.seq [.leaf 'A' 1, .var "y"]) (.seq [.letIn "y" (.var "y") (.var "y"), .var "z"])

theorem expand_unusedValue :
    let nested : Environment Char Nat Nat :=
      ⟨[("y", [.ofLeaf 'B' 2]), ("x", []), ("y", [.ofLeaf 'C' 3]), ("z", [⟨[5], 'D', 4⟩])]⟩
    let flat : Environment Char Nat Nat := ⟨[("z", [⟨[5], 'D', 4⟩]), ("y", [.ofLeaf 'B' 2])]⟩
    let other : Environment Char Nat Nat := ⟨[("x", []), ("z", [])]⟩
    references unusedValue = [⟨"y", []⟩, ⟨"y", ["x"]⟩, ⟨"y", ["x", "y"]⟩, ⟨"z", ["x"]⟩] ∧
    (∀ r ∈ references unusedValue, r.Free → nested.lookup r.name = flat.lookup r.name) ∧
    (expand unusedValue nested).1 = (expand unusedValue flat).1 ∧
    (expand unusedValue flat).1 = .ok [⟨[], 'B', 2⟩, ⟨[5], 'D', 4⟩] ∧
    (expand unusedValue other).1 = .error ⟨"y"⟩ := by
  intro nested flat other
  have hreferences : references unusedValue =
      [⟨"y", []⟩, ⟨"y", ["x"]⟩, ⟨"y", ["x", "y"]⟩, ⟨"z", ["x"]⟩] := rfl
  have hagree : ∀ r ∈ references unusedValue, r.Free →
      nested.lookup r.name = flat.lookup r.name := by decide
  obtain ⟨hsame, hfails⟩ := expand_by_free_references unusedValue
  refine ⟨hreferences, hagree, hsame nested flat hagree, rfl, ?_⟩
  refine ((hfails other).2 ⟨"y"⟩).mpr ⟨[], ⟨"y", []⟩, _, hreferences, by decide, ?_, rfl⟩
  exact fun q hq => absurd hq List.not_mem_nil

end ChordGrammar
