import ChordGrammar.Proofs.Grafting
import ChordGrammar.Proofs.Scoping

/-!
# Rewriting commutes with deferred substitution

A pass rewrites a form before its variables are replaced, so a bound value is rewritten once and
then copied. Reading a graft whose sentences are closed is the same as reading the form and then
replacing every occurrence, copies included, by what its leaf became. A pass over a table of closed
productions is such a graft: it expands to the expansion of the old sentence, occurrence by
occurrence.
-/
namespace ChordGrammar

variable {W S P Q M σ : Type}

/-! ## Replacing occurrences -/

/-- The occurrences with each one replaced by those that `G` has for it, under its modulations. -/
def refined (G : S → Q → List (Occurrence S P M)) (os : List (Occurrence S Q M)) :
    List (Occurrence S P M) :=
  os.flatMap fun o => (G o.symbol o.param).map (·.under o.modulations)

variable {g : S → Q → Sentence S P M} {G : S → Q → List (Occurrence S P M)}

@[simp] theorem refined_ofLeaf (s : S) (q : Q) : refined G [.ofLeaf s q] = G s q := by
  simp [refined, Occurrence.ofLeaf]

theorem refined_append (os rest : List (Occurrence S Q M)) :
    refined G (os ++ rest) = refined G os ++ refined G rest := by
  simp [refined]

theorem refined_modulate (m : M) (os : List (Occurrence S Q M)) :
    refined G (os.map (·.modulate m)) = (refined G os).map (·.modulate m) := by
  simp [refined, List.flatMap_map, List.map_flatMap, Occurrence.modulate, Occurrence.under,
    Function.comp_def]

mutual

/-- A graft of sentences that mean the same wherever they stand is read by replacing occurrences. A
bound value is replaced before it is copied, so the two environments differ by the same step. -/
theorem occurrences_graft (hg : ∀ s q ρ, sentenceOccurrences (g s q) ρ = .ok (G s q)) :
    ∀ (t : Term S Q M) (ρ : Bindings S Q M),
      sentenceOccurrences (graft g t) (Option.map (refined G) ∘ ρ) =
        (occurrences t ρ).map (refined G)
  | .leaf s q, ρ => by
    rw [graft, hg, occurrences, Except.map, refined_ofLeaf]
  | .seq ts, ρ => by
    rw [graft, sentenceOccurrences_singleton]
    exact sentenceOccurrences_graftSentence hg ts ρ
  | .modulated m t, ρ => by
    simp only [graft, sentenceOccurrences_singleton, occurrences, occurrences_ofSentence,
      occurrences_graft hg t ρ]
    cases occurrences t ρ with
    | error e => rfl
    | ok os => simp only [Except.map, refined_modulate]
  | .letIn x v b, ρ => by
    simp only [graft, sentenceOccurrences_singleton, occurrences, occurrences_ofSentence,
      occurrences_graft hg v ρ]
    cases occurrences v ρ with
    | error e => rfl
    | ok value =>
      have hupdate : Function.update (Option.map (refined G) ∘ ρ) x (some (refined G value)) =
          Option.map (refined G) ∘ Function.update ρ x (some value) := by
        rw [Function.comp_update, Option.map_some]
      simp only [Except.map, Except.bind, hupdate]
      exact occurrences_graft hg b (Function.update ρ x (some value))
  | .var x, ρ => by
    simp only [graft, sentenceOccurrences_singleton, occurrences, Function.comp_apply]
    cases ρ x <;> rfl

theorem sentenceOccurrences_graftSentence
    (hg : ∀ s q ρ, sentenceOccurrences (g s q) ρ = .ok (G s q)) :
    ∀ (ts : List (Term S Q M)) (ρ : Bindings S Q M),
      sentenceOccurrences (graftSentence g ts) (Option.map (refined G) ∘ ρ) =
        (sentenceOccurrences ts ρ).map (refined G)
  | [], _ => rfl
  | t :: ts, ρ => by
    simp only [graftSentence, sentenceOccurrences_append, sentenceOccurrences,
      occurrences_graft hg t ρ, sentenceOccurrences_graftSentence hg ts ρ]
    cases occurrences t ρ <;> cases sentenceOccurrences ts ρ <;>
      simp [Except.map, Except.bind, refined_append]

end

theorem expandSentence_graftSentence
    (hg : ∀ s q ρ, sentenceOccurrences (g s q) ρ = .ok (G s q)) (ts : Sentence S Q M) :
    expandSentence (graftSentence g ts) = (expandSentence ts).map (refined G) := by
  rw [expandSentence_eq, expandSentence_eq]
  exact sentenceOccurrences_graftSentence hg ts fun _ => none

/-! ## Leaf parameters -/

mutual

theorem graft_leaf (f : P → Q) : ∀ (t : Term S P M),
    graft (fun s p => [.leaf s (f p)]) t = [t.mapParam f]
  | .leaf _ _ => rfl
  | .seq ts => by simp only [graft, Term.mapParam, graftSentence_leaf f ts]
  | .modulated m t => by simp only [graft, Term.mapParam, graft_leaf f t, Term.ofSentence]
  | .letIn x v b => by
    simp only [graft, Term.mapParam, graft_leaf f v, graft_leaf f b, Term.ofSentence]
  | .var _ => rfl

/-- Grafting single leaves changes parameters and nothing else. -/
theorem graftSentence_leaf (f : P → Q) : ∀ (ts : List (Term S P M)),
    graftSentence (fun s p => [.leaf s (f p)]) ts = Term.mapSentenceParam f ts
  | [] => rfl
  | t :: ts => by
    simp only [graftSentence, Term.mapSentenceParam, graft_leaf f t, graftSentence_leaf f ts,
      List.singleton_append]

end

/-- The occurrence with its parameter replaced by its image under `f`. -/
def Occurrence.mapParam (f : P → Q) (o : Occurrence S P M) : Occurrence S Q M :=
  ⟨o.modulations, o.symbol, f o.param⟩

theorem sentenceLeaves_mapSentenceParam (f : P → Q) (ts : Sentence S P M) :
    sentenceLeaves (Term.mapSentenceParam f ts) = (sentenceLeaves ts).map (·.mapParam f) := by
  rw [sentenceLeaves, ← graftSentence_leaf, sentenceLeavesUnder_graftSentence,
    List.map_eq_flatMap]
  rfl

/-- Expansion does not look at parameters. -/
theorem expandSentence_mapParam (f : P → Q) (ts : Sentence S P M) :
    expandSentence (Term.mapSentenceParam f ts) =
      (expandSentence ts).map (·.map (·.mapParam f)) := by
  have hg : ∀ s p ρ, sentenceOccurrences [.leaf s (f p)] ρ =
      .ok [(.ofLeaf s (f p) : Occurrence S Q M)] := fun _ _ _ => rfl
  have hrefined : refined (fun s p => [(.ofLeaf s (f p) : Occurrence S Q M)]) =
      List.map (·.mapParam f) := by
    funext os
    simp [refined, Occurrence.mapParam, Occurrence.under, Occurrence.ofLeaf, List.map_eq_flatMap]
  rw [← graftSentence_leaf, expandSentence_graftSentence hg, hrefined]

/-! ## One pass -/

/-- No rule puts in a variable that it does not bind itself. -/
def RuleTable.BindsItsVariables (table : RuleTable W S P M) : Prop :=
  ∀ r ∈ table.rules, ∀ p, Closed (r.production p)

section Pass

variable [DecidableEq S] [Scalar W]

/-- What stands in place of a leaf is the leaf or the right-hand side of one of its rules. -/
theorem rewriting_cases (table : RuleTable W S P M) (draws : List W) (s : S)
    (leaf : P × Option Nat) :
    rewriting table draws s leaf = [.leaf s leaf.1] ∨
      ∃ r ∈ table.matching s, rewriting table draws s leaf = r.production leaf.1 := by
  cases h : leaf.2.bind fun i => draws[i]?.bind (select (table.matching s)) with
  | none => exact Or.inl (by simp only [rewriting, h])
  | some r =>
    obtain ⟨i, -, hi⟩ := Option.bind_eq_some_iff.mp h
    obtain ⟨x, -, hx⟩ := Option.bind_eq_some_iff.mp hi
    exact Or.inr ⟨r, mem_of_select hx, by simp only [rewriting, h]⟩

theorem closed_rewriting {table : RuleTable W S P M} (htable : table.BindsItsVariables)
    (draws : List W) (s : S) (leaf : P × Option Nat) : Closed (rewriting table draws s leaf) := by
  rcases rewriting_cases table draws s leaf with h | ⟨r, hr, h⟩
  · rw [h]
    rfl
  · rw [h]
    exact htable r (List.mem_of_mem_filter hr) leaf.1

omit [Scalar W] in
/-- A sentence that expands does so with its leaves numbered, each copy keeping its number. -/
theorem exists_copies (table : RuleTable W S P M) {ts : Sentence S P M}
    {es : List (Occurrence S P M)} (hes : expandSentence ts = .ok es) :
    ∃ copies, expandSentence (numbered table ts) = .ok copies ∧
      copies.map (·.mapParam Prod.fst) = es := by
  have h := expandSentence_mapParam Prod.fst (numbered table ts)
  rw [mapSentenceParam_numbered, hes] at h
  cases hn : expandSentence (numbered table ts) with
  | error e => rw [hn] at h; cases h
  | ok copies =>
    rw [hn, Except.map, Except.ok.injEq] at h
    exact ⟨copies, rfl, h.symm⟩

variable [DrawSource σ W]

/-- A pass over a table of closed productions expands like its sentence, with every occurrence
replaced by the expansion of what its leaf became. Errors stay as they were. -/
theorem expandSentence_produce_eq {table : RuleTable W S P M} (htable : table.BindsItsVariables)
    (ts : Sentence S P M) (src : σ) :
    ∃ expansionOf : S → P × Option Nat → List (Occurrence S P M),
      (∀ s leaf, expandSentence (rewriting table
        (drawMany (sentenceOpenLeaves table ts).length src).1 s leaf) =
          .ok (expansionOf s leaf)) ∧
      expandSentence (produce table ts src).1 =
        (expandSentence (numbered table ts)).map (refined expansionOf) := by
  have hex (s : S) (leaf : P × Option Nat) := (closed_rewriting htable
    (drawMany (sentenceOpenLeaves table ts).length src).1 s leaf).exists_expandSentence
  choose expansionOf hof using hex
  refine ⟨expansionOf, hof, ?_⟩
  rw [produce_eq]
  apply expandSentence_graftSentence
  intro s leaf ρ
  rw [(closed_rewriting htable _ s leaf).sentenceOccurrences_eq, hof]

/-- Rewriting commutes with deferred substitution. The occurrences of a sentence are copies of its
leaves, labelled by the leaf that they copy. After a pass, the sentence expands to the expansions of
what the pass put in place of those leaves, one for each copy and under the modulations of the copy.
Two copies of one leaf carry the same number, hence share one draw and one rule. -/
theorem expandSentence_produce {table : RuleTable W S P M} (htable : table.BindsItsVariables)
    (ts : Sentence S P M) (src : σ) {es : List (Occurrence S P M)}
    (hes : expandSentence ts = .ok es) :
    let draws := (drawMany (sentenceOpenLeaves table ts).length src : List W × σ).1
    ∃ (copies : List (Occurrence S (P × Option Nat) M))
      (expansionOf : S → P × Option Nat → List (Occurrence S P M)),
      expandSentence (numbered table ts) = .ok copies ∧
      copies.map (·.mapParam Prod.fst) = es ∧
      (∀ c ∈ copies, LabelledIn table ts c.symbol c.param) ∧
      (produce table ts src).1 = graftSentence (rewriting table draws) (numbered table ts) ∧
      (∀ c ∈ copies, expandSentence (rewriting table draws c.symbol c.param) =
        .ok (expansionOf c.symbol c.param)) ∧
      expandSentence (produce table ts src).1 =
        .ok (copies.flatMap fun c =>
          (expansionOf c.symbol c.param).map (·.under c.modulations)) := by
  intro draws
  obtain ⟨copies, hcopies, hforget⟩ := exists_copies table hes
  obtain ⟨expansionOf, hof, hproduce⟩ := expandSentence_produce_eq htable ts src
  refine ⟨copies, expansionOf, hcopies, hforget, ?_, ?_, fun c _ => hof c.symbol c.param, ?_⟩
  · exact forall_expandSentence (labelledIn_of_mem_sentenceLeaves table ts) hcopies
  · rw [produce_eq]
  · rw [hproduce, hcopies]
    rfl

end Pass

/-- Two rules for one symbol; the second brings in a let and a modulation. -/
def phraseRules : RuleTable Rat Char Nat Nat where
  rules :=
    [⟨'I', 1 / 2, fun p => [.leaf 'I' p, .leaf 'V' p]⟩,
      ⟨'I', 1 / 2, fun p => [.letIn "x" (.leaf 'A' p) (.modulated 2 (.seq [.var "x", .var "x"]))]⟩]

/-- A leaf bound once and used twice, beside an open leaf of its own. -/
def phrase : Sentence Char Nat Nat :=
  [.letIn "x" (.leaf 'I' 1) (.seq [.var "x", .modulated 5 (.var "x"), .leaf 'I' 2, .leaf 'V' 3])]

theorem expandSentence_produce_phrase :
    let src : Cycle Rat := ⟨[3 / 4, 1 / 4], List.cons_ne_nil _ _, 0⟩
    phraseRules.BindsItsVariables ∧
    expandSentence phrase = .ok [⟨[], 'I', 1⟩, ⟨[5], 'I', 1⟩, ⟨[], 'I', 2⟩, ⟨[], 'V', 3⟩] ∧
    expandSentence (produce phraseRules phrase src).1 =
      .ok [⟨[2], 'A', 1⟩, ⟨[2], 'A', 1⟩, ⟨[5, 2], 'A', 1⟩, ⟨[5, 2], 'A', 1⟩,
        ⟨[], 'I', 2⟩, ⟨[], 'V', 2⟩, ⟨[], 'V', 3⟩] ∧
    ∃ (copies : List (Occurrence Char (Nat × Option Nat) Nat))
      (expansionOf : Char → Nat × Option Nat → List (Occurrence Char Nat Nat)),
      expandSentence (numbered phraseRules phrase) = .ok copies ∧
      expandSentence (produce phraseRules phrase src).1 =
        .ok (copies.flatMap fun c =>
          (expansionOf c.symbol c.param).map (·.under c.modulations)) := by
  intro src
  have hrules : phraseRules.BindsItsVariables := by
    intro r hr p
    simp only [phraseRules, List.mem_cons, List.not_mem_nil, or_false] at hr
    rcases hr with rfl | rfl <;> rfl
  have hphrase : expandSentence phrase =
      .ok [⟨[], 'I', 1⟩, ⟨[5], 'I', 1⟩, ⟨[], 'I', 2⟩, ⟨[], 'V', 3⟩] := rfl
  have hrewritten : expandSentence (produce phraseRules phrase src).1 =
      .ok [⟨[2], 'A', 1⟩, ⟨[2], 'A', 1⟩, ⟨[5, 2], 'A', 1⟩, ⟨[5, 2], 'A', 1⟩,
        ⟨[], 'I', 2⟩, ⟨[], 'V', 2⟩, ⟨[], 'V', 3⟩] := by decide +kernel
  obtain ⟨copies, expansionOf, hcopies, -, -, -, -, hproduce⟩ :=
    expandSentence_produce hrules phrase src hphrase
  exact ⟨hrules, hphrase, hrewritten, copies, expansionOf, hcopies, hproduce⟩

end ChordGrammar
