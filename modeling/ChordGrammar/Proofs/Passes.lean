import ChordGrammar.Music.Progression
import ChordGrammar.Proofs.DeferredSubstitution

/-!
# What every pass keeps

Over a table of closed productions a run can be followed on expanded sentences alone: a pass keeps
an occurrence or puts in its place what one of its rules expands to, under the same modulations. A
property of flat lists that survives such a step therefore holds after any number of passes, and
the sentence still expands. The property may speak of the number of passes so far.
-/
namespace ChordGrammar

variable {W S P M σ : Type} [DecidableEq S]

/-- What a pass may put in place of an occurrence. -/
inductive Rewritten (table : RuleTable W S P M) (o : Occurrence S P M) :
    List (Occurrence S P M) → Prop where
  | kept : Rewritten table o [o]
  | replaced {r : Rule W S P M} {os : List (Occurrence S P M)} (hr : r ∈ table.matching o.symbol)
      (hos : expandSentence (r.production o.param) = .ok os) :
      Rewritten table o (os.map (·.under o.modulations))

omit [DecidableEq S] in
/-- Every right-hand side of the rule expands, and to occurrences with the property. -/
def Rule.Yields (motive : S → P → List (Occurrence S P M) → Prop) (r : Rule W S P M) : Prop :=
  ∀ p, ∃ os, expandSentence (r.production p) = .ok os ∧ motive r.symbol p os

/-- An occurrence stays, or what a rule yields for it takes its place under its modulations. -/
theorem Rewritten.eq_or_yields {motive : S → P → List (Occurrence S P M) → Prop}
    {table : RuleTable W S P M} (htable : ∀ r ∈ table.rules, r.Yields motive)
    {o : Occurrence S P M} {piece : List (Occurrence S P M)} (h : Rewritten table o piece) :
    piece = [o] ∨ ∃ os, motive o.symbol o.param os ∧ piece = os.map (·.under o.modulations) := by
  cases h with
  | kept => exact Or.inl rfl
  | @replaced r os hr hos =>
    obtain ⟨hmem, hsymbol⟩ := List.mem_filter.mp hr
    obtain ⟨yielded, hyielded, hmotive⟩ := htable r hmem o.param
    rw [hos, Except.ok.injEq] at hyielded
    rw [of_decide_eq_true hsymbol, ← hyielded] at hmotive
    exact Or.inr ⟨os, hmotive, rfl⟩

variable [Scalar W] [DrawSource σ W] {table : RuleTable W S P M}

/-- The step: after a pass, the sentence expands to one piece for each occurrence before it. -/
theorem exists_pieces (htable : table.BindsItsVariables) {ts : Sentence S P M}
    {es : List (Occurrence S P M)} (hes : expandSentence ts = .ok es) (src : σ) :
    ∃ pieces, List.Forall₂ (Rewritten table) es pieces ∧
      expandSentence (produce table ts src).1 = .ok pieces.flatten := by
  obtain ⟨copies, hcopies, rfl⟩ := exists_copies table hes
  obtain ⟨expansionOf, hof, hproduce⟩ := expandSentence_produce_eq htable ts src
  let piece (c : Occurrence S (P × Option Nat) M) : List (Occurrence S P M) :=
    (expansionOf c.symbol c.param).map (·.under c.modulations)
  refine ⟨copies.map piece, ?_, ?_⟩
  · rw [List.forall₂_map_left_iff, List.forall₂_map_right_iff, List.forall₂_same]
    intro c _
    have hc := hof c.symbol c.param
    rcases rewriting_cases table (drawMany (sentenceOpenLeaves table ts).length src).1
      c.symbol c.param with hkept | ⟨r, hr, hreplaced⟩
    · rw [hkept] at hc
      have hone : expansionOf c.symbol c.param = [.ofLeaf c.symbol c.param.1] :=
        (Except.ok.inj hc).symm
      simpa [piece, hone, Occurrence.under, Occurrence.ofLeaf, Occurrence.mapParam] using
        (Rewritten.kept : Rewritten table (c.mapParam Prod.fst) _)
    · rw [hreplaced] at hc
      exact .replaced (o := c.mapParam Prod.fst) hr hc
  · rw [hproduce, hcopies, ← List.flatMap_def]
    rfl

omit [Scalar W] in
/-- Every occurrence after a pass comes from one before it. -/
theorem exists_rewritten_of_mem {es : List (Occurrence S P M)}
    {pieces : List (List (Occurrence S P M))} (h : List.Forall₂ (Rewritten table) es pieces)
    {o : Occurrence S P M} (ho : o ∈ pieces.flatten) :
    ∃ e ∈ es, ∃ piece, Rewritten table e piece ∧ o ∈ piece := by
  induction h with
  | nil => simp at ho
  | @cons e piece es pieces hpiece _ ih =>
    rcases List.mem_append.mp ho with hhere | hlater
    · exact ⟨e, List.mem_cons_self, piece, hpiece, hhere⟩
    · obtain ⟨e', he', hrest⟩ := ih hlater
      exact ⟨e', List.mem_cons_of_mem e he', hrest⟩

/-- The run: what every step keeps holds after all passes, and the sentence they leave expands. -/
theorem expandSentence_generate_counted (htable : table.BindsItsVariables)
    (inv : Nat → List (Occurrence S P M) → Prop)
    (hstep : ∀ k es pieces, inv k es → List.Forall₂ (Rewritten table) es pieces →
      inv (k + 1) pieces.flatten)
    (n : Nat) {k : Nat} {ts : Sentence S P M} {es : List (Occurrence S P M)}
    (hes : expandSentence ts = .ok es) (hinv : inv k es) (src : σ) :
    ∃ final, expandSentence (generate table n ts src).1 = .ok final ∧ inv (k + n) final := by
  induction n generalizing k ts es src with
  | zero => exact ⟨es, hes, hinv⟩
  | succ n ih =>
    obtain ⟨pieces, hpieces, hproduce⟩ := exists_pieces htable hes src
    obtain ⟨final, hfinal, hlast⟩ :=
      ih hproduce (hstep k es pieces hinv hpieces) (produce table ts src).2
    exact ⟨final, hfinal, by rwa [Nat.succ_add_eq_add_succ] at hlast⟩

/-- What holds of a single chord, and is kept by every step, holds of the occurrences that a
composition resolves. -/
theorem exists_compose_resolved {T : Type} [Scalar T] {table : MusicRules W S T}
    (htable : table.BindsItsVariables)
    (inv : Nat → List (Occurrence S (Span T) Modulation) → Prop)
    (hstep : ∀ k es pieces, inv k es → List.Forall₂ (Rewritten table) es pieces →
      inv (k + 1) pieces.flatten)
    (n : Nat) {start : S} {p : Span T} (hinv : inv 0 [.ofLeaf start p]) (src : σ) :
    ∃ os, (compose table n start p src).1 = .ok (resolve os) ∧ inv n os := by
  have hleaf : expandSentence [.leaf start p] =
      .ok [(.ofLeaf start p : Occurrence S (Span T) Modulation)] := rfl
  obtain ⟨os, hos, hlast⟩ := expandSentence_generate_counted htable inv hstep n hleaf hinv src
  rw [Nat.zero_add] at hlast
  exact ⟨os, by rw [compose_eq, hos]; rfl, hlast⟩

end ChordGrammar
