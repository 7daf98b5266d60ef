import ChordGrammar.Music.Progression
import ChordGrammar.Proofs.DeferredSubstitution
import ChordGrammar.Proofs.StockRules

/-!
# Passes keep the free names

What a closed production puts in place of a leaf brings in no free variable, however its own lets
shadow those around it, and every variable of the form stays where it was. The free names of a form
therefore come through any number of passes, in reading order. As an expansion fails at the first
free name and nowhere else, generation neither makes nor mends a scoping error.
-/
namespace ChordGrammar

variable {W S P Q M T σ : Type}

/-! ## Free names of grafts -/

theorem sentenceFreeNames_append (ts us : List (Term S P M)) :
    sentenceFreeNames (ts ++ us) = sentenceFreeNames ts ++ sentenceFreeNames us := by
  induction ts with
  | nil => rfl
  | cons t ts ih => simp only [List.cons_append, sentenceFreeNames, ih, List.append_assoc]

theorem sentenceFreeNames_singleton (t : Term S P M) :
    sentenceFreeNames [t] = freeNames t := List.append_nil _

theorem freeNames_ofSentence (ts : Sentence S P M) :
    freeNames (.ofSentence ts) = sentenceFreeNames ts := by
  match ts with
  | [] => rfl
  | [t] => exact (sentenceFreeNames_singleton t).symm
  | _ :: _ :: _ => rfl

mutual

/-- A graft of closed sentences has the free names of the form. -/
theorem sentenceFreeNames_graft {g : S → Q → Sentence S P M} (hg : ∀ s q, Closed (g s q)) :
    ∀ (t : Term S Q M), sentenceFreeNames (graft g t) = freeNames t
  | .leaf s q => hg s q
  | .seq ts => by
    rw [graft, sentenceFreeNames_singleton]
    exact sentenceFreeNames_graftSentence hg ts
  | .modulated _ t => by
    rw [graft, sentenceFreeNames_singleton, freeNames, freeNames_ofSentence,
      sentenceFreeNames_graft hg t, freeNames]
  | .letIn x v b => by
    rw [graft, sentenceFreeNames_singleton, freeNames, freeNames_ofSentence, freeNames_ofSentence,
      sentenceFreeNames_graft hg v, sentenceFreeNames_graft hg b, freeNames]
  | .var _ => rfl

theorem sentenceFreeNames_graftSentence {g : S → Q → Sentence S P M}
    (hg : ∀ s q, Closed (g s q)) :
    ∀ (ts : List (Term S Q M)), sentenceFreeNames (graftSentence g ts) = sentenceFreeNames ts
  | [] => rfl
  | t :: ts => by
    rw [graftSentence, sentenceFreeNames_append, sentenceFreeNames_graft hg t,
      sentenceFreeNames_graftSentence hg ts, sentenceFreeNames]

end

/-- Free names do not depend on parameters: mapping them is a graft of single leaves. -/
theorem sentenceFreeNames_mapSentenceParam (f : P → Q) (ts : Sentence S P M) :
    sentenceFreeNames (Term.mapSentenceParam f ts) = sentenceFreeNames ts := by
  have hleaf : ∀ (s : S) (p : P), Closed [(.leaf s (f p) : Term S Q M)] := fun _ _ => rfl
  rw [← graftSentence_leaf]
  exact sentenceFreeNames_graftSentence hleaf ts

/-! ## Passes -/

section Passes

variable [DecidableEq S] [Scalar W] [DrawSource σ W] {table : RuleTable W S P M}

/-- The step: a pass keeps the free names, each in its place. -/
theorem sentenceFreeNames_produce (htable : table.BindsItsVariables) (ts : Sentence S P M)
    (src : σ) : sentenceFreeNames (produce table ts src).1 = sentenceFreeNames ts := by
  calc sentenceFreeNames (produce table ts src).1
    _ = sentenceFreeNames (numbered table ts) := by
      rw [produce_eq]
      exact sentenceFreeNames_graftSentence (closed_rewriting htable _) (numbered table ts)
    _ = sentenceFreeNames ts := by
      rw [← sentenceFreeNames_mapSentenceParam Prod.fst, mapSentenceParam_numbered]

/-- The run: so do any number of passes. -/
theorem sentenceFreeNames_generate (htable : table.BindsItsVariables) (n : Nat)
    (ts : Sentence S P M) (src : σ) :
    sentenceFreeNames (generate table n ts src).1 = sentenceFreeNames ts := by
  induction n generalizing ts src with
  | zero => rfl
  | succ n ih =>
    rw [generate, ih, sentenceFreeNames_produce htable]

/-- Generation does not change which name an expansion fails at, if it fails at all. -/
theorem unboundName_expandSentence_generate (htable : table.BindsItsVariables) (n : Nat)
    (ts : Sentence S P M) (src : σ) :
    unboundName (expandSentence (generate table n ts src).1) =
      unboundName (expandSentence ts) := by
  rw [unboundName_expandSentence, unboundName_expandSentence, sentenceFreeNames_generate htable]

end Passes

/-! ## Compositions -/

section Compositions

variable [Scalar W] [Scalar T] [DrawSource σ W]

/-- Over closed productions a single chord grows into a progression, never into an error. -/
theorem exists_compose [DecidableEq S] {table : MusicRules W S T}
    (htable : table.BindsItsVariables) (n : Nat) (start : S) (p : Span T) (src : σ) :
    ∃ os, expandSentence (generate table n [.leaf start p] src).1 = .ok os ∧
      (compose table n start p src).1 = .ok (resolve os) := by
  have hclosed : Closed (generate table n [.leaf start p] src).1 :=
    sentenceFreeNames_generate htable n [.leaf start p] src
  obtain ⟨os, hos⟩ := hclosed.exists_expandSentence
  exact ⟨os, hos, by rw [compose_eq, hos]; rfl⟩

variable [DecidableEq S]

/-- Generation neither makes nor mends a scoping error. After any number of passes over closed
productions a sentence expands if it did before, and otherwise fails with the error of before. In
particular no composition over a stock grammar fails. -/
theorem generate_keeps_scoping {table : RuleTable W S P M} (htable : table.BindsItsVariables)
    (n : Nat) (ts : Sentence S P M) (src : σ) :
    ((∃ final, expandSentence (generate table n ts src).1 = .ok final) ↔
      ∃ es, expandSentence ts = .ok es) ∧
    (∀ e, expandSentence (generate table n ts src).1 = .error e ↔ expandSentence ts = .error e) ∧
    (∀ (least : T) start p, ∃ cs,
      (compose (functionalRules least : MusicRules W Region T) n start p src).1 = .ok cs) ∧
    (∀ (least : T) start p, ∃ cs,
      (compose (romanRules least : MusicRules W Numeral T) n start p src).1 = .ok cs) := by
  have hname := unboundName_expandSentence_generate htable n ts src
  refine ⟨?_, fun e => ?_, fun least start p => ?_, fun least start p => ?_⟩
  · rw [exists_ok_iff, exists_ok_iff, hname]
  · rw [eq_error_iff, eq_error_iff, hname]
  · have hrules : (functionalRules least : MusicRules W Region T).BindsItsVariables :=
      functionalRules_bindsItsVariables
    obtain ⟨os, -, hcs⟩ := exists_compose hrules n start p src
    exact ⟨resolve os, hcs⟩
  · have hrules : (romanRules least : MusicRules W Numeral T).BindsItsVariables :=
      romanRules_bindsItsVariables
    obtain ⟨os, -, hcs⟩ := exists_compose hrules n start p src
    exact ⟨resolve os, hcs⟩

end Compositions

/-- One rule, which binds a name and rebinds it in its scope. -/
def rebindingRules : RuleTable Rat Char Nat Nat where
  rules :=
    [⟨'I', 1, fun p =>
      [.letIn "x" (.leaf 'I' p) (.seq [.letIn "x" (.var "x") (.var "x"), .leaf 'I' p])]⟩]

/-- A value that nothing uses reads the unbound `y`; behind its let `x` is unbound too. -/
def strayNames : Sentence Char Nat Nat :=
  [.leaf 'I' 1, .letIn "x" (.seq [.leaf 'I' 2, .var "y"]) (.leaf 'I' 3), .var "x"]

theorem generate_keeps_scoping_strayNames :
    let src : Cycle Rat := ⟨[1 / 2], List.cons_ne_nil _ _, 0⟩
    rebindingRules.BindsItsVariables ∧
    expandSentence strayNames = .error ⟨"y"⟩ ∧
    expandSentence (generate rebindingRules 5 strayNames src).1 = .error ⟨"y"⟩ ∧
    ∃ cs, (compose (romanRules (1 / 8) : MusicRules Rat Numeral Rat) 5 .I default src).1 =
      .ok cs := by
  intro src
  have hrules : rebindingRules.BindsItsVariables := by
    intro r hr p
    rw [rebindingRules, List.mem_singleton] at hr
    subst hr
    rfl
  have hstray : expandSentence strayNames = .error ⟨"y"⟩ := rfl
  obtain ⟨-, herror, -, hroman⟩ := generate_keeps_scoping (T := Rat) hrules 5 strayNames src
  exact ⟨hrules, hstray, (herror ⟨"y"⟩).mpr hstray, hroman (1 / 8) .I default⟩

end ChordGrammar
