import ChordGrammar.Proofs.DeferredSubstitution

/-!
# Runs pass by pass

A run of `m + n` passes is a run of `m` passes and then one of `n`, on the sentence and with the
source that the first run left. What every pass keeps holds of every form on the way. A pass takes
one draw for each open leaf, so never more draws than its sentence has leaves.
-/
namespace ChordGrammar

variable {W S P M σ : Type} [DecidableEq S] [Scalar W] [DrawSource σ W]

theorem generate_add (table : RuleTable W S P M) (m n : Nat) (ts : Sentence S P M) (src : σ) :
    generate table (m + n) ts src =
      generate table n (generate table m ts src).1 (generate table m ts src).2 := by
  induction m generalizing ts src with
  | zero => rw [Nat.zero_add, generate]
  | succ m ih =>
    rw [Nat.succ_add]
    exact ih (produce table ts src).1 (produce table ts src).2

/-- One more pass at the end of a run. -/
theorem generate_succ (table : RuleTable W S P M) (n : Nat) (ts : Sentence S P M) (src : σ) :
    generate table (n + 1) ts src =
      produce table (generate table n ts src).1 (generate table n ts src).2 :=
  generate_add table n 1 ts src

/-- What holds of the initial form and is kept by every pass holds of every form of a history. -/
theorem forall_mem_generateHistory {table : RuleTable W S P M} {inv : Sentence S P M → Prop}
    (hstep : ∀ ts (src : σ), inv ts → inv (produce table ts src).1) (n : Nat)
    {ts : Sentence S P M} (hts : inv ts) (src : σ) :
    ∀ us ∈ (generateHistory table n ts src).1, inv us := by
  induction n generalizing ts src with
  | zero => exact List.forall_mem_singleton.mpr hts
  | succ n ih =>
    rw [generateHistory]
    exact List.forall_mem_cons.mpr ⟨hts, ih (hstep ts src hts) (produce table ts src).2⟩

/-! ## Draws of a pass -/

theorem history_produce (table : RuleTable W S P M) (ts : Sentence S P M) (src : σ) :
    (produce table ts (Recorded.start src : Recorded σ W)).2.history =
      (drawMany (sentenceOpenLeaves table ts).length src).1 := by
  rw [produce_eq, drawMany_recorded, Recorded.history, Recorded.start, List.append_nil,
    List.reverse_reverse]

omit [Scalar W] in
theorem length_sentenceOpenLeaves_le (table : RuleTable W S P M) (ts : Sentence S P M) :
    (sentenceOpenLeaves table ts).length ≤ Term.sentenceLeafCount ts := by
  have hforget : (sentenceLeaves (numbered table ts)).length = Term.sentenceLeafCount ts := by
    have h := congrArg List.length (sentenceLeaves_mapSentenceParam Prod.fst (numbered table ts))
    rw [mapSentenceParam_numbered, List.length_map] at h
    rw [← h, sentenceLeaves, length_sentenceLeavesUnder]
  calc (sentenceOpenLeaves table ts).length
    _ = (sentenceOpenLeaves table ts).zipIdx.length := List.length_zipIdx.symm
    _ = ((sentenceLeaves (numbered table ts)).filterMap Occurrence.withNumber).length := by
      rw [filterMap_sentenceLeaves_numbered]
    _ ≤ (sentenceLeaves (numbered table ts)).length := List.length_filterMap_le _ _
    _ = Term.sentenceLeafCount ts := hforget

/-- A pass takes at most as many draws as there are leaves. -/
theorem length_history_produce_le (table : RuleTable W S P M) (ts : Sentence S P M) (src : σ) :
    (produce table ts (Recorded.start src : Recorded σ W)).2.history.length ≤
      Term.sentenceLeafCount ts := by
  rw [history_produce, length_drawMany]
  exact length_sentenceOpenLeaves_le table ts

end ChordGrammar
