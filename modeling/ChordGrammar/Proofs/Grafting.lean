import Mathlib.Data.List.Forall2
import ChordGrammar.Grammar.Trace
import ChordGrammar.Proofs.Leaves

/-!
# A pass as one graft

A graft replaces all leaves of a form at once, by sentences that it is given beforehand, and keeps
every other node. Number the leaves that have rules in reading order: a pass is the graft that puts
in place of leaf `i` what the rule chosen by draw `i` makes of it, and it leaves its source exactly
that many draws further on. No leaf waits for another, so no order of rewriting is left in the
result.
-/
namespace ChordGrammar

variable {W S P Q M σ : Type}

/-! ## Grafts -/

mutual

/-- The form with every leaf replaced by its sentence: spliced into a sentence or a `seq`, collapsed
to one term under a modulation and in a let. -/
def graft (g : S → Q → Sentence S P M) : Term S Q M → Sentence S P M
  | .leaf s q => g s q
  | .seq ts => [.seq (graftSentence g ts)]
  | .modulated m t => [.modulated m (.ofSentence (graft g t))]
  | .letIn x v b => [.letIn x (.ofSentence (graft g v)) (.ofSentence (graft g b))]
  | .var x => [.var x]

/-- `graft` on every term of a list. -/
def graftSentence (g : S → Q → Sentence S P M) : List (Term S Q M) → Sentence S P M
  | [] => []
  | t :: ts => graft g t ++ graftSentence g ts

end

mutual

theorem graft_congr {g g' : S → Q → Sentence S P M} : ∀ (t : Term S Q M) (path : List M),
    (∀ l ∈ leavesUnder path t, g l.symbol l.param = g' l.symbol l.param) → graft g t = graft g' t
  | .leaf s q, path, h => h ⟨path, s, q⟩ (List.mem_singleton_self _)
  | .seq ts, path, h => by simp only [graft, graftSentence_congr_under ts path h]
  | .modulated m t, path, h => by simp only [graft, graft_congr t (path ++ [m]) h]
  | .letIn x v b, path, h => by
    rw [leavesUnder, List.forall_mem_append] at h
    simp only [graft, graft_congr v path h.1, graft_congr b path h.2]
  | .var _, _, _ => rfl

theorem graftSentence_congr_under {g g' : S → Q → Sentence S P M} :
    ∀ (ts : List (Term S Q M)) (path : List M),
      (∀ l ∈ sentenceLeavesUnder path ts, g l.symbol l.param = g' l.symbol l.param) →
        graftSentence g ts = graftSentence g' ts
  | [], _, _ => rfl
  | t :: ts, path, h => by
    rw [sentenceLeavesUnder, List.forall_mem_append] at h
    simp only [graftSentence, graft_congr t path h.1, graftSentence_congr_under ts path h.2]

end

/-- A graft depends on what is put in place of its leaves only. -/
theorem graftSentence_congr {g g' : S → Q → Sentence S P M} {ts : Sentence S Q M}
    (h : ∀ l ∈ sentenceLeaves ts, g l.symbol l.param = g' l.symbol l.param) :
    graftSentence g ts = graftSentence g' ts :=
  graftSentence_congr_under ts [] h

mutual

theorem sentenceLeavesUnder_graft (g : S → Q → Sentence S P M) :
    ∀ (t : Term S Q M) (path : List M), sentenceLeavesUnder path (graft g t) =
      (leavesUnder path t).flatMap fun l => sentenceLeavesUnder l.modulations (g l.symbol l.param)
  | .leaf s q, path => by simp only [graft, leavesUnder, List.flatMap_singleton]
  | .seq ts, path => by
    simp only [graft, sentenceLeavesUnder, leavesUnder, List.append_nil,
      sentenceLeavesUnder_graftSentence g ts path]
  | .modulated m t, path => by
    simp only [graft, sentenceLeavesUnder, leavesUnder, List.append_nil, leavesUnder_ofSentence,
      sentenceLeavesUnder_graft g t (path ++ [m])]
  | .letIn _ v b, path => by
    simp only [graft, sentenceLeavesUnder, leavesUnder, List.append_nil, leavesUnder_ofSentence,
      sentenceLeavesUnder_graft g v path, sentenceLeavesUnder_graft g b path, List.flatMap_append]
  | .var _, _ => rfl

/-- The leaves of a graft are the leaves of what is put in, in order. -/
theorem sentenceLeavesUnder_graftSentence (g : S → Q → Sentence S P M) :
    ∀ (ts : List (Term S Q M)) (path : List M), sentenceLeavesUnder path (graftSentence g ts) =
      (sentenceLeavesUnder path ts).flatMap fun l =>
        sentenceLeavesUnder l.modulations (g l.symbol l.param)
  | [], _ => rfl
  | t :: ts, path => by
    rw [graftSentence, sentenceLeavesUnder_eq_flatMap, List.flatMap_append,
      ← sentenceLeavesUnder_eq_flatMap, ← sentenceLeavesUnder_eq_flatMap,
      sentenceLeavesUnder_graft g t path, sentenceLeavesUnder_graftSentence g ts path,
      sentenceLeavesUnder, List.flatMap_append]

end

/-! ## Draws taken one after the other -/

section Draws

variable [DrawSource σ W]

@[simp] theorem length_drawMany (n : Nat) (src : σ) :
    (drawMany n src : List W × σ).1.length = n := by
  induction n generalizing src with
  | zero => rfl
  | succ n ih => simp [drawMany, ih]

@[simp] theorem drawMany_one (src : σ) :
    (drawMany 1 src : List W × σ) = ([(draw src : W × σ).1], (draw src : W × σ).2) := rfl

theorem drawMany_add (m n : Nat) (src : σ) :
    (drawMany (m + n) src : List W × σ) =
      ((drawMany m src).1 ++ (drawMany n (drawMany m src : List W × σ).2).1,
        (drawMany n (drawMany m src : List W × σ).2 : List W × σ).2) := by
  induction m generalizing src with
  | zero => simp [drawMany]
  | succ m ih => simp only [Nat.succ_add, drawMany, ih, List.cons_append]

/-- A recorded source hands out the draws of its source and remembers them. -/
theorem drawMany_recorded (n : Nat) (r : Recorded σ W) :
    (drawMany n r : List W × Recorded σ W).2 =
      ⟨(drawMany n r.source : List W × σ).2, (drawMany n r.source).1.reverse ++ r.taken⟩ := by
  induction n generalizing r with
  | zero => simp [drawMany]
  | succ n ih => simp [drawMany, draw, ih]

end Draws

/-! ## The rule that a draw selects -/

section Selection

variable [Scalar W]

/-- Every draw falls into one of the buckets. -/
theorem exists_bucketFrom (lower : W) (ws : List W) (x : W) (hne : ws ≠ []) :
    ∃ i, bucketFrom lower ws x = some i ∧ i < ws.length := by
  induction ws generalizing lower with
  | nil => exact absurd rfl hne
  | cons w ws ih =>
    cases ws with
    | nil => exact ⟨0, rfl, by simp⟩
    | cons v ws =>
      obtain ⟨i, hi, hlt⟩ := ih (lower + w) (by simp)
      by_cases hx : x < lower + w
      · exact ⟨0, by simp [bucketFrom, hx], by simp⟩
      · exact ⟨i + 1, by simp [bucketFrom, hx, hi], by simpa using hlt⟩

theorem exists_select (rules : List (Rule W S P M)) (x : W) (hne : rules ≠ []) :
    ∃ r, select rules x = some r := by
  obtain ⟨i, hi, hlt⟩ := exists_bucketFrom 0 (rules.map (·.weight)) x (by simpa using hne)
  rw [List.length_map] at hlt
  exact ⟨rules[i], by simp [select, bucket, hi, hlt]⟩

theorem mem_of_select {rules : List (Rule W S P M)} {x : W} {r : Rule W S P M}
    (h : select rules x = some r) : r ∈ rules := by
  obtain ⟨i, -, hi⟩ := Option.bind_eq_some_iff.mp h
  exact List.mem_of_getElem? hi

end Selection

/-! ## Numbered leaves -/

section Numbering

variable [DecidableEq S]

mutual

/-- The same form with the leaves that have rules numbered in reading order, from `n` on. -/
def numberFrom (table : RuleTable W S P M) : Term S P M → Nat → Term S (P × Option Nat) M
  | .leaf s p, n => .leaf s (p, if (table.matching s).isEmpty then none else some n)
  | .seq ts, n => .seq (numberSentenceFrom table ts n)
  | .modulated m t, n => .modulated m (numberFrom table t n)
  | .letIn x v b, n =>
    .letIn x (numberFrom table v n) (numberFrom table b (n + (openLeaves table v).length))
  | .var x, _ => .var x

/-- `numberFrom` on the terms of a list, one after the other. -/
def numberSentenceFrom (table : RuleTable W S P M) :
    List (Term S P M) → Nat → List (Term S (P × Option Nat) M)
  | [], _ => []
  | t :: ts, n =>
    numberFrom table t n :: numberSentenceFrom table ts (n + (openLeaves table t).length)

end

/-- The sentence with its open leaves numbered from zero. -/
def numbered (table : RuleTable W S P M) (ts : Sentence S P M) : Sentence S (P × Option Nat) M :=
  numberSentenceFrom table ts 0

mutual

theorem mapParam_numberFrom (table : RuleTable W S P M) : ∀ (t : Term S P M) (n : Nat),
    (numberFrom table t n).mapParam Prod.fst = t
  | .leaf _ _, _ => rfl
  | .seq ts, n => by
    simp only [numberFrom, Term.mapParam, mapSentenceParam_numberSentenceFrom table ts n]
  | .modulated m t, n => by
    simp only [numberFrom, Term.mapParam, mapParam_numberFrom table t n]
  | .letIn x v b, n => by
    simp only [numberFrom, Term.mapParam, mapParam_numberFrom table v, mapParam_numberFrom table b]
  | .var _, _ => rfl

theorem mapSentenceParam_numberSentenceFrom (table : RuleTable W S P M) :
    ∀ (ts : List (Term S P M)) (n : Nat),
      Term.mapSentenceParam Prod.fst (numberSentenceFrom table ts n) = ts
  | [], _ => rfl
  | t :: ts, n => by
    simp only [numberSentenceFrom, Term.mapSentenceParam, mapParam_numberFrom table t n,
      mapSentenceParam_numberSentenceFrom table ts]

end

/-- Forgetting the numbers gives the sentence back. -/
theorem mapSentenceParam_numbered (table : RuleTable W S P M) (ts : Sentence S P M) :
    Term.mapSentenceParam Prod.fst (numbered table ts) = ts :=
  mapSentenceParam_numberSentenceFrom table ts 0

/-- A leaf together with its number, if it has one. -/
def Occurrence.withNumber (o : Occurrence S (P × Option Nat) M) : Option ((S × P) × Nat) :=
  o.param.2.map fun i => ((o.symbol, o.param.1), i)

mutual

theorem filterMap_leavesUnder_numberFrom (table : RuleTable W S P M) :
    ∀ (t : Term S P M) (path : List M) (n : Nat),
      (leavesUnder path (numberFrom table t n)).filterMap Occurrence.withNumber =
        (openLeaves table t).zipIdx n
  | .leaf s p, path, n => by
    simp only [numberFrom, leavesUnder, openLeaves]
    split_ifs <;> rfl
  | .seq ts, path, n => filterMap_sentenceLeavesUnder_numberSentenceFrom table ts path n
  | .modulated m t, path, n => filterMap_leavesUnder_numberFrom table t (path ++ [m]) n
  | .letIn x v b, path, n => by
    simp only [numberFrom, leavesUnder, openLeaves, List.filterMap_append, List.zipIdx_append,
      filterMap_leavesUnder_numberFrom table v, filterMap_leavesUnder_numberFrom table b]
  | .var _, _, _ => rfl

theorem filterMap_sentenceLeavesUnder_numberSentenceFrom (table : RuleTable W S P M) :
    ∀ (ts : List (Term S P M)) (path : List M) (n : Nat),
      (sentenceLeavesUnder path (numberSentenceFrom table ts n)).filterMap Occurrence.withNumber =
        (sentenceOpenLeaves table ts).zipIdx n
  | [], _, _ => rfl
  | t :: ts, path, n => by
    simp only [numberSentenceFrom, sentenceLeavesUnder, sentenceOpenLeaves, List.filterMap_append,
      List.zipIdx_append, filterMap_leavesUnder_numberFrom table t,
      filterMap_sentenceLeavesUnder_numberSentenceFrom table ts]

end

/-- The numbered leaves are the open ones, and their numbers count them in reading order. -/
theorem filterMap_sentenceLeaves_numbered (table : RuleTable W S P M) (ts : Sentence S P M) :
    (sentenceLeaves (numbered table ts)).filterMap Occurrence.withNumber =
      (sentenceOpenLeaves table ts).zipIdx :=
  filterMap_sentenceLeavesUnder_numberSentenceFrom table ts [] 0

mutual

theorem number_eq_none_iff_matching (table : RuleTable W S P M) :
    ∀ (t : Term S P M) (path : List M) (n : Nat), ∀ l ∈ leavesUnder path (numberFrom table t n),
      l.param.2 = none ↔ table.matching l.symbol = []
  | .leaf s p, path, n, l, hl => by
    simp only [numberFrom, leavesUnder, List.mem_singleton] at hl
    subst hl
    by_cases hm : table.matching s = [] <;> simp [hm]
  | .seq ts, path, n, l, hl => sentence_number_eq_none_iff_matching table ts path n l hl
  | .modulated m t, path, n, l, hl => number_eq_none_iff_matching table t (path ++ [m]) n l hl
  | .letIn x v b, path, n, l, hl => by
    rcases List.mem_append.mp hl with hv | hb
    · exact number_eq_none_iff_matching table v path n l hv
    · exact number_eq_none_iff_matching table b path _ l hb
  | .var _, _, _, l, hl => by simp [numberFrom, leavesUnder] at hl

theorem sentence_number_eq_none_iff_matching (table : RuleTable W S P M) :
    ∀ (ts : List (Term S P M)) (path : List M) (n : Nat),
      ∀ l ∈ sentenceLeavesUnder path (numberSentenceFrom table ts n),
        l.param.2 = none ↔ table.matching l.symbol = []
  | [], _, _, l, hl => by simp [numberSentenceFrom, sentenceLeavesUnder] at hl
  | t :: ts, path, n, l, hl => by
    rcases List.mem_append.mp hl with ht | hts
    · exact number_eq_none_iff_matching table t path n l ht
    · exact sentence_number_eq_none_iff_matching table ts path _ l hts

end

/-- The label of a leaf of the sentence: the place of an open leaf in reading order, and no number
for a leaf without rules. -/
def LabelledIn (table : RuleTable W S P M) (ts : Sentence S P M) (s : S)
    (leaf : P × Option Nat) : Prop :=
  match leaf.2 with
  | some i => (sentenceOpenLeaves table ts)[i]? = some (s, leaf.1)
  | none => table.matching s = []

theorem labelledIn_of_mem_sentenceLeaves (table : RuleTable W S P M) (ts : Sentence S P M) :
    ∀ l ∈ sentenceLeaves (numbered table ts), LabelledIn table ts l.symbol l.param := by
  intro l hl
  rw [LabelledIn]
  cases hn : l.param.2 with
  | none => exact (sentence_number_eq_none_iff_matching table ts [] 0 l hl).mp hn
  | some i =>
    have hmem : ((l.symbol, l.param.1), i) ∈ (sentenceOpenLeaves table ts).zipIdx := by
      rw [← filterMap_sentenceLeaves_numbered]
      exact List.mem_filterMap.mpr ⟨l, hl, by simp [Occurrence.withNumber, hn]⟩
    exact List.mem_zipIdx_iff_getElem?.mp hmem

/-- An open leaf has a rule. -/
theorem matching_ne_nil_of_mem_openLeaves (table : RuleTable W S P M) (ts : Sentence S P M)
    {leaf : S × P} (h : leaf ∈ sentenceOpenLeaves table ts) : table.matching leaf.1 ≠ [] := by
  obtain ⟨i, hi⟩ := List.mem_iff_getElem?.mp h
  have hmem : (leaf, i) ∈ (sentenceOpenLeaves table ts).zipIdx :=
    List.mem_zipIdx_iff_getElem?.mpr hi
  rw [← filterMap_sentenceLeaves_numbered] at hmem
  obtain ⟨l, hl, hleaf⟩ := List.mem_filterMap.mp hmem
  obtain ⟨j, hj, he⟩ := Option.map_eq_some_iff.mp hleaf
  have hs : l.symbol = leaf.1 := by rw [Prod.mk.injEq] at he; rw [← he.1]
  rw [← hs]
  intro hm
  have hnone := (sentence_number_eq_none_iff_matching table ts [] 0 l hl).mpr hm
  rw [hj] at hnone
  cases hnone

end Numbering

/-! ## The graft of a pass -/

section Pass

variable [DecidableEq S] [Scalar W]

/-- What a pass with the given draws puts in place of a leaf: the leaf's number picks the draw and
the draw picks the rule. A leaf without a number stays. -/
def rewriting (table : RuleTable W S P M) (draws : List W) (s : S) (leaf : P × Option Nat) :
    Sentence S P M :=
  match leaf.2.bind fun i => draws[i]?.bind (select (table.matching s)) with
  | some r => r.production leaf.1
  | none => [.leaf s leaf.1]

variable [DrawSource σ W]

theorem produceLeaf_eq (table : RuleTable W S P M) (s : S) (p : P) (src : σ)
    (before after : List W) :
    produceLeaf table s p src =
      (graft (rewriting table
          (before ++ (drawMany (openLeaves table (.leaf s p)).length src).1 ++ after))
        (numberFrom table (.leaf s p) before.length),
        (drawMany (openLeaves table (.leaf s p)).length src : List W × σ).2) := by
  cases hm : table.matching s with
  | nil => simp [produceLeaf, hm, openLeaves, drawMany, numberFrom, graft, rewriting]
  | cons r rs =>
    simp only [produceLeaf, hm, openLeaves, numberFrom, graft, rewriting]
    cases hx : select (r :: rs) (draw src : W × σ).1 <;> simp [hx]

mutual

/-- One pass over a term whose first open leaf takes draw number `before.length`. -/
theorem produceTerm_eq_graft (table : RuleTable W S P M) :
    ∀ (t : Term S P M) (src : σ) (before after : List W),
      produceTerm table t src =
        (graft (rewriting table
            (before ++ (drawMany (openLeaves table t).length src).1 ++ after))
          (numberFrom table t before.length),
          (drawMany (openLeaves table t).length src : List W × σ).2)
  | .leaf s p, src, before, after => produceLeaf_eq table s p src before after
  | .seq ts, src, before, after => by
    have h := produce_eq_graftSentence table ts src before after
    simp only [produceTerm, h, openLeaves, numberFrom, graft]
  | .modulated m t, src, before, after => by
    have h := produceTerm_eq_graft table t src before after
    simp only [produceTerm, h, openLeaves, numberFrom, graft]
  | .letIn x v b, src, before, after => by
    let taken : List W × σ := drawMany (openLeaves table v).length src
    let rest : List W × σ := drawMany (openLeaves table b).length taken.2
    have hv := produceTerm_eq_graft table v src before (rest.1 ++ after)
    have hb := produceTerm_eq_graft table b taken.2 (before ++ taken.1) after
    simp only [List.length_append, length_drawMany, List.append_assoc, taken, rest] at hv hb
    simp only [produceTerm, hv, hb, openLeaves, numberFrom, graft, List.length_append,
      drawMany_add, List.append_assoc]
  | .var x, src, before, after => rfl

theorem produce_eq_graftSentence (table : RuleTable W S P M) :
    ∀ (ts : List (Term S P M)) (src : σ) (before after : List W),
      produce table ts src =
        (graftSentence (rewriting table
            (before ++ (drawMany (sentenceOpenLeaves table ts).length src).1 ++ after))
          (numberSentenceFrom table ts before.length),
          (drawMany (sentenceOpenLeaves table ts).length src : List W × σ).2)
  | [], src, before, after => rfl
  | t :: ts, src, before, after => by
    let taken : List W × σ := drawMany (openLeaves table t).length src
    let rest : List W × σ := drawMany (sentenceOpenLeaves table ts).length taken.2
    have ht := produceTerm_eq_graft table t src before (rest.1 ++ after)
    have hts := produce_eq_graftSentence table ts taken.2 (before ++ taken.1) after
    simp only [List.length_append, length_drawMany, List.append_assoc, taken, rest] at ht hts
    simp only [produce, ht, hts, sentenceOpenLeaves, numberSentenceFrom, graftSentence,
      List.length_append, drawMany_add, List.append_assoc]

end

/-- A pass over a sentence is the graft of what its draws choose. -/
theorem produce_eq (table : RuleTable W S P M) (ts : Sentence S P M) (src : σ) :
    produce table ts src =
      (graftSentence (rewriting table (drawMany (sentenceOpenLeaves table ts).length src).1)
          (numbered table ts),
        (drawMany (sentenceOpenLeaves table ts).length src : List W × σ).2) := by
  simpa [numbered] using produce_eq_graftSentence table ts src [] []

/-- As many draws as there are open leaves select a rule for each of them. -/
theorem forall₂_exists_select (table : RuleTable W S P M) (ts : Sentence S P M) (src : σ) :
    List.Forall₂ (fun leaf x => ∃ r, select (table.matching leaf.1) x = some r)
      (sentenceOpenLeaves table ts)
      (drawMany (sentenceOpenLeaves table ts).length src : List W × σ).1 := by
  rw [List.forall₂_iff_zip]
  refine ⟨by simp, ?_⟩
  intro leaf x h
  have hleaf := matching_ne_nil_of_mem_openLeaves table ts (List.of_mem_zip h).1
  exact exists_select (table.matching leaf.1) x hleaf

/-- A pass is one simultaneous substitution. With the open leaves numbered in reading order, it
takes one draw for each, every draw selects a rule, and the result is the sentence with leaf `i`
replaced by what the rule of draw `i` makes of it and all else kept. Later draws have no
influence. -/
theorem produce_eq_graft (table : RuleTable W S P M) (ts : Sentence S P M) (src : σ) :
    let leaves := sentenceOpenLeaves table ts
    let taken : List W × σ := drawMany leaves.length src
    Term.mapSentenceParam Prod.fst (numbered table ts) = ts ∧
    (sentenceLeaves (numbered table ts)).filterMap Occurrence.withNumber = leaves.zipIdx ∧
    List.Forall₂ (fun leaf x => ∃ r, select (table.matching leaf.1) x = some r) leaves taken.1 ∧
    produce table ts src =
      (graftSentence (rewriting table taken.1) (numbered table ts), taken.2) ∧
    (produce table ts (Recorded.start src : Recorded σ W)).2.history = taken.1 ∧
    ∀ {τ : Type} [DrawSource τ W] (other : τ),
      (drawMany leaves.length other : List W × τ).1 = taken.1 →
        (produce table ts other).1 = (produce table ts src).1 := by
  intro leaves taken
  refine ⟨mapSentenceParam_numbered table ts, filterMap_sentenceLeaves_numbered table ts,
    forall₂_exists_select table ts src, produce_eq table ts src, ?_, ?_⟩
  · rw [produce_eq table ts (Recorded.start src : Recorded σ W), drawMany_recorded]
    simp [Recorded.history, Recorded.start, taken, leaves]
  · intro τ _ other hother
    rw [produce_eq table ts other, produce_eq table ts src, hother]

end Pass
end ChordGrammar
