import Mathlib.Tactic.Linarith
import ChordGrammar.Proofs.Histories
import ChordGrammar.Proofs.StockRules

/-!
# Forms that have stopped growing

A form is saturated if every rule that matches a leaf puts just that leaf in its place. A pass over
such a form still takes its draws, one for each leaf that has rules, but gives the form back, tree
and all: a single leaf collapses to itself under a modulation and in a let, and no other node is
touched. The stock rules that split do not fire below twice the least duration, so a form over a
stock grammar is saturated once all its chords are that short or have no rules.
-/
namespace ChordGrammar

variable {W S P M σ : Type}

section Passes

variable [DecidableEq S]

/-- Every rule that matches a leaf of the sentence puts just the leaf in its place. -/
def Saturated (table : RuleTable W S P M) (ts : Sentence S P M) : Prop :=
  ∀ l ∈ sentenceLeaves ts, ∀ r ∈ table.matching l.symbol,
    r.production l.param = [.leaf l.symbol l.param]

variable [Scalar W] {table : RuleTable W S P M} {ts : Sentence S P M}

theorem Saturated.rewriting_eq_leaf (h : Saturated table ts) (draws : List W) :
    ∀ l ∈ sentenceLeaves (numbered table ts),
      rewriting table draws l.symbol l.param = [.leaf l.symbol l.param.1] := by
  intro l hl
  have hmem : l.mapParam Prod.fst ∈ sentenceLeaves ts := by
    have hforget := sentenceLeaves_mapSentenceParam Prod.fst (numbered table ts)
    rw [mapSentenceParam_numbered] at hforget
    rw [hforget]
    exact List.mem_map_of_mem hl
  rcases rewriting_cases table draws l.symbol l.param with hstays | ⟨r, hr, hfires⟩
  · exact hstays
  · rw [hfires]
    exact h _ hmem r hr

variable [DrawSource σ W]

/-- The step: a pass gives a saturated form back and takes its draws all the same. -/
theorem Saturated.produce_eq_self (h : Saturated table ts) (src : σ) :
    produce table ts src =
      (ts, (drawMany (sentenceOpenLeaves table ts).length src : List W × σ).2) := by
  rw [produce_eq]
  congr 1
  calc graftSentence (rewriting table _) (numbered table ts)
    _ = graftSentence (fun s leaf => [.leaf s leaf.1]) (numbered table ts) :=
      graftSentence_congr (h.rewriting_eq_leaf _)
    _ = ts := by rw [graftSentence_leaf Prod.fst, mapSentenceParam_numbered]

/-- The run: so does any number of passes. -/
theorem Saturated.generate_eq_self (h : Saturated table ts) (n : Nat) (src : σ) :
    generate table n ts src =
      (ts, (drawMany (n * (sentenceOpenLeaves table ts).length) src : List W × σ).2) := by
  induction n generalizing src with
  | zero => simp [generate, drawMany]
  | succ n ih =>
    rw [generate, h.produce_eq_self, Nat.succ_mul, Nat.add_comm, drawMany_add]
    exact ih _

end Passes

/-! ## Short chords -/

section Stock

variable [Scalar W] {least : Rat}

/-- Every chord of the form has a symbol without rules or is shorter than twice the least
duration. -/
def TooShort [DecidableEq S] (table : MusicRules W S Rat) (least : Rat)
    (ts : Sentence S (Span Rat) Modulation) : Prop :=
  ∀ l ∈ sentenceLeaves ts, table.matching l.symbol = [] ∨ l.param.dur < 2 * least

/-- A rule that leaves spans below twice the least duration where they are. -/
def Rule.SparesShort (least : Rat) (r : MusicRule W S Rat) : Prop :=
  ∀ p, p.dur < 2 * least → r.production p = [.leaf r.symbol p]

omit [Scalar W] in
theorem sparesShort_splitting {s : S} {w : W} {factor : Rat}
    {production : Span Rat → List (MusicTerm S Rat)} (hleast : 0 ≤ least) (hfactor : 2 ≤ factor) :
    (splitting s w least factor production).SparesShort least := by
  intro p hp
  have hguard : p.dur < factor * least :=
    hp.trans_le (mul_le_mul_of_nonneg_right hfactor hleast)
  simp [splitting, Rule.guarded, hguard]

theorem functionalRules_spareShort (hleast : 0 ≤ least) :
    ∀ r ∈ (functionalRules least : MusicRules W Region Rat).rules, r.SparesShort least :=
  forall_functionalRules (fun _ _ _ _ => rfl) fun _ _ _ _ _ =>
    sparesShort_splitting hleast (by norm_num)

theorem romanRules_spareShort (hleast : 0 ≤ least) :
    ∀ r ∈ (romanRules least : MusicRules W Numeral Rat).rules, r.SparesShort least :=
  forall_romanRules (fun _ _ _ _ => rfl)
    (fun _ _ _ _ _ => sparesShort_splitting hleast (by norm_num))
    (fun _ => sparesShort_splitting hleast (by norm_num))
    (fun _ => sparesShort_splitting hleast (by norm_num))
    fun _ => sparesShort_splitting hleast (by norm_num)

omit [Scalar W] in
theorem TooShort.saturated [DecidableEq S] {table : MusicRules W S Rat}
    {ts : Sentence S (Span Rat) Modulation}
    (htable : ∀ r ∈ table.rules, r.SparesShort least) (h : TooShort table least ts) :
    Saturated table ts := by
  intro l hl r hr
  obtain ⟨hmem, hsymbol⟩ := List.mem_filter.mp hr
  rcases h l hl with hnone | hshort
  · rw [hnone] at hr
    cases hr
  · rw [htable r hmem l.param hshort, of_decide_eq_true hsymbol]

/-- Saturated forms are fixed points. Whatever the draws and the number of passes, a form for which
every rule that matches a leaf returns just that leaf is given back as it was, and every pass takes
one draw for each leaf that has rules. This covers the forms over a stock grammar whose chords all
have symbols without rules or last less than twice the least duration. -/
theorem generate_of_saturated [DecidableEq S] [DrawSource σ W] :
    (∀ (table : RuleTable W S P M) (ts : Sentence S P M), Saturated table ts →
      ∀ (n : Nat) (src : σ), generate table n ts src =
        (ts, (drawMany (n * (sentenceOpenLeaves table ts).length) src : List W × σ).2)) ∧
    (∀ (least : Rat) (ts : Sentence Region (Span Rat) Modulation), 0 < least →
      TooShort (functionalRules least : MusicRules W Region Rat) least ts →
      ∀ (n : Nat) (src : σ),
        (generate (functionalRules least : MusicRules W Region Rat) n ts src).1 = ts) ∧
    (∀ (least : Rat) (ts : Sentence Numeral (Span Rat) Modulation), 0 < least →
      TooShort (romanRules least : MusicRules W Numeral Rat) least ts →
      ∀ (n : Nat) (src : σ),
        (generate (romanRules least : MusicRules W Numeral Rat) n ts src).1 = ts) := by
  refine ⟨fun table ts h n src => h.generate_eq_self n src, ?_, ?_⟩
  · intro least ts hleast hts n src
    have h := hts.saturated (functionalRules_spareShort hleast.le)
    rw [h.generate_eq_self]
  · intro least ts hleast hts n src
    have h := hts.saturated (romanRules_spareShort hleast.le)
    rw [h.generate_eq_self]

end Stock

/-- Short chords in every position, beside a chord without rules that is long. -/
def shortPhrase : Sentence Numeral (Span Rat) Modulation :=
  let short : Span Rat := (Span.whole 1 .major 0).quarter
  [.letIn "x" (.seq [.leaf .V short]) (.modulated .fifth (.seq [.var "x", .seq [], .var "x"])),
    .modulated .second (.leaf .I short), .leaf .X (.whole 4 .major 0)]

theorem generate_of_saturated_shortPhrase :
    let table : MusicRules Rat Numeral Rat := romanRules (1 / 4)
    let src : Cycle Rat := ⟨[1 / 10, 9 / 10], List.cons_ne_nil _ _, 0⟩
    (0 : Rat) < 1 / 4 ∧ TooShort table (1 / 4) shortPhrase ∧ Saturated table shortPhrase ∧
    (generate table 3 shortPhrase src).1 = shortPhrase ∧
    (generate table 3 shortPhrase src).2.issued = 6 := by
  intro table src
  have hleast : (0 : Rat) < 1 / 4 := by norm_num
  have hshort : TooShort table (1 / 4) shortPhrase := by
    unfold TooShort
    decide +kernel
  have hsaturated : Saturated table shortPhrase :=
    hshort.saturated (romanRules_spareShort hleast.le)
  obtain ⟨hruns, -, hroman⟩ :=
    @generate_of_saturated Rat Numeral (Span Rat) Modulation (Cycle Rat) _ _ _
  refine ⟨hleast, hshort, hsaturated, hroman _ _ hleast hshort 3 src, ?_⟩
  rw [hruns table shortPhrase hsaturated 3 src]
  rfl

end ChordGrammar
