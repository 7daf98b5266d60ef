import Mathlib.Algebra.Order.BigOperators.Group.List
import Mathlib.Algebra.Order.Field.Basic
import ChordGrammar.Proofs.Histories
import ChordGrammar.Proofs.LeastDuration

/-!
# Growth stops at the least duration

A span has room for as many chords as it has least durations, and for one in any case. No stock rule
makes pieces with more room than its chord: pieces of a span that is split are no shorter than the
least duration and together no longer than the span. A bound value is counted where it is bound,
however often it is used. So a pass does not raise the room of all leaves together, and since every
leaf has room for one chord there are never more leaves than the first chord has room for.
-/
namespace ChordGrammar

variable {W S P Q M σ : Type}

/-! ## Totals over leaves -/

/-- Sum of the weights of all leaves, those of a let's value counted once. -/
def leafTotal (weight : P → Rat) (ts : Sentence S P M) : Rat :=
  ((sentenceLeaves ts).map fun l => weight l.param).sum

/-- The sentence weighs no more than a leaf with the parameter. -/
def NoHeavier (weight : P → Rat) (p : P) (us : Sentence S P M) : Prop :=
  leafTotal weight us ≤ weight p

section Totals

variable (weight : P → Rat)

theorem leafTotal_leaf (s : S) (p : P) :
    leafTotal weight [(.leaf s p : Term S P M)] = weight p := by
  simp [leafTotal, sentenceLeaves, sentenceLeavesUnder, leavesUnder]

theorem noHeavier_leaf (s : S) (p : P) :
    NoHeavier weight p [(.leaf s p : Term S P M)] :=
  (leafTotal_leaf weight s p).le

/-- What stands around the leaves does not matter. -/
theorem sum_sentenceLeavesUnder (ts : Sentence S P M) (path : List M) :
    ((sentenceLeavesUnder path ts).map fun l => weight l.param).sum = leafTotal weight ts := by
  have h := sentenceLeavesUnder_append ts path []
  rw [List.append_nil] at h
  rw [h, List.map_map]
  rfl

theorem leafTotal_mapSentenceParam (f : Q → P) (ts : Sentence S Q M) :
    leafTotal weight (Term.mapSentenceParam f ts) = leafTotal (fun q => weight (f q)) ts := by
  rw [leafTotal, sentenceLeaves_mapSentenceParam, List.map_map]
  rfl

theorem leafTotal_graftSentence (g : S → Q → Sentence S P M) (ts : Sentence S Q M) :
    leafTotal weight (graftSentence g ts) =
      ((sentenceLeaves ts).map fun l => leafTotal weight (g l.symbol l.param)).sum := by
  rw [leafTotal, sentenceLeaves, sentenceLeavesUnder_graftSentence, List.map_flatMap,
    List.flatMap_def, List.sum_flatten, List.map_map, ← sentenceLeaves]
  exact congrArg List.sum (List.map_congr_left fun l _ =>
    sum_sentenceLeavesUnder weight (g l.symbol l.param) l.modulations)

variable {weight}

/-- Leaves that weigh at least one are no more than their total. -/
theorem leafCount_le_leafTotal (hweight : ∀ p, 1 ≤ weight p) (ts : Sentence S P M) :
    (Term.sentenceLeafCount ts : Rat) ≤ leafTotal weight ts := by
  have hone : ∀ w ∈ (sentenceLeaves ts).map fun l => weight l.param, 1 ≤ w := by
    rw [List.forall_mem_map]
    exact fun l _ => hweight l.param
  have h := List.card_nsmul_le_sum _ 1 hone
  rwa [List.length_map, sentenceLeaves, length_sentenceLeavesUnder, nsmul_eq_mul, mul_one] at h

variable [DecidableEq S] [Scalar W] [DrawSource σ W] {table : RuleTable W S P M}

/-- The step: a pass over a table whose right-hand sides weigh no more than their leaves does not
add to the total. -/
theorem leafTotal_produce_le
    (htable : ∀ r ∈ table.rules, ∀ p, NoHeavier weight p (r.production p))
    (ts : Sentence S P M) (src : σ) : leafTotal weight (produce table ts src).1 ≤
      leafTotal weight ts := by
  have hleaf (draws : List W) (s : S) (leaf : P × Option Nat) :
      NoHeavier weight leaf.1 (rewriting table draws s leaf) := by
    rcases rewriting_cases table draws s leaf with h | ⟨r, hr, h⟩
    · rw [h]
      exact noHeavier_leaf weight s leaf.1
    · rw [h]
      exact htable r (List.mem_of_mem_filter hr) leaf.1
  let draws : List W := (drawMany (sentenceOpenLeaves table ts).length src).1
  calc leafTotal weight (produce table ts src).1
    _ = leafTotal weight (graftSentence (rewriting table draws) (numbered table ts)) := by
      rw [produce_eq]
    _ = ((sentenceLeaves (numbered table ts)).map fun l =>
          leafTotal weight (rewriting table draws l.symbol l.param)).sum :=
      leafTotal_graftSentence weight _ _
    _ ≤ leafTotal (fun leaf => weight leaf.1) (numbered table ts) :=
      List.sum_le_sum fun l _ => hleaf draws l.symbol l.param
    _ = leafTotal weight ts := by
      rw [← leafTotal_mapSentenceParam weight Prod.fst, mapSentenceParam_numbered]

end Totals

/-- The sentence has at most `bound` leaves, and a pass over it takes at most as many draws, from
whatever source. -/
structure GrownWithin [DecidableEq S] [Scalar W] (table : RuleTable W S P M) (bound : Rat)
    (ts : Sentence S P M) : Prop where
  leaves : (Term.sentenceLeafCount ts : Rat) ≤ bound
  draws : ∀ {τ : Type} [DrawSource τ W] (source : τ),
    ((produce table ts (Recorded.start source : Recorded τ W)).2.history.length : Rat) ≤ bound

/-- The run: over such a table a leaf never grows into more leaves than it weighs. -/
theorem forall_mem_generateHistory_grownWithin [DecidableEq S] [Scalar W] [DrawSource σ W]
    {weight : P → Rat} {table : RuleTable W S P M} (hweight : ∀ p, 1 ≤ weight p)
    (htable : ∀ r ∈ table.rules, ∀ p, NoHeavier weight p (r.production p)) (n : Nat)
    (start : S) (p : P) (src : σ) :
    ∀ ts ∈ (generateHistory table n [.leaf start p] src).1, GrownWithin table (weight p) ts := by
  have hstart : NoHeavier weight p [(.leaf start p : Term S P M)] := noHeavier_leaf weight start p
  intro ts hts
  have htotal : NoHeavier weight p ts :=
    forall_mem_generateHistory
      (fun us src hus => (leafTotal_produce_le htable us src).trans hus) n hstart src ts hts
  have hleaves : (Term.sentenceLeafCount ts : Rat) ≤ weight p :=
    (leafCount_le_leafTotal hweight ts).trans htotal
  refine ⟨hleaves, fun source => ?_⟩
  exact (Nat.cast_le.mpr (length_history_produce_le table ts source)).trans hleaves

/-! ## The stock rules -/

/-- How many chords of the least duration a span has room for; every span has room for one. -/
def Span.room (least : Rat) (p : Span Rat) : Rat := max 1 (p.dur / least)

section Rooms

variable {least : Rat} {p : Span Rat}

/-- A piece that the guard allows is filled by chords of the least duration. -/
theorem room_scaled (hleast : 0 < least) {factor part : Rat} (hpart : 0 ≤ part)
    (hfits : 1 ≤ factor * part) (hguard : factor * least ≤ p.dur) :
    (p.scaled part).room least = p.dur / least * part := by
  have hpiece : 1 ≤ (p.scaled part).dur / least :=
    (one_le_div hleast).mpr (least_le_scaled_dur hleast.le hpart hfits hguard)
  rw [Span.room, max_eq_right hpiece, Span.scaled_dur, mul_div_right_comm]

theorem room_half (hleast : 0 < least) (hguard : ((2 : Nat) : Rat) * least ≤ p.dur) :
    p.half.room least = p.dur / least * 0.5 :=
  room_scaled hleast (by norm_num) (by norm_num) hguard

theorem div_le_room : p.dur / least ≤ p.room least := le_max_right 1 (p.dur / least)

/-- What weighs no more than two halves. -/
theorem noHeavier_of_le_halves (hleast : 0 < least) (hguard : ((2 : Nat) : Rat) * least ≤ p.dur)
    {ts : Sentence S (Span Rat) Modulation}
    (hts : leafTotal (Span.room least) ts ≤ p.half.room least + p.half.room least) :
    NoHeavier (Span.room least) p ts := by
  calc leafTotal (Span.room least) ts
    _ ≤ p.half.room least + p.half.room least := hts
    _ = p.dur / least := by rw [room_half hleast hguard]; ring
    _ ≤ p.room least := div_le_room

theorem noHeavier_halves (hleast : 0 < least) (a b : S)
    (hguard : ((2 : Nat) : Rat) * least ≤ p.dur) :
    NoHeavier (Span.room least) p (halves a b p) := by
  refine noHeavier_of_le_halves hleast hguard (le_of_eq ?_)
  simp [leafTotal, sentenceLeaves, sentenceLeavesUnder, leavesUnder, halves]

theorem noHeavier_threeToOne (hleast : 0 < least)
    (hguard : ((4 : Nat) : Rat) * least ≤ p.dur) :
    NoHeavier (Span.room least) p (threeToOne p) := by
  have hlarge : (p.scaled 0.75).room least = p.dur / least * 0.75 :=
    room_scaled hleast (by norm_num) (by norm_num) hguard
  have hsmall : (p.scaled 0.25).room least = p.dur / least * 0.25 :=
    room_scaled hleast (by norm_num) (by norm_num) hguard
  calc leafTotal (Span.room least) (threeToOne p)
    _ = (p.scaled 0.75).room least + (p.scaled 0.25).room least := by
      simp [leafTotal, sentenceLeaves, sentenceLeavesUnder, leavesUnder, threeToOne]
    _ = p.dur / least := by rw [hlarge, hsmall]; ring
    _ ≤ p.room least := div_le_room

/-- The modulation around the first half leaves its room alone. -/
theorem noHeavier_tonicized (hleast : 0 < least)
    (hguard : ((2 : Nat) : Rat) * least ≤ p.dur) :
    NoHeavier (Span.room least) p (tonicized p) := by
  refine noHeavier_of_le_halves hleast hguard (le_of_eq ?_)
  simp [leafTotal, sentenceLeaves, sentenceLeavesUnder, leavesUnder, tonicized]

/-- The repeated phrase sounds twice but is one leaf. -/
theorem noHeavier_repeated (hleast : 0 < least)
    (hguard : ((2 : Nat) : Rat) * least ≤ p.dur) :
    NoHeavier (Span.room least) p (repeated p) := by
  have hhalf : 0 ≤ p.half.room least := zero_le_one.trans (le_max_left 1 (p.half.dur / least))
  refine noHeavier_of_le_halves hleast hguard ?_
  calc leafTotal (Span.room least) (repeated p)
    _ = p.half.room least := by
      simp [leafTotal, sentenceLeaves, sentenceLeavesUnder, leavesUnder, repeated]
    _ ≤ p.half.room least + p.half.room least := le_add_of_nonneg_left hhalf

end Rooms

section Tables

variable {least : Rat}

theorem noHeavier_splitting {s : S} {w : W} {factor : Rat}
    {production : Span Rat → List (MusicTerm S Rat)}
    (h : ∀ p, factor * least ≤ p.dur → NoHeavier (Span.room least) p (production p)) :
    ∀ p, NoHeavier (Span.room least) p ((splitting s w least factor production).production p) :=
  Rule.forall_guarded (motive := NoHeavier (Span.room least))
    (fun p hp => h p (of_decide_eq_true hp)) fun p => noHeavier_leaf (Span.room least) s p

variable [Scalar W]

theorem functionalRules_noHeavier (hleast : 0 < least) :
    ∀ r ∈ (functionalRules least : MusicRules W Region Rat).rules, ∀ p,
      NoHeavier (Span.room least) p (r.production p) :=
  forall_functionalRules (fun s _ p => noHeavier_leaf _ s p) fun _ a b _ _ =>
    noHeavier_splitting fun _ => noHeavier_halves hleast a b

theorem romanRules_noHeavier (hleast : 0 < least) :
    ∀ r ∈ (romanRules least : MusicRules W Numeral Rat).rules, ∀ p,
      NoHeavier (Span.room least) p (r.production p) :=
  forall_romanRules (fun s _ p => noHeavier_leaf _ s p)
    (fun _ a b _ _ => noHeavier_splitting fun _ => noHeavier_halves hleast a b)
    (fun _ => noHeavier_splitting fun _ => noHeavier_threeToOne hleast)
    (fun _ => noHeavier_splitting fun _ => noHeavier_tonicized hleast)
    fun _ => noHeavier_splitting fun _ => noHeavier_repeated hleast

end Tables

/-- Growth is bounded whatever the number of passes: every form on the way from a single chord has
at most one leaf for each least duration in that chord, or one leaf if there is less than one, and
every pass takes at most as many draws. -/
theorem history_stock_grownWithin [Scalar W] [DrawSource σ W] {least : Rat} (hleast : 0 < least)
    (n : Nat) (p : Span Rat) (src : σ) :
    (∀ start,
      ∀ ts ∈ (generateHistory (functionalRules least : MusicRules W Region Rat) n
        [.leaf start p] src).1,
      GrownWithin (functionalRules least : MusicRules W Region Rat) (max 1 (p.dur / least)) ts) ∧
    (∀ start,
      ∀ ts ∈ (generateHistory (romanRules least : MusicRules W Numeral Rat) n
        [.leaf start p] src).1,
      GrownWithin (romanRules least : MusicRules W Numeral Rat) (max 1 (p.dur / least)) ts) := by
  have hroom : ∀ q : Span Rat, 1 ≤ q.room least := fun q => le_max_left 1 (q.dur / least)
  exact ⟨fun start => forall_mem_generateHistory_grownWithin hroom
      (functionalRules_noHeavier hleast) n start p src,
    fun start => forall_mem_generateHistory_grownWithin hroom
      (romanRules_noHeavier hleast) n start p src⟩

/-- The bound is reached where every leaf splits into halves as long as it can. -/
theorem history_stock_grownWithin_halves :
    let src : Cycle Rat := ⟨[2 / 5], List.cons_ne_nil _ _, 0⟩
    let rules : MusicRules Rat Numeral Rat := romanRules 1
    let p : Span Rat := ⟨4, .major, 0, 0, 4⟩
    (0 : Rat) < 1 ∧ max 1 (p.dur / 1) = 4 ∧
    (generateHistory rules 2 [.leaf .I p] src).1.map Term.sentenceLeafCount = [1, 2, 4] ∧
    ∃ ts ∈ (generateHistory rules 2 [.leaf .I p] src).1,
      Term.sentenceLeafCount ts = 4 ∧ GrownWithin rules (max 1 (p.dur / 1)) ts := by
  intro src rules p
  have hcounts : (generateHistory rules 2 [.leaf .I p] src).1.map Term.sentenceLeafCount =
      [1, 2, 4] := by decide +kernel
  have hfour : 4 ∈ (generateHistory rules 2 [.leaf .I p] src).1.map Term.sentenceLeafCount := by
    rw [hcounts]
    decide
  obtain ⟨ts, hts, hcount⟩ := List.mem_map.mp hfour
  have hwithin := (history_stock_grownWithin one_pos 2 p src).2 .I ts hts
  exact ⟨one_pos, by decide +kernel, hcounts, ts, hts, hcount, hwithin⟩

end ChordGrammar
