import ChordGrammar.Music.StockGrammar
import ChordGrammar.Proofs.Passes

/-!
# The rules of the stock grammars

Both tables are made of a few shapes: a chord that stays, two halves, and in the Roman grammar the
uneven split, the half in another key and the repeated phrase. A property of rules holds of a whole
table as soon as it holds of its shapes. Two of these serve everything else: every production is
closed, and what takes the place of a chord is one of four short lists of occurrences. The weights
are few, and all of them pass the check that rules are made with.
-/
namespace ChordGrammar

variable {W S P M T : Type}

/-- A guarded rule does what its rule does or leaves the chord, so it keeps what both have. -/
theorem Rule.forall_guarded {r : Rule W S P M} {accept : P → Bool}
    {motive : P → Sentence S P M → Prop}
    (hfires : ∀ p, accept p → motive p (r.production p))
    (hstays : ∀ p, motive p [.leaf r.symbol p]) (p : P) :
    motive p ((r.guarded accept).production p) := by
  simp only [Rule.guarded]
  split_ifs with haccept
  · exact hfires p haccept
  · exact hstays p

section Shapes

variable [Scalar W] [Scalar T] {least : T}

/-- Where the functional grammar splits into halves: a region and the two it turns into. -/
def Region.splits : List (Region × Region × Region) :=
  [(.tonic, .tonic, .tonic), (.tonic, .tonic, .dominant), (.tonic, .dominant, .tonic),
    (.dominant, .dominant, .dominant), (.dominant, .subdominant, .dominant),
    (.subdominant, .subdominant, .subdominant)]

/-- Where the Roman grammar splits into halves. -/
def Numeral.splits : List (Numeral × Numeral × Numeral) :=
  [(.I, .I, .I), (.V, .IV, .V), (.V, .II, .V), (.IV, .IV, .II)]

/-- Two functional grammars side by side, for different least durations. -/
theorem forall₂_functionalRules (least least' : T)
    {R : MusicRule W Region T → MusicRule W Region T → Prop}
    (hstaying : ∀ s w, R (staying s w) (staying s w))
    (hhalves : ∀ s a b w, (s, a, b) ∈ Region.splits →
      R (splitting s w least ((2 : Nat) : T) (halves a b))
        (splitting s w least' ((2 : Nat) : T) (halves a b))) :
    List.Forall₂ R (functionalRules least : MusicRules W Region T).rules
      (functionalRules least' : MusicRules W Region T).rules := by
  simp only [functionalRules, List.forall₂_cons]
  refine ⟨hstaying _ _, hhalves _ _ _ _ ?_, hhalves _ _ _ _ ?_, hhalves _ _ _ _ ?_, hstaying _ _,
    hhalves _ _ _ _ ?_, hhalves _ _ _ _ ?_, hstaying _ _, hhalves _ _ _ _ ?_, .nil⟩
  all_goals simp [Region.splits]

theorem forall_functionalRules {motive : MusicRule W Region T → Prop}
    (hstaying : ∀ s w, motive (staying s w))
    (hhalves : ∀ s a b w, (s, a, b) ∈ Region.splits →
      motive (splitting s w least ((2 : Nat) : T) (halves a b))) :
    ∀ r ∈ (functionalRules least : MusicRules W Region T).rules, motive r := by
  have h := forall₂_functionalRules least least (R := fun r _ => motive r) hstaying hhalves
  exact fun r hr => List.forall₂_same.mp h r hr

/-- Two Roman grammars side by side, for different least durations. -/
theorem forall₂_romanRules (least least' : T)
    {R : MusicRule W Numeral T → MusicRule W Numeral T → Prop}
    (hstaying : ∀ s w, R (staying s w) (staying s w))
    (hhalves : ∀ s a b w, (s, a, b) ∈ Numeral.splits →
      R (splitting s w least ((2 : Nat) : T) (halves a b))
        (splitting s w least' ((2 : Nat) : T) (halves a b)))
    (hthreeToOne : ∀ w, R (splitting .I w least ((4 : Nat) : T) threeToOne)
      (splitting .I w least' ((4 : Nat) : T) threeToOne))
    (htonicized : ∀ w, R (splitting .I w least ((2 : Nat) : T) tonicized)
      (splitting .I w least' ((2 : Nat) : T) tonicized))
    (hrepeated : ∀ w, R (splitting .I w least ((2 : Nat) : T) repeated)
      (splitting .I w least' ((2 : Nat) : T) repeated)) :
    List.Forall₂ R (romanRules least : MusicRules W Numeral T).rules
      (romanRules least' : MusicRules W Numeral T).rules := by
  simp only [romanRules, List.forall₂_cons]
  refine ⟨hthreeToOne _, hhalves _ _ _ _ ?_, htonicized _, hrepeated _, hhalves _ _ _ _ ?_,
    hhalves _ _ _ _ ?_, hstaying _ _, hstaying _ _, hhalves _ _ _ _ ?_, .nil⟩
  all_goals simp [Numeral.splits]

theorem forall_romanRules {motive : MusicRule W Numeral T → Prop}
    (hstaying : ∀ s w, motive (staying s w))
    (hhalves : ∀ s a b w, (s, a, b) ∈ Numeral.splits →
      motive (splitting s w least ((2 : Nat) : T) (halves a b)))
    (hthreeToOne : ∀ w, motive (splitting .I w least ((4 : Nat) : T) threeToOne))
    (htonicized : ∀ w, motive (splitting .I w least ((2 : Nat) : T) tonicized))
    (hrepeated : ∀ w, motive (splitting .I w least ((2 : Nat) : T) repeated)) :
    ∀ r ∈ (romanRules least : MusicRules W Numeral T).rules, motive r := by
  have h := forall₂_romanRules least least (R := fun r _ => motive r) hstaying hhalves
    hthreeToOne htonicized hrepeated
  exact fun r hr => List.forall₂_same.mp h r hr

/-! ## Closed productions -/

omit [Scalar W] in
theorem closed_splitting {s : S} {w : W} {factor : T}
    {production : Span T → List (MusicTerm S T)} (h : ∀ p, Closed (production p)) :
    ∀ p, Closed ((splitting s w least factor production).production p) :=
  Rule.forall_guarded (motive := fun _ us => Closed us) (fun p _ => h p) fun _ => rfl

theorem functionalRules_bindsItsVariables :
    (functionalRules least : MusicRules W Region T).BindsItsVariables :=
  forall_functionalRules (fun _ _ _ => rfl) fun _ _ _ _ _ => closed_splitting fun _ => rfl

theorem romanRules_bindsItsVariables :
    (romanRules least : MusicRules W Numeral T).BindsItsVariables :=
  forall_romanRules (fun _ _ _ => rfl) (fun _ _ _ _ _ => closed_splitting fun _ => rfl)
    (fun _ => closed_splitting fun _ => rfl) (fun _ => closed_splitting fun _ => rfl)
    fun _ => closed_splitting fun _ => rfl

/-! ## What the rules yield -/

omit [Scalar W] [Scalar T] in
theorem yields_staying {motive : S → Span T → List (Occurrence S (Span T) Modulation) → Prop}
    {s : S} (hstays : ∀ p, motive s p [.ofLeaf s p]) (w : W) :
    (staying s w : MusicRule W S T).Yields motive :=
  fun p => ⟨[.ofLeaf s p], rfl, hstays p⟩

omit [Scalar W] in
theorem yields_splitting {motive : S → Span T → List (Occurrence S (Span T) Modulation) → Prop}
    {s : S} {w : W} {factor : T} {production : Span T → List (MusicTerm S T)}
    (hstays : ∀ p, motive s p [.ofLeaf s p])
    (hsplits : ∀ p, factor * least ≤ p.dur →
      ∃ os, expandSentence (production p) = .ok os ∧ motive s p os) :
    (splitting s w least factor production).Yields motive :=
  Rule.forall_guarded
    (motive := fun (p : Span T) us => ∃ os, expandSentence us = .ok os ∧ motive s p os)
    (fun p hp => hsplits p (of_decide_eq_true hp)) (yields_staying hstays w)

/-- What the functional rules yield, all of them together. -/
theorem yields_functionalRules
    {motive : Region → Span T → List (Occurrence Region (Span T) Modulation) → Prop}
    (hstays : ∀ s p, motive s p [.ofLeaf s p])
    (hhalves : ∀ s a b p, (s, a, b) ∈ Region.splits → ((2 : Nat) : T) * least ≤ p.dur →
      motive s p [.ofLeaf a p.half, .ofLeaf b p.half]) :
    ∀ r ∈ (functionalRules least : MusicRules W Region T).rules, r.Yields motive := by
  refine forall_functionalRules (fun s => yields_staying (hstays s)) fun s a b w hmem => ?_
  exact yields_splitting (hstays s) fun p hp => ⟨_, rfl, hhalves s a b p hmem hp⟩

/-- What the Roman rules yield, all of them together. -/
theorem yields_romanRules
    {motive : Numeral → Span T → List (Occurrence Numeral (Span T) Modulation) → Prop}
    (hstays : ∀ s p, motive s p [.ofLeaf s p])
    (hhalves : ∀ s a b p, (s, a, b) ∈ Numeral.splits → ((2 : Nat) : T) * least ≤ p.dur →
      motive s p [.ofLeaf a p.half, .ofLeaf b p.half])
    (hthreeToOne : ∀ p, ((4 : Nat) : T) * least ≤ p.dur →
      motive .I p [.ofLeaf .I (p.scaled 0.75), .ofLeaf .V (p.scaled 0.25)])
    (htonicized : ∀ p, ((2 : Nat) : T) * least ≤ p.dur →
      motive .I p [(Occurrence.ofLeaf .I p.half).modulate .fifth, .ofLeaf .I p.half]) :
    ∀ r ∈ (romanRules least : MusicRules W Numeral T).rules, r.Yields motive := by
  have hI : (.I, .I, .I) ∈ Numeral.splits := by decide
  refine forall_romanRules (fun s => yields_staying (hstays s)) (fun s a b w hmem => ?_)
    (fun w => ?_) (fun w => ?_) (fun w => ?_)
  · exact yields_splitting (hstays s) fun p hp => ⟨_, rfl, hhalves s a b p hmem hp⟩
  · exact yields_splitting (hstays .I) fun p hp => ⟨_, rfl, hthreeToOne p hp⟩
  · exact yields_splitting (hstays .I) fun p hp => ⟨_, rfl, htonicized p hp⟩
  · -- The repeated phrase sounds like a split into two tonics.
    exact yields_splitting (hstays .I) fun p hp => ⟨_, rfl, hhalves .I .I .I p hI hp⟩

end Shapes

/-! ## Weights -/

section Weights

variable [Scalar T]

/-- The weights that occur in the stock grammars. -/
def stockWeights (W : Type) [Scalar W] : List W := [0.2, 0.25, 0.3, 0.33, 0.34, 0.4, 0.5]

theorem weight_mem_functionalRules [Scalar W] {least : T} :
    ∀ r ∈ (functionalRules least : MusicRules W Region T).rules, r.weight ∈ stockWeights W := by
  simp [functionalRules, staying, splitting, Rule.guarded, stockWeights]

theorem weight_mem_romanRules [Scalar W] {least : T} :
    ∀ r ∈ (romanRules least : MusicRules W Numeral T).rules, r.weight ∈ stockWeights W := by
  simp [romanRules, staying, splitting, Rule.guarded, stockWeights]

/-- Where the stock weights lie in `(0, 1]`, no stock rule is refused. A guard leaves symbol and
weight alone, so the check may as well come before it. -/
theorem accepted_stockRules [Scalar W] (hweights : ∀ w ∈ stockWeights W, 0 < w ∧ w ≤ 1)
    (least : T) :
    (∀ r ∈ (functionalRules least : MusicRules W Region T).rules, r.Accepted) ∧
      ∀ r ∈ (romanRules least : MusicRules W Numeral T).rules, r.Accepted := by
  constructor
  · intro r hr
    exact r.accepted_iff.mpr (hweights _ (weight_mem_functionalRules r hr))
  · intro r hr
    exact r.accepted_iff.mpr (hweights _ (weight_mem_romanRules r hr))

theorem accepted_stockRules_float (least : T) :
    (∀ r ∈ (functionalRules least : MusicRules Float Region T).rules, r.Accepted) ∧
      ∀ r ∈ (romanRules least : MusicRules Float Numeral T).rules, r.Accepted :=
  accepted_stockRules (by decide) least

theorem accepted_stockRules_rat (least : T) :
    (∀ r ∈ (functionalRules least : MusicRules Rat Region T).rules, r.Accepted) ∧
      ∀ r ∈ (romanRules least : MusicRules Rat Numeral T).rules, r.Accepted :=
  accepted_stockRules (by decide +kernel) least

end Weights
end ChordGrammar
