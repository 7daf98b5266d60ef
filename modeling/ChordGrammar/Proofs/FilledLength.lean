import Mathlib.Tactic.NormNum
import Mathlib.Tactic.Ring
import ChordGrammar.Music.Progression
import ChordGrammar.Proofs.Layout
import ChordGrammar.Proofs.StockRules

/-!
# Stock progressions fill their length

Every stock rule cuts the span of its chord into spans that add up to it: the repeated phrase is
stated in a half but sounds twice, and a guard leaves the chord whole. A pass therefore keeps the
summed duration of the expanded sentence, and resolving lays that much music end to end.
-/
namespace ChordGrammar

variable {W S σ : Type}

/-- Occurrences that sound, and for `length` in all. -/
def Lasts (length : Rat) (os : List (Occurrence S (Span Rat) Modulation)) : Prop :=
  os ≠ [] ∧ duration os = length

/-- What takes the place of a chord sounds as long as the chord. -/
def KeepsLength (production : Span Rat → Sentence S (Span Rat) Modulation) : Prop :=
  ∀ p, ∃ os, expandSentence (production p) = .ok os ∧ Lasts p.dur os

/-! ## One pass -/

@[simp] theorem duration_nil : duration ([] : List (Occurrence S (Span Rat) Modulation)) = 0 := rfl

@[simp] theorem duration_cons (o : Occurrence S (Span Rat) Modulation)
    (os : List (Occurrence S (Span Rat) Modulation)) :
    duration (o :: os) = o.param.dur + duration os := by
  simp [duration]

@[simp] theorem duration_append (os rest : List (Occurrence S (Span Rat) Modulation)) :
    duration (os ++ rest) = duration os + duration rest := by
  simp [duration]

theorem duration_map_under (ms : List Modulation)
    (os : List (Occurrence S (Span Rat) Modulation)) :
    duration (os.map (·.under ms)) = duration os := by
  simp [duration, Function.comp_def, Occurrence.under]

theorem lasts_ofLeaf (s : S) (p : Span Rat) : Lasts p.dur [.ofLeaf s p] :=
  ⟨by simp, by simp [Occurrence.ofLeaf]⟩

variable [DecidableEq S] {table : MusicRules W S Rat}

theorem lasts_of_rewritten (htable : ∀ r ∈ table.rules, KeepsLength r.production)
    {o : Occurrence S (Span Rat) Modulation} {piece : List (Occurrence S (Span Rat) Modulation)}
    (h : Rewritten table o piece) : Lasts o.param.dur piece := by
  have hyields : ∀ r ∈ table.rules, r.Yields fun _ p os => Lasts p.dur os := htable
  rcases h.eq_or_yields hyields with rfl | ⟨os, ⟨hne, hdur⟩, rfl⟩
  · exact ⟨by simp, by simp⟩
  · exact ⟨by simpa using hne, by rw [duration_map_under, hdur]⟩

theorem duration_flatten (htable : ∀ r ∈ table.rules, KeepsLength r.production)
    {es : List (Occurrence S (Span Rat) Modulation)}
    {pieces : List (List (Occurrence S (Span Rat) Modulation))}
    (h : List.Forall₂ (Rewritten table) es pieces) : duration pieces.flatten = duration es := by
  induction h with
  | nil => rfl
  | cons hpiece _ ih =>
    rw [List.flatten_cons, duration_append, duration_cons, ih,
      (lasts_of_rewritten htable hpiece).2]

/-- The step: a pass keeps the length of what sounds. -/
theorem lasts_flatten (htable : ∀ r ∈ table.rules, KeepsLength r.production) {length : Rat}
    {es : List (Occurrence S (Span Rat) Modulation)}
    {pieces : List (List (Occurrence S (Span Rat) Modulation))}
    (hes : Lasts length es) (h : List.Forall₂ (Rewritten table) es pieces) :
    Lasts length pieces.flatten := by
  refine ⟨?_, by rw [duration_flatten htable h, hes.2]⟩
  cases h with
  | nil => exact absurd rfl hes.1
  | cons hpiece _ =>
    rw [List.flatten_cons]
    exact List.append_ne_nil_of_left_ne_nil (lasts_of_rewritten htable hpiece).1 _

/-- The run: over rules that keep lengths, a composition fills the length of its first chord. -/
theorem exists_compose_fills [Scalar W] [DrawSource σ W] (hbinds : table.BindsItsVariables)
    (htable : ∀ r ∈ table.rules, KeepsLength r.production) (n : Nat) (start : S) (p : Span Rat)
    (src : σ) :
    ∃ cs, (compose table n start p src).1 = .ok cs ∧ Fills p.dur cs := by
  obtain ⟨os, hcs, hne, hdur⟩ := exists_compose_resolved hbinds (fun _ => Lasts p.dur)
    (fun _ _ _ => lasts_flatten htable) n (lasts_ofLeaf start p) src
  exact ⟨resolve os, hcs, hdur ▸ fills_resolve hne⟩

/-! ## The stock rules -/

@[simp] theorem Span.scaled_dur (p : Span Rat) (factor : Rat) :
    (p.scaled factor).dur = p.dur * factor := rfl

@[simp] theorem Span.half_dur (p : Span Rat) : p.half.dur = p.dur * (1 / 2) := by
  rw [Span.half, Span.scaled_dur]
  norm_num

section Pieces

omit [DecidableEq S] in
theorem lasts_halves (a b : S) (p : Span Rat) :
    Lasts p.dur [.ofLeaf a p.half, .ofLeaf b p.half] := by
  refine ⟨by simp, ?_⟩
  simp only [duration_cons, duration_nil, Occurrence.ofLeaf, Span.half_dur]
  ring

omit [DecidableEq S] in
theorem lasts_threeToOne (a b : S) (p : Span Rat) :
    Lasts p.dur [.ofLeaf a (p.scaled 0.75), .ofLeaf b (p.scaled 0.25)] := by
  refine ⟨by simp, ?_⟩
  simp only [duration_cons, duration_nil, Occurrence.ofLeaf, Span.scaled_dur]
  norm_num
  ring

omit [DecidableEq S] in
/-- A modulation around the first half changes nothing. -/
theorem lasts_modulated_halves (m : Modulation) (a b : S) (p : Span Rat) :
    Lasts p.dur [(Occurrence.ofLeaf a p.half).modulate m, .ofLeaf b p.half] := by
  refine ⟨by simp, ?_⟩
  simp only [duration_cons, duration_nil, Occurrence.ofLeaf, Occurrence.modulate, Span.half_dur]
  ring

end Pieces

variable [Scalar W] [DrawSource σ W]

theorem keepsLength_functionalRules (least : Rat) :
    ∀ r ∈ (functionalRules least : MusicRules W Region Rat).rules, KeepsLength r.production :=
  yields_functionalRules (motive := fun _ p os => Lasts p.dur os) lasts_ofLeaf
    fun _ a b p _ _ => lasts_halves a b p

theorem keepsLength_romanRules (least : Rat) :
    ∀ r ∈ (romanRules least : MusicRules W Numeral Rat).rules, KeepsLength r.production :=
  yields_romanRules (motive := fun _ p os => Lasts p.dur os) lasts_ofLeaf
    (fun _ a b p _ _ => lasts_halves a b p) (fun p _ => lasts_threeToOne Numeral.I Numeral.V p)
    fun p _ => lasts_modulated_halves .fifth Numeral.I Numeral.I p

/-- Whatever the draws choose and however many passes there are, a stock progression fills exactly
the length of the chord that it grows out of. -/
theorem compose_stock_fills (least : Rat) (n : Nat) (p : Span Rat) (src : σ) :
    (∀ start, ∃ cs, (compose (functionalRules least : MusicRules W Region Rat) n start p src).1 =
      .ok cs ∧ Fills p.dur cs) ∧
    (∀ start, ∃ cs, (compose (romanRules least : MusicRules W Numeral Rat) n start p src).1 =
      .ok cs ∧ Fills p.dur cs) :=
  ⟨fun start => exists_compose_fills functionalRules_bindsItsVariables
      (keepsLength_functionalRules least) n start p src,
    fun start => exists_compose_fills romanRules_bindsItsVariables
      (keepsLength_romanRules least) n start p src⟩

end ChordGrammar
