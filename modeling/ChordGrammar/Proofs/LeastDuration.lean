import Mathlib.Tactic.Linarith
import ChordGrammar.Proofs.FilledLength

/-!
# No chord shorter than the guard allows

A rule that makes a piece of a chord fires only where that piece still has the least duration: a
rule of halves from twice the least duration on, the rule that cuts off a quarter from four times.
So a pass puts nothing in place of a chord that is shorter than both the chord and the least
duration, and what a composition ends up with is not shorter than its first chord or the least
duration, whichever is less.
-/
namespace ChordGrammar

variable {W S σ : Type}

/-! ## Pieces of a guarded span -/

/-- A rule that fires from `factor` times the least duration on may make pieces of one part in
`factor`: they have the least duration. -/
theorem least_le_scaled_dur {least factor part : Rat} {p : Span Rat} (hleast : 0 ≤ least)
    (hpart : 0 ≤ part) (hfits : 1 ≤ factor * part) (hguard : factor * least ≤ p.dur) :
    least ≤ (p.scaled part).dur := by
  calc least
    _ ≤ factor * part * least := le_mul_of_one_le_left hleast hfits
    _ = factor * least * part := by ring
    _ ≤ p.dur * part := mul_le_mul_of_nonneg_right hguard hpart
    _ = (p.scaled part).dur := (p.scaled_dur part).symm

/-- The same for a least duration of either sign: below zero it forbids nothing, but then a part of
a span is not less than it or not less than the span. -/
theorem min_le_scaled_dur {least factor part : Rat} {p : Span Rat} (hpart : 0 ≤ part)
    (hwhole : part ≤ 1) (hfits : 1 ≤ factor * part) (hguard : factor * least ≤ p.dur) :
    min p.dur least ≤ (p.scaled part).dur := by
  rw [min_le_iff]
  rcases le_or_gt 0 least with hleast | hleast
  · exact Or.inr (least_le_scaled_dur hleast hpart hfits hguard)
  · rcases le_total p.dur 0 with hdur | hdur
    · left
      calc p.dur
        _ = p.dur * 1 := (mul_one p.dur).symm
        _ ≤ (p.scaled part).dur := mul_le_mul_of_nonpos_left hwhole hdur
    · exact Or.inr (hleast.le.trans (mul_nonneg hdur hpart))

/-! ## Passes -/

/-- None of the occurrences is shorter than both the span and the least duration. -/
def LongEnough (least : Rat) (p : Span Rat) (os : List (Occurrence S (Span Rat) Modulation)) :
    Prop :=
  ∀ o ∈ os, min p.dur least ≤ o.param.dur

theorem longEnough_ofLeaf (least : Rat) (s : S) (p : Span Rat) :
    LongEnough least p [.ofLeaf s p] :=
  List.forall_mem_singleton.mpr (min_le_left p.dur least)

section Passes

variable [DecidableEq S] {table : MusicRules W S Rat} {least : Rat}

/-- The step: what takes the place of an occurrence that is long enough is long enough. -/
theorem longEnough_pieces
    (htable : ∀ r ∈ table.rules, r.Yields fun _ => LongEnough least) {p : Span Rat}
    {es : List (Occurrence S (Span Rat) Modulation)}
    {pieces : List (List (Occurrence S (Span Rat) Modulation))} (hes : LongEnough least p es)
    (h : List.Forall₂ (Rewritten table) es pieces) : LongEnough least p pieces.flatten := by
  intro o ho
  obtain ⟨e, he, piece, hpiece, hmem⟩ := exists_rewritten_of_mem h ho
  rcases hpiece.eq_or_yields htable with rfl | ⟨os, hos, rfl⟩
  · rw [List.mem_singleton.mp hmem]
    exact hes e he
  · obtain ⟨u, hu, rfl⟩ := List.mem_map.mp hmem
    calc min p.dur least
      _ ≤ min e.param.dur least := le_min (hes e he) (min_le_right p.dur least)
      _ ≤ u.param.dur := hos u hu

/-- The run: so is every chord of a composition. -/
theorem exists_compose_longEnough [Scalar W] [DrawSource σ W] (hbinds : table.BindsItsVariables)
    (htable : ∀ r ∈ table.rules, r.Yields fun _ => LongEnough least) (n : Nat) (start : S)
    (p : Span Rat) (src : σ) :
    ∃ cs, (compose table n start p src).1 = .ok cs ∧ ∀ c ∈ cs, min p.dur least ≤ c.span.dur := by
  obtain ⟨os, hcs, hos⟩ := exists_compose_resolved hbinds (fun _ => LongEnough least p)
    (fun _ _ _ => longEnough_pieces htable) n (longEnough_ofLeaf least start p) src
  refine ⟨resolve os, hcs, forall_mem_resolve fun o ho _ _ => ?_⟩
  calc min p.dur least
    _ ≤ o.param.dur := hos o ho
    _ = (Chord.ofOccurrence o).span.dur := (Chord.ofOccurrence_dur o).symm

end Passes

/-! ## The stock rules -/

section Pieces

variable {least : Rat} {p : Span Rat}

theorem min_le_half_dur (hguard : ((2 : Nat) : Rat) * least ≤ p.dur) :
    min p.dur least ≤ p.half.dur :=
  min_le_scaled_dur (by norm_num) (by norm_num) (by norm_num) hguard

theorem longEnough_halves (a b : S) (hguard : ((2 : Nat) : Rat) * least ≤ p.dur) :
    LongEnough least p [.ofLeaf a p.half, .ofLeaf b p.half] :=
  List.forall_mem_cons.mpr
    ⟨min_le_half_dur hguard, List.forall_mem_singleton.mpr (min_le_half_dur hguard)⟩

/-- Three quarters of the span would be long enough earlier; the guard is that of the quarter. -/
theorem longEnough_threeToOne (a b : S) (hguard : ((4 : Nat) : Rat) * least ≤ p.dur) :
    LongEnough least p [.ofLeaf a (p.scaled 0.75), .ofLeaf b (p.scaled 0.25)] :=
  List.forall_mem_cons.mpr
    ⟨min_le_scaled_dur (by norm_num) (by norm_num) (by norm_num) hguard,
      List.forall_mem_singleton.mpr
        (min_le_scaled_dur (by norm_num) (by norm_num) (by norm_num) hguard)⟩

end Pieces

variable [Scalar W] (least : Rat)

theorem functionalRules_longEnough :
    ∀ r ∈ (functionalRules least : MusicRules W Region Rat).rules,
      r.Yields fun _ => LongEnough least :=
  yields_functionalRules (longEnough_ofLeaf least) fun _ a b _ _ => longEnough_halves a b

theorem romanRules_longEnough :
    ∀ r ∈ (romanRules least : MusicRules W Numeral Rat).rules,
      r.Yields fun _ => LongEnough least := by
  refine yields_romanRules (longEnough_ofLeaf least) (fun _ a b _ _ => longEnough_halves a b)
    (fun _ => longEnough_threeToOne Numeral.I Numeral.V) fun p hguard => ?_
  -- The modulation around the first half leaves its duration alone.
  exact List.forall_mem_cons.mpr
    ⟨min_le_half_dur hguard, List.forall_mem_singleton.mpr (min_le_half_dur hguard)⟩

/-- No chord of a stock progression is shorter than the guard allows: every chord lasts at least as
long as the first chord of the progression or as the least duration, whichever is less. -/
theorem compose_stock_longEnough [DrawSource σ W] (n : Nat) (p : Span Rat) (src : σ) :
    (∀ start, ∃ cs,
      (compose (functionalRules least : MusicRules W Region Rat) n start p src).1 = .ok cs ∧
      ∀ c ∈ cs, min p.dur least ≤ c.span.dur) ∧
    (∀ start, ∃ cs,
      (compose (romanRules least : MusicRules W Numeral Rat) n start p src).1 = .ok cs ∧
      ∀ c ∈ cs, min p.dur least ≤ c.span.dur) :=
  ⟨fun start => exists_compose_longEnough functionalRules_bindsItsVariables
      (functionalRules_longEnough least) n start p src,
    fun start => exists_compose_longEnough romanRules_bindsItsVariables
      (romanRules_longEnough least) n start p src⟩

end ChordGrammar
