import Mathlib.Tactic.Ring
import ChordGrammar.Proofs.FilledLength
import ChordGrammar.Proofs.ParameterMaps
import ChordGrammar.Proofs.ScopePreservation

/-!
# Tempo

The stock rules know no duration but the least one: they compare a span with multiples of it, and
the pieces that they make are fractions of the span. So if the least duration and the first chord
are made longer by the same factor, every guard decides as before and every piece is longer by the
factor. The two runs take the same draws, and the second progression is the first one played slower
or faster.
-/
namespace ChordGrammar

variable {W S σ : Type} {c : Rat}

/-! ## Times multiplied -/

/-- The span with its length multiplied from the left. -/
def Span.stretched (c : Rat) (p : Span Rat) : Span Rat := p.withDur (c * p.dur)

theorem Span.stretched_scaled (c : Rat) (p : Span Rat) (part : Rat) :
    (p.stretched c).scaled part = (p.scaled part).stretched c := by
  have h : c * p.dur * part = c * (p.dur * part) := mul_assoc c p.dur part
  simp only [Span.scaled, Span.stretched, Span.withDur, h]

theorem Span.stretched_half (c : Rat) (p : Span Rat) :
    (p.stretched c).half = p.half.stretched c := p.stretched_scaled c 0.5

/-- The chord with its length, its onset and the length of the piece multiplied. -/
def Chord.stretched (c : Rat) (x : Chord S Rat) : Chord S Rat :=
  { x with span := { x.span with
    dur := c * x.span.dur, onset := c * x.span.onset, seqDur := c * x.span.seqDur } }

theorem Modulation.foldl_apply_stretched (ms : List Modulation) (c : Rat) (p : Span Rat) :
    ms.foldl (fun p m => m.apply p) (p.stretched c) =
      (ms.foldl (fun p m => m.apply p) p).stretched c := by
  induction ms generalizing p with
  | nil => rfl
  | cons m ms ih => exact ih (m.apply p)

theorem duration_map_stretched (c : Rat) (os : List (Occurrence S (Span Rat) Modulation)) :
    duration (os.map (·.mapParam (Span.stretched c))) = c * duration os := by
  induction os with
  | nil => simp
  | cons o os ih =>
    rw [List.map_cons, duration_cons, duration_cons, ih, mul_add]
    rfl

/-- Stretched occurrences are resolved to stretched chords. -/
theorem resolve_map_stretched (c : Rat) (os : List (Occurrence S (Span Rat) Modulation)) :
    resolve (os.map (·.mapParam (Span.stretched c))) = (resolve os).map (Chord.stretched c) := by
  refine List.ext_getElem? fun i => ?_
  rw [List.getElem?_map, getElem?_resolve, getElem?_resolve, List.getElem?_map, ← List.map_take,
    duration_map_stretched, duration_map_stretched, Option.map_map, Option.map_map]
  refine congrArg (Option.map · os[i]?) (funext fun o => ?_)
  simp only [Function.comp_apply, Chord.ofOccurrence, Occurrence.mapParam,
    Modulation.foldl_apply_stretched]
  rfl

/-! ## Rules at two tempos -/

theorem mapsTo_staying_stretched (c : Rat) (s : S) (w : W) :
    (staying s w : MusicRule W S Rat).MapsTo (Span.stretched c) (staying s w) :=
  ⟨rfl, rfl, fun _ => rfl⟩

/-- A guard decides alike when span and least duration are longer by the same factor. -/
theorem mapsTo_splitting_stretched (hc : 0 < c) {s : S} {w : W} {least factor : Rat}
    {production : Span Rat → List (MusicTerm S Rat)}
    (h : ∀ p, production (p.stretched c) =
      Term.mapSentenceParam (Span.stretched c) (production p)) :
    (splitting s w least factor production).MapsTo (Span.stretched c)
      (splitting s w (c * least) factor production) := by
  refine Rule.MapsTo.guarded ⟨rfl, rfl, h⟩ fun p => decide_eq_decide.mpr ?_
  calc factor * (c * least) ≤ (p.stretched c).dur
    _ ↔ c * (factor * least) ≤ c * p.dur := by rw [mul_left_comm]; rfl
    _ ↔ factor * least ≤ p.dur := mul_le_mul_iff_right₀ hc

theorem halves_stretched (c : Rat) (a b : S) (p : Span Rat) :
    halves a b (p.stretched c) = Term.mapSentenceParam (Span.stretched c) (halves a b p) := by
  simp only [halves, Term.mapSentenceParam, Term.mapParam, Span.stretched_half]

theorem threeToOne_stretched (c : Rat) (p : Span Rat) :
    threeToOne (p.stretched c) = Term.mapSentenceParam (Span.stretched c) (threeToOne p) := by
  simp only [threeToOne, Term.mapSentenceParam, Term.mapParam, Span.stretched_scaled]

theorem tonicized_stretched (c : Rat) (p : Span Rat) :
    tonicized (p.stretched c) = Term.mapSentenceParam (Span.stretched c) (tonicized p) := by
  simp only [tonicized, Term.mapSentenceParam, Term.mapParam, Span.stretched_half]

theorem repeated_stretched (c : Rat) (p : Span Rat) :
    repeated (p.stretched c) = Term.mapSentenceParam (Span.stretched c) (repeated p) := by
  simp only [repeated, Term.mapSentenceParam, Term.mapParam, Span.stretched_half]

section Tables

variable [Scalar W] (hc : 0 < c) (least : Rat)
include hc

theorem functionalRules_mapsTo_stretched :
    (functionalRules least : MusicRules W Region Rat).MapsTo (Span.stretched c)
      (functionalRules (c * least)) :=
  forall₂_functionalRules least (c * least) (mapsTo_staying_stretched c) fun _ a b _ _ =>
    mapsTo_splitting_stretched hc (halves_stretched c a b)

theorem romanRules_mapsTo_stretched :
    (romanRules least : MusicRules W Numeral Rat).MapsTo (Span.stretched c)
      (romanRules (c * least)) :=
  forall₂_romanRules least (c * least) (mapsTo_staying_stretched c)
    (fun _ a b _ _ => mapsTo_splitting_stretched hc (halves_stretched c a b))
    (fun _ => mapsTo_splitting_stretched hc (threeToOne_stretched c))
    (fun _ => mapsTo_splitting_stretched hc (tonicized_stretched c))
    fun _ => mapsTo_splitting_stretched hc (repeated_stretched c)

end Tables

/-! ## Compositions at two tempos -/

/-- Tables that do to stretched spans what they do to spans: composing commutes with stretching. -/
theorem compose_stretched [DecidableEq S] [Scalar W] [DrawSource σ W]
    {table table' : MusicRules W S Rat} (hmaps : table.MapsTo (Span.stretched c) table') (n : Nat)
    (start : S) (p : Span Rat) (src : σ) :
    compose table' n start (p.stretched c) src =
      ((compose table n start p src).1.map (·.map (Chord.stretched c)),
        (compose table n start p src).2) := by
  rw [compose_mapParam hmaps, compose_eq]
  simp only [resolve_map_stretched]
  cases expandSentence (generate table n [.leaf start p] src).1 <;> rfl

/-- The composition over `table'` from the first chord made longer by the factor `c` is the
composition over `table` at another tempo: it takes the same draws and leaves the source the same,
and its chords are those of the other, each longer by the factor. -/
structure ComposesAtTempo [DecidableEq S] [Scalar W] [DrawSource σ W] (c : Rat)
    (table table' : MusicRules W S Rat) (n : Nat) (start : S) (p : Span Rat) (src : σ) : Prop where
  source : (compose table' n start (p.withDur (c * p.dur)) src).2 =
    (compose table n start p src).2
  draws : (compose table' n start (p.withDur (c * p.dur))
      (Recorded.start src : Recorded σ W)).2.history =
    (compose table n start p (Recorded.start src : Recorded σ W)).2.history
  chords : ∃ cs, (compose table n start p src).1 = .ok cs ∧
    (compose table' n start (p.withDur (c * p.dur)) src).1 = .ok (cs.map (Chord.stretched c))

theorem composesAtTempo_of_mapsTo [DecidableEq S] [Scalar W] [DrawSource σ W]
    {table table' : MusicRules W S Rat} (hbinds : table.BindsItsVariables)
    (hmaps : table.MapsTo (Span.stretched c) table') (n : Nat) (start : S) (p : Span Rat)
    (src : σ) : ComposesAtTempo c table table' n start p src := by
  have hrun := compose_stretched hmaps n start p src
  have hrecorded := compose_stretched hmaps n start p (Recorded.start src : Recorded σ W)
  rw [Span.stretched] at hrun hrecorded
  obtain ⟨os, -, hcs⟩ := exists_compose hbinds n start p src
  refine ⟨?_, ?_, resolve os, hcs, ?_⟩
  · rw [hrun]
  · rw [hrecorded]
  · rw [hrun, hcs]
    rfl

/-- A stock grammar plays the same progression at every tempo. -/
theorem compose_stock_tempo [Scalar W] [DrawSource σ W] (hc : 0 < c) (least : Rat) (n : Nat)
    (p : Span Rat) (src : σ) :
    (∀ start, ComposesAtTempo c (functionalRules least : MusicRules W Region Rat)
      (functionalRules (c * least)) n start p src) ∧
    (∀ start, ComposesAtTempo c (romanRules least : MusicRules W Numeral Rat)
      (romanRules (c * least)) n start p src) :=
  ⟨fun start => composesAtTempo_of_mapsTo functionalRules_bindsItsVariables
      (functionalRules_mapsTo_stretched hc least) n start p src,
    fun start => composesAtTempo_of_mapsTo romanRules_bindsItsVariables
      (romanRules_mapsTo_stretched hc least) n start p src⟩

/-- A piece of four beats at two thirds of its speed, its first chord in the key of the dominant. -/
theorem compose_stock_tempo_slower :
    let src : Cycle Rat := ⟨[1 / 10, 7 / 10, 9 / 10], List.cons_ne_nil _ _, 0⟩
    let p : Span Rat := ⟨4, .major, 0, 0, 4⟩
    let rules : MusicRules Rat Numeral Rat := romanRules (1 / 8)
    let slower : MusicRules Rat Numeral Rat := romanRules (3 / 2 * (1 / 8))
    (0 : Rat) < 3 / 2 ∧
    (compose slower 2 .I (p.withDur (3 / 2 * p.dur)) src).1.map
        (·.map fun x => (x.symbol, x.span.key, x.span.dur, x.span.onset, x.span.seqDur)) =
      .ok [(.I, 7, 9 / 4, 0, 6), (.I, 0, 9 / 4, 9 / 4, 6), (.V, 0, 3 / 2, 9 / 2, 6)] ∧
    ComposesAtTempo (3 / 2) rules slower 2 .I p src := by
  intro src p rules slower
  have hc : (0 : Rat) < 3 / 2 := by decide +kernel
  exact ⟨hc, by decide +kernel, (compose_stock_tempo hc (1 / 8) 2 p src).2 .I⟩

end ChordGrammar
