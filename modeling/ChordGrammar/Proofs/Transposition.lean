import Mathlib.Data.List.Forall2
import ChordGrammar.Proofs.ParameterMaps
import ChordGrammar.Proofs.Scales
import ChordGrammar.Proofs.ScopePreservation
import ChordGrammar.Proofs.TonalContext

/-!
# Transposition

The stock rules look at durations and copy the rest of a span. Two compositions from spans of the
same length are therefore images of one run: they take the same draws and resolve the same
occurrences, one with the context of the first span put on them, one with that of the second. Chords
agree in all but key and mode, and if the two starts are a transposition apart then so are the
chords, because modulations and roots add to the key modulo twelve.
-/
namespace ChordGrammar

variable {W S T σ : Type}

/-! ## Rules that look at durations only -/

/-- The first span, lasting as long as the second. -/
def Span.lasting [Scalar T] (p q : Span T) : Span T := p.withDur q.dur

section Durations

variable [Scalar T]

theorem Span.lasting_of_dur_eq {p q : Span T} (h : p.dur = q.dur) : p.lasting q = p := by
  rw [lasting, withDur, ← h]

theorem mapsTo_staying (p : Span T) (s : S) (w : W) :
    (staying s w : MusicRule W S T).MapsTo p.lasting (staying s w) :=
  ⟨rfl, rfl, fun _ => rfl⟩

theorem mapsTo_splitting {p : Span T} {s : S} {w : W} {least factor : T}
    {production : Span T → List (MusicTerm S T)}
    (h : ∀ q, production (p.lasting q) = Term.mapSentenceParam p.lasting (production q)) :
    (splitting s w least factor production).MapsTo p.lasting
      (splitting s w least factor production) :=
  Rule.MapsTo.guarded ⟨rfl, rfl, h⟩ fun _ => rfl

theorem functionalRules_mapsTo [Scalar W] (least : T) (p : Span T) :
    (functionalRules least : MusicRules W Region T).MapsTo p.lasting (functionalRules least) :=
  List.forall₂_same.mpr <| forall_functionalRules (mapsTo_staying p) fun _ _ _ _ _ =>
    mapsTo_splitting fun _ => rfl

theorem romanRules_mapsTo [Scalar W] (least : T) (p : Span T) :
    (romanRules least : MusicRules W Numeral T).MapsTo p.lasting (romanRules least) :=
  List.forall₂_same.mpr <| forall_romanRules (mapsTo_staying p)
    (fun _ _ _ _ _ => mapsTo_splitting fun _ => rfl) (fun _ => mapsTo_splitting fun _ => rfl)
    (fun _ => mapsTo_splitting fun _ => rfl) fun _ => mapsTo_splitting fun _ => rfl

/-- All compositions from spans of one length resolve the same occurrences, each with its own
context, and leave the source the same. -/
theorem exists_compose_lasting [DecidableEq S] [Scalar W] [DrawSource σ W]
    {table : MusicRules W S T} (hbinds : table.BindsItsVariables)
    (hmaps : ∀ p : Span T, table.MapsTo p.lasting table) (n : Nat) (start : S) (p : Span T)
    (src : σ) :
    ∃ os : List (Occurrence S (Span T) Modulation), ∀ q : Span T, q.dur = p.dur →
      compose table n start q src =
      (.ok (resolve (os.map (·.mapParam q.lasting))), (compose table n start p src).2) := by
  obtain ⟨os, hos, -⟩ := exists_compose hbinds n start p src
  refine ⟨os, fun q hq => ?_⟩
  calc compose table n start q src
    _ = compose table n start (q.lasting p) src := by rw [Span.lasting_of_dur_eq hq]
    _ = (.ok (resolve (os.map (·.mapParam q.lasting))), (compose table n start p src).2) := by
      rw [compose_mapParam (hmaps q), hos]
      rfl

end Durations

/-! ## Keys a transposition apart -/

/-- The spans have the same mode, and the second key is `t` semitones above the first. -/
structure Span.ShiftedBy (t : Nat) (p q : Span T) : Prop where
  mode : q.mode = p.mode
  key : q.key.toNat = (p.key.toNat + t) % 12

theorem Span.ShiftedBy.apply [Scalar T] {t : Nat} {p q : Span T} (h : p.ShiftedBy t q)
    (m : Modulation) : (m.apply p).ShiftedBy t (m.apply q) where
  mode := by simp only [Modulation.apply, Span.isMajor, h.mode]
  key := by
    rw [Modulation.toNat_apply_key, Modulation.toNat_apply_key, Span.isMajor, Span.isMajor,
      h.mode, h.key]
    omega

/-- Modulations keep a transposition. -/
theorem Span.ShiftedBy.foldl_apply [Scalar T] {t : Nat} {p q : Span T} (h : p.ShiftedBy t q)
    (ms : List Modulation) :
    (ms.foldl (fun p m => m.apply p) p).ShiftedBy t (ms.foldl (fun p m => m.apply p) q) := by
  induction ms generalizing p q with
  | nil => exact h
  | cons m ms ih => exact ih (h.apply m)

/-- Pitch classes of a degree move with the key. -/
theorem Mode.map_toNat_degreePitchClass_of_shifted (m : Mode) {key key' : UInt8} {t : Nat}
    (h : key'.toNat = (key.toNat + t) % 12) (degree : Nat) :
    (m.degreePitchClass key' degree).map UInt8.toNat =
      (m.degreePitchClass key degree).map fun pc => (pc.toNat + t) % 12 := by
  calc (m.degreePitchClass key' degree).map UInt8.toNat
    _ = m.scale[degree]?.map fun offset => (key'.toNat + offset.toNat) % 12 :=
      m.map_toNat_degreePitchClass key' degree
    _ = m.scale[degree]?.map fun offset => ((key.toNat + offset.toNat) % 12 + t) % 12 := by
      refine congrArg (Option.map · m.scale[degree]?) (funext fun offset => ?_)
      rw [h]
      omega
    _ = ((m.degreePitchClass key degree).map UInt8.toNat).map fun pc => (pc + t) % 12 := by
      rw [m.map_toNat_degreePitchClass, Option.map_map]
      rfl
    _ = (m.degreePitchClass key degree).map fun pc => (pc.toNat + t) % 12 := Option.map_map ..

/-! ## Chords compared -/

namespace Chord

/-- The chords have the same symbol, place and length. -/
structure SameTiming (c c' : Chord S T) : Prop where
  symbol : c'.symbol = c.symbol
  dur : c'.span.dur = c.span.dur
  onset : c'.span.onset = c.span.onset
  seqDur : c'.span.seqDur = c.span.seqDur

/-- The second chord is the first moved up by `t` semitones: the same mode, the key higher by `t`,
and no root in either or the root higher by `t`. -/
structure TransposedBy [ChordSymbol S] (t : Nat) (c c' : Chord S T) : Prop where
  mode : c'.span.mode = c.span.mode
  key : c'.span.key.toNat = (c.span.key.toNat + t) % 12
  root : c'.rootPitchClass.map UInt8.toNat =
    c.rootPitchClass.map fun pc => (pc.toNat + t) % 12

theorem transposedBy_of_shiftedBy [ChordSymbol S] {t : Nat} {c c' : Chord S T}
    (hsymbol : c'.symbol = c.symbol) (h : c.span.ShiftedBy t c'.span) : c.TransposedBy t c' where
  mode := h.mode
  key := h.key
  root := by
    rw [rootPitchClass, rootPitchClass, hsymbol, h.mode]
    cases ChordSymbol.degree c.symbol with
    | none => rfl
    | some degree => exact c.span.mode.map_toNat_degreePitchClass_of_shifted h.key degree

end Chord

/-! ## Two compositions side by side -/

section Compositions

variable [Scalar T]

theorem Chord.ofOccurrence_lasting_dur (p : Span T) (o : Occurrence S (Span T) Modulation) :
    (Chord.ofOccurrence (o.mapParam p.lasting)).span.dur = o.param.dur := by
  rw [ofOccurrence_dur]
  rfl

/-- The same occurrences in two contexts are laid out alike. -/
theorem forall₂_resolve_lasting {R : Chord S T → Chord S T → Prop} {p q : Span T}
    {os : List (Occurrence S (Span T) Modulation)}
    (h : ∀ o ∈ os, ∀ total onset,
      R ((Chord.ofOccurrence (o.mapParam p.lasting)).placed total onset)
        ((Chord.ofOccurrence (o.mapParam q.lasting)).placed total onset)) :
    List.Forall₂ R (resolve (os.map (·.mapParam p.lasting)))
      (resolve (os.map (·.mapParam q.lasting))) := by
  apply forall₂_resolve
  rw [List.forall₂_map_left_iff, List.forall₂_map_right_iff, List.forall₂_same]
  intro o ho
  refine ⟨?_, h o ho⟩
  rw [Chord.ofOccurrence_lasting_dur, Chord.ofOccurrence_lasting_dur]

theorem sameTiming_resolve (p q : Span T) (os : List (Occurrence S (Span T) Modulation)) :
    List.Forall₂ Chord.SameTiming (resolve (os.map (·.mapParam p.lasting)))
      (resolve (os.map (·.mapParam q.lasting))) := by
  refine forall₂_resolve_lasting fun o _ total onset => ⟨rfl, ?_, rfl, rfl⟩
  exact (Chord.ofOccurrence_lasting_dur q o).trans (Chord.ofOccurrence_lasting_dur p o).symm

theorem transposedBy_resolve [ChordSymbol S] {t : Nat} {p q : Span T} (h : p.ShiftedBy t q)
    (os : List (Occurrence S (Span T) Modulation)) :
    List.Forall₂ (Chord.TransposedBy t) (resolve (os.map (·.mapParam p.lasting)))
      (resolve (os.map (·.mapParam q.lasting))) := by
  refine forall₂_resolve_lasting fun o _ total onset => ?_
  have hleaf : (p.lasting o.param).ShiftedBy t (q.lasting o.param) := ⟨h.mode, h.key⟩
  have hspan : (Chord.ofOccurrence (o.mapParam p.lasting)).span.ShiftedBy t
      (Chord.ofOccurrence (o.mapParam q.lasting)).span := hleaf.foldl_apply o.modulations
  exact Chord.transposedBy_of_shiftedBy rfl ⟨hspan.mode, hspan.key⟩

end Compositions

/-- What compositions from `p` and from `q` have in common when the two last equally long: the draws
they take, and chord by chord everything but key and mode. If moreover the modes are the same and
the second key is `t` semitones above the first, then so are the keys and roots of all chords. -/
structure ComposesAlike [DecidableEq S] [ChordSymbol S] [Scalar W] [Scalar T] [DrawSource σ W]
    (table : MusicRules W S T) (n : Nat) (start : S) (p q : Span T) (src : σ) : Prop where
  source : (compose table n start q src).2 = (compose table n start p src).2
  draws : (compose table n start q (Recorded.start src : Recorded σ W)).2.history =
    (compose table n start p (Recorded.start src : Recorded σ W)).2.history
  chords : ∃ cs cs', (compose table n start p src).1 = .ok cs ∧
    (compose table n start q src).1 = .ok cs' ∧
    List.Forall₂ Chord.SameTiming cs cs' ∧
    ∀ t, q.mode = p.mode → q.key.toNat = (p.key.toNat + t) % 12 →
      List.Forall₂ (Chord.TransposedBy t) cs cs'

theorem composesAlike_of_dur_eq [DecidableEq S] [ChordSymbol S] [Scalar W] [Scalar T]
    [DrawSource σ W] {table : MusicRules W S T} (hbinds : table.BindsItsVariables)
    (hmaps : ∀ p : Span T, table.MapsTo p.lasting table) (n : Nat) (start : S) {p q : Span T}
    (hdur : q.dur = p.dur) (src : σ) : ComposesAlike table n start p q src := by
  obtain ⟨os, hos⟩ := exists_compose_lasting hbinds hmaps n start p src
  obtain ⟨_, hrecorded⟩ :=
    exists_compose_lasting hbinds hmaps n start p (Recorded.start src : Recorded σ W)
  refine ⟨?_, ?_, resolve (os.map (·.mapParam p.lasting)), resolve (os.map (·.mapParam q.lasting)),
    ?_, ?_, sameTiming_resolve p q os, fun t hmode hkey => transposedBy_resolve ⟨hmode, hkey⟩ os⟩
  · rw [hos q hdur]
  · rw [hrecorded q hdur]
  · rw [hos p rfl]
  · rw [hos q hdur]

/-- Key and mode never steer a stock grammar, and transposition commutes with composing. -/
theorem compose_stock_transposes [Scalar W] [Scalar T] [DrawSource σ W] (least : T) (n : Nat)
    {p q : Span T} (hdur : q.dur = p.dur) (src : σ) :
    (∀ start, ComposesAlike (functionalRules least : MusicRules W Region T) n start p q src) ∧
    (∀ start, ComposesAlike (romanRules least : MusicRules W Numeral T) n start p q src) :=
  ⟨fun start => composesAlike_of_dur_eq functionalRules_bindsItsVariables
      (functionalRules_mapsTo least) n start hdur src,
    fun start => composesAlike_of_dur_eq romanRules_bindsItsVariables
      (romanRules_mapsTo least) n start hdur src⟩

/-- A scale of three degrees has no root for a V; a chord in the key of the dominant has left that
scale. -/
theorem compose_transposes_threeDegrees :
    let src : Cycle Rat := ⟨[1 / 10, 7 / 10, 9 / 10], List.cons_ne_nil _ _, 0⟩
    let rules : MusicRules Rat Numeral Rat := romanRules (1 / 8)
    let p : Span Rat := ⟨4, .custom [0, 3, 19], 2, 0, 4⟩
    let q : Span Rat := ⟨4, .custom [0, 3, 19], 9, 1, 8⟩
    q.dur = p.dur ∧
    (compose rules 2 .I p src).1.map (·.map Chord.rootPitchClass) =
      .ok [some 9, some 2, none] ∧
    (compose rules 2 .I q src).1.map (·.map Chord.rootPitchClass) =
      .ok [some 4, some 9, none] ∧
    ∃ cs cs', (compose rules 2 .I p src).1 = .ok cs ∧ (compose rules 2 .I q src).1 = .ok cs' ∧
      List.Forall₂ Chord.SameTiming cs cs' ∧ List.Forall₂ (Chord.TransposedBy 7) cs cs' := by
  intro src rules p q
  have hdur : q.dur = p.dur := rfl
  obtain ⟨cs, cs', hp, hq, htiming, htransposed⟩ :=
    ((compose_stock_transposes (W := Rat) (1 / 8) 2 hdur src).2 .I).chords
  exact ⟨hdur, by decide +kernel, by decide +kernel, cs, cs', hp, hq, htiming,
    htransposed 7 rfl rfl⟩

end ChordGrammar
