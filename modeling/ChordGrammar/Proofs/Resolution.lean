import ChordGrammar.Proofs.Layout

/-!
# Resolution

Modulations act on key and mode alone, so a chord's context is that of its leaf carried through the
modulations around it, and its duration is that of its leaf. Onset and total length are written
over, from the durations, and never read. A chord that has been resolved stands under no modulation
any more: resolving it again lays the same durations out from the same onset.
-/
namespace ChordGrammar

variable {S T : Type}

/-! ## Contexts -/

/-- A key with a mode: what a modulation acts on. -/
structure Tonality where
  key : UInt8
  mode : Mode

namespace Tonality

/-- The context to which a modulation leads. -/
def moved (t : Tonality) (m : Modulation) : Tonality where
  key := (t.key % 12 + m.shift (t.mode = .major)) % 12
  mode := m.targetMode (t.mode = .major)

/-- The context inside a nest of modulations, the outermost of which comes first: the others are
relative to the context that it leads to. -/
def inside : List Modulation → Tonality → Tonality
  | [], t => t
  | m :: ms, t => inside ms (t.moved m)

end Tonality

def Span.tonality (p : Span T) : Tonality := ⟨p.key, p.mode⟩

section Contexts

variable [Scalar T]

/-- A span under modulations: its context moves, and nothing else. -/
theorem Modulation.foldl_apply_eq (ms : List Modulation) (p : Span T) :
    ms.foldl (fun p m => m.apply p) p =
      { p with
        key := (p.tonality.inside ms).key
        mode := (p.tonality.inside ms).mode } := by
  induction ms generalizing p with
  | nil => rfl
  | cons m ms ih => exact ih (m.apply p)

theorem Chord.ofOccurrence_eq (o : Occurrence S (Span T) Modulation) :
    Chord.ofOccurrence o =
      ⟨o.symbol, { o.param with
        key := (o.param.tonality.inside o.modulations).key
        mode := (o.param.tonality.inside o.modulations).mode }⟩ := by
  rw [ofOccurrence, Modulation.foldl_apply_eq]

end Contexts

/-! ## Places -/

section Places

/-- The occurrence with other values for its place. -/
def Occurrence.placed (o : Occurrence S (Span T) Modulation) (total onset : T) :
    Occurrence S (Span T) Modulation :=
  { o with param := { o.param with onset := onset, seqDur := total } }

@[simp] theorem Occurrence.placed_placed (o : Occurrence S (Span T) Modulation)
    (total onset total' onset' : T) :
    (o.placed total' onset').placed total onset = o.placed total onset := rfl

variable [Scalar T]

theorem Chord.ofOccurrence_placed (o : Occurrence S (Span T) Modulation) (total onset : T) :
    Chord.ofOccurrence (o.placed total onset) = (Chord.ofOccurrence o).placed total onset := by
  rw [ofOccurrence_eq, ofOccurrence_eq]
  rfl

theorem layFrom_map_placed (total onset total' onset' : T) (cs : List (Chord S T)) :
    layFrom total onset (cs.map (·.placed total' onset')) = layFrom total onset cs := by
  induction cs generalizing onset with
  | nil => rfl
  | cons c cs ih =>
    rw [List.map_cons, layFrom_cons, layFrom_cons, ih]
    rfl

/-- Laying chords out does not read where they were. -/
theorem layFrom_layFrom (total onset total' onset' : T) (cs : List (Chord S T)) :
    layFrom total onset (layFrom total' onset' cs) = layFrom total onset cs := by
  have hforget : (layFrom total' onset' cs).map (·.placed 0 0) = cs.map (·.placed 0 0) :=
    map_layFrom (fun _ _ _ => rfl) total' onset' cs
  rw [← layFrom_map_placed total onset 0 0 (layFrom total' onset' cs), hforget,
    layFrom_map_placed]

@[simp] theorem totalDuration_layFrom (total onset : T) (cs : List (Chord S T)) :
    totalDuration (layFrom total onset cs) = totalDuration cs := by
  rw [totalDuration, totalDuration, map_layFrom fun _ _ _ => rfl]

theorem resolve_map_placed (os : List (Occurrence S (Span T) Modulation)) (total onset : T) :
    resolve (os.map (·.placed total onset)) = resolve os := by
  have hchords : (os.map (·.placed total onset)).map Chord.ofOccurrence =
      (os.map Chord.ofOccurrence).map (·.placed total onset) := by
    simp [Function.comp_def, Chord.ofOccurrence_placed]
  have htotal : totalDuration ((os.map Chord.ofOccurrence).map (·.placed total onset)) =
      totalDuration (os.map Chord.ofOccurrence) := by
    rw [totalDuration, totalDuration, List.map_map]
    rfl
  rw [resolve_eq, resolve_eq, hchords, layFrom_map_placed, htotal]

/-- The places stored in a list of occurrences have no influence. -/
theorem resolve_mapIdx_placed (os : List (Occurrence S (Span T) Modulation))
    (total onset : Nat → T) :
    resolve (os.mapIdx fun i o => o.placed (total i) (onset i)) = resolve os := by
  have hforget : (os.mapIdx fun i o => o.placed (total i) (onset i)).map (·.placed 0 0) =
      os.map (·.placed 0 0) := by
    apply List.ext_getElem?
    simp [Function.comp_def]
  rw [← resolve_map_placed _ 0 0, hforget, resolve_map_placed]

/-- Chords as leaves with no modulation around them. -/
def leavesOf (cs : List (Chord S T)) : List (Occurrence S (Span T) Modulation) :=
  cs.map fun c => .ofLeaf c.symbol c.span

@[simp] theorem map_ofOccurrence_leavesOf (cs : List (Chord S T)) :
    (leavesOf cs).map Chord.ofOccurrence = cs := by
  simp [leavesOf, Function.comp_def, Occurrence.ofLeaf, Chord.ofOccurrence]

theorem resolve_leavesOf_resolve (os : List (Occurrence S (Span T) Modulation)) :
    resolve (leavesOf (resolve os)) = resolve os := by
  rw [resolve_eq, map_ofOccurrence_leavesOf, resolve_eq, totalDuration_layFrom, layFrom_layFrom]

end Places

/-! ## Exact durations -/

theorem totalDuration_resolve (os : List (Occurrence S (Span Rat) Modulation)) :
    totalDuration (resolve os) = duration os := by
  rw [totalDuration, map_dur_resolve, Scalar.sum_eq, duration]

/-- Resolving lays chords end to end and does it once and for all. Chord `i` has the symbol and the
duration of leaf `i`, key and mode of the leaf carried through its modulations from the outermost
on, the summed durations of the chords before it for its onset, and the total for its length of
piece. The places stored in the leaves have no influence, and the chords, taken for leaves, resolve
to themselves. -/
theorem resolve_end_to_end (os : List (Occurrence S (Span Rat) Modulation)) :
    (∀ i, (resolve os)[i]? = os[i]?.map fun o =>
      (⟨o.symbol,
        { dur := o.param.dur
          key := (o.param.tonality.inside o.modulations).key
          mode := (o.param.tonality.inside o.modulations).mode
          onset := (((resolve os).take i).map (·.span.dur)).sum
          seqDur := totalDuration (resolve os) }⟩ : Chord S Rat)) ∧
    (∀ total onset : Nat → Rat,
      resolve (os.mapIdx fun i o => o.placed (total i) (onset i)) = resolve os) ∧
    resolve (leavesOf (resolve os)) = resolve os := by
  refine ⟨fun i => ?_, resolve_mapIdx_placed os, resolve_leavesOf_resolve os⟩
  have hbefore : (((resolve os).take i).map (·.span.dur)).sum = duration (os.take i) := by
    rw [List.map_take, map_dur_resolve, ← List.map_take, duration]
  rw [getElem?_resolve, hbefore, totalDuration_resolve]
  simp only [Chord.ofOccurrence_eq]

end ChordGrammar
