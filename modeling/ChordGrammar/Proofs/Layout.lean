import Mathlib.Algebra.BigOperators.Group.List.Basic
import Mathlib.Algebra.Order.Ring.Rat
import ChordGrammar.Music.Progression

/-!
# Chords end to end

Resolving sets the onset and the total length of every chord and nothing else, and modulations move
key and mode and nothing else. So every chord keeps the symbol and the duration of its occurrence,
and progressions with the same durations are laid out alike. The time at which the onsets end is the
total duration, with the same additions in the same order, so for any scalar a total known
beforehand gives the same chords in one go. Over exact durations a chord starts where the durations
before it end and knows their total.
-/
namespace ChordGrammar

variable {S T : Type}

/-! ## Places -/

section Places

variable [Scalar T]

/-- The chord at its place in a piece. -/
def Chord.placed (c : Chord S T) (total onset : T) : Chord S T :=
  { c with span := { c.span with onset := onset, seqDur := total } }

/-- The chords end to end from `onset` on, in a piece of length `total`. -/
def layFrom (total onset : T) : List (Chord S T) → List (Chord S T)
  | [] => []
  | c :: cs => c.placed total onset :: layFrom total (onset + c.span.dur) cs

theorem layFrom_cons (total onset : T) (c : Chord S T) (cs : List (Chord S T)) :
    layFrom total onset (c :: cs) =
      c.placed total onset :: layFrom total (onset + c.span.dur) cs := rfl

theorem stop_setOnsets (onset : T) (cs : List (Chord S T)) :
    (setOnsets onset cs).stop = (cs.map (·.span.dur)).foldl (· + ·) onset := by
  induction cs generalizing onset with
  | nil => rfl
  | cons c cs ih => exact ih (onset + c.span.dur)

/-- Onsets first and the total length afterwards are both in one go. -/
theorem map_withSeqDur_setOnsets (total onset : T) (cs : List (Chord S T)) :
    (setOnsets onset cs).chords.map (·.withSeqDur total) = layFrom total onset cs := by
  induction cs generalizing onset with
  | nil => rfl
  | cons c cs ih => exact congrArg (c.placed total onset :: ·) (ih (onset + c.span.dur))

/-- Resolving lays the chords out in a piece that is as long as they are. -/
theorem resolve_eq (os : List (Occurrence S (Span T) Modulation)) :
    resolve os =
      layFrom (totalDuration (os.map Chord.ofOccurrence)) 0 (os.map Chord.ofOccurrence) := by
  have htotal : (setOnsets 0 (os.map Chord.ofOccurrence)).stop =
      totalDuration (os.map Chord.ofOccurrence) := stop_setOnsets 0 _
  rw [resolve, htotal, map_withSeqDur_setOnsets]

/-- Laying chords out keeps whatever does not depend on places. -/
theorem map_layFrom {α : Type} {f : Chord S T → α}
    (hf : ∀ c total onset, f (c.placed total onset) = f c) (total onset : T)
    (cs : List (Chord S T)) : (layFrom total onset cs).map f = cs.map f := by
  induction cs generalizing onset with
  | nil => rfl
  | cons c cs ih => rw [layFrom_cons, List.map_cons, List.map_cons, hf, ih]

theorem map_resolve {α : Type} {f : Chord S T → α}
    (hf : ∀ c total onset, f (c.placed total onset) = f c)
    (os : List (Occurrence S (Span T) Modulation)) :
    (resolve os).map f = os.map fun o => f (.ofOccurrence o) := by
  rw [resolve_eq, map_layFrom hf, List.map_map]
  rfl

@[simp] theorem map_symbol_resolve (os : List (Occurrence S (Span T) Modulation)) :
    (resolve os).map (·.symbol) = os.map (·.symbol) :=
  map_resolve (fun _ _ _ => rfl) os

/-- What holds of every occurrence, in whatever place, holds of every chord. -/
theorem forall_mem_layFrom {q : Chord S T → Prop} {cs : List (Chord S T)}
    (h : ∀ c ∈ cs, ∀ total onset, q (c.placed total onset)) (total onset : T) :
    ∀ c ∈ layFrom total onset cs, q c := by
  induction cs generalizing onset with
  | nil => simp [layFrom]
  | cons c cs ih =>
    rw [List.forall_mem_cons] at h
    rw [layFrom_cons, List.forall_mem_cons]
    exact ⟨h.1 total onset, ih h.2 (onset + c.span.dur)⟩

theorem forall_mem_resolve {q : Chord S T → Prop}
    {os : List (Occurrence S (Span T) Modulation)}
    (h : ∀ o ∈ os, ∀ total onset, q ((Chord.ofOccurrence o).placed total onset)) :
    ∀ c ∈ resolve os, q c := by
  rw [resolve_eq]
  exact forall_mem_layFrom (by simpa using h) _ 0

/-- Chords of the same durations get the same places. -/
theorem forall₂_layFrom {R : Chord S T → Chord S T → Prop} {cs cs' : List (Chord S T)}
    (h : List.Forall₂ (fun c c' => c'.span.dur = c.span.dur ∧
      ∀ total onset, R (c.placed total onset) (c'.placed total onset)) cs cs')
    (total onset : T) : List.Forall₂ R (layFrom total onset cs) (layFrom total onset cs') := by
  induction h generalizing onset with
  | nil => exact .nil
  | cons hc _ ih =>
    rw [layFrom_cons, layFrom_cons, hc.1]
    exact .cons (hc.2 total onset) (ih _)

theorem forall₂_resolve {R : Chord S T → Chord S T → Prop}
    {os os' : List (Occurrence S (Span T) Modulation)}
    (h : List.Forall₂ (fun o o' =>
      (Chord.ofOccurrence o').span.dur = (Chord.ofOccurrence o).span.dur ∧ ∀ total onset,
        R ((Chord.ofOccurrence o).placed total onset) ((Chord.ofOccurrence o').placed total onset))
      os os') : List.Forall₂ R (resolve os) (resolve os') := by
  have hdur : (os'.map Chord.ofOccurrence).map (·.span.dur) =
      (os.map Chord.ofOccurrence).map (·.span.dur) := by
    rw [← List.forall₂_eq_eq_eq]
    simpa using (h.imp fun _ _ ho => ho.1).flip
  rw [resolve_eq, resolve_eq, totalDuration, totalDuration, hdur]
  exact forall₂_layFrom (by simpa using h) _ 0

end Places

theorem Modulation.foldl_apply_dur [Scalar T] (ms : List Modulation) (p : Span T) :
    (ms.foldl (fun p m => m.apply p) p).dur = p.dur := by
  induction ms generalizing p with
  | nil => rfl
  | cons m ms ih => exact ih (m.apply p)

@[simp] theorem Chord.ofOccurrence_dur [Scalar T] (o : Occurrence S (Span T) Modulation) :
    (Chord.ofOccurrence o).span.dur = o.param.dur :=
  Modulation.foldl_apply_dur o.modulations o.param

@[simp] theorem length_resolve [Scalar T] (os : List (Occurrence S (Span T) Modulation)) :
    (resolve os).length = os.length := by
  simpa only [List.length_map] using congrArg List.length (map_symbol_resolve os)

theorem map_dur_resolve [Scalar T] (os : List (Occurrence S (Span T) Modulation)) :
    (resolve os).map (·.span.dur) = os.map (·.param.dur) := by
  rw [map_resolve (fun _ _ _ => rfl)]
  simp

/-! ## Exact durations -/

theorem Scalar.sum_eq (xs : List Rat) : Scalar.sum xs = xs.sum := by
  rw [List.sum_eq_foldl]
  rfl

/-- Summed duration of occurrences. -/
def duration (os : List (Occurrence S (Span Rat) Modulation)) : Rat := (os.map (·.param.dur)).sum

/-- A chord is laid after the summed durations of the chords before it. -/
theorem getElem?_layFrom (total onset : Rat) (cs : List (Chord S Rat)) (i : Nat) :
    (layFrom total onset cs)[i]? =
      cs[i]?.map (·.placed total (onset + ((cs.take i).map (·.span.dur)).sum)) := by
  induction cs generalizing onset i with
  | nil => rfl
  | cons c cs ih =>
    cases i with
    | zero => simp [layFrom]
    | succ i =>
      have hlay := ih (onset + c.span.dur) i
      simp only [layFrom, List.getElem?_cons_succ, hlay]
      simp [add_assoc]

/-- Chord `i` of a resolved progression, from occurrence `i` and the durations before it. -/
theorem getElem?_resolve (os : List (Occurrence S (Span Rat) Modulation)) (i : Nat) :
    (resolve os)[i]? = os[i]?.map fun o =>
      ⟨o.symbol, { (Chord.ofOccurrence o).span with
        onset := duration (os.take i), seqDur := duration os }⟩ := by
  have htotal : totalDuration (os.map Chord.ofOccurrence) = duration os := by
    simp [totalDuration, Scalar.sum_eq, duration, Function.comp_def]
  have hbefore : (((os.map Chord.ofOccurrence).take i).map (·.span.dur)).sum =
      duration (os.take i) := by
    simp [duration, ← List.map_take, Function.comp_def]
  simp only [resolve_eq, htotal, getElem?_layFrom, hbefore, List.getElem?_map]
  cases os[i]? with
  | none => rfl
  | some o => simp [Chord.ofOccurrence, Chord.placed]

theorem duration_take_succ (os : List (Occurrence S (Span Rat) Modulation)) (i : Nat)
    (h : i < os.length) : duration (os.take (i + 1)) = duration (os.take i) + os[i].param.dur := by
  rw [List.take_add_one, List.getElem?_eq_getElem h, Option.toList_some, duration,
    List.map_append, List.sum_append, List.map_singleton, List.sum_singleton, duration]

/-- The progression lasts exactly `length`: there is a chord, the durations sum to it, the chords
follow each other without gap or overlap from onset zero on, and each knows the total. -/
structure Fills (length : Rat) (cs : List (Chord S Rat)) : Prop where
  ne_nil : cs ≠ []
  durations : (cs.map (·.span.dur)).sum = length
  first : ∀ c ∈ cs.head?, c.span.onset = 0
  next : ∀ i (h : i + 1 < cs.length), cs[i + 1].span.onset = cs[i].span.onset + cs[i].span.dur
  seqDur : ∀ c ∈ cs, c.span.seqDur = length

/-- Resolving lays any occurrences end to end. -/
theorem fills_resolve {os : List (Occurrence S (Span Rat) Modulation)} (hne : os ≠ []) :
    Fills (duration os) (resolve os) where
  ne_nil := by simpa [← List.length_pos_iff] using hne
  durations := by rw [map_dur_resolve, duration]
  first := by
    intro c hc
    rw [List.head?_eq_getElem?, getElem?_resolve] at hc
    obtain ⟨o, -, rfl⟩ := Option.map_eq_some_iff.mp hc
    rfl
  next := by
    intro i hi
    have hget (j : Nat) (hj : j < (resolve os).length) (hj' : j < os.length) : (resolve os)[j] =
        ⟨os[j].symbol, { (Chord.ofOccurrence os[j]).span with
          onset := duration (os.take j), seqDur := duration os }⟩ := by
      rw [List.getElem_eq_iff, getElem?_resolve, List.getElem?_eq_getElem hj', Option.map_some]
    have hlt : i + 1 < os.length := by simpa using hi
    rw [hget (i + 1) hi hlt, hget i (by omega) (by omega), Chord.ofOccurrence_dur]
    exact duration_take_succ os i (by omega)
  seqDur := by
    intro c hc
    obtain ⟨i, hi⟩ := List.mem_iff_getElem?.mp hc
    rw [getElem?_resolve] at hi
    obtain ⟨o, -, rfl⟩ := Option.map_eq_some_iff.mp hi
    rfl

end ChordGrammar
