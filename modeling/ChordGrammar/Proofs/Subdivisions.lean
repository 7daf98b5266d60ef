import Mathlib.Data.Rat.Floor
import Mathlib.Tactic.Linarith
import Mathlib.Tactic.NormNum
import Mathlib.Tactic.Positivity
import Mathlib.Tactic.Ring
import ChordGrammar.Music.Span

/-!
# Subdivisions

Some modifiers cut a span down to a part of it: to one of its halves, to one of its quarters, or to
its first eighth. A chain of them leads further and further into the span and never out of it. Equal
parts of equal parts are equal parts of the whole, numbered through from first to last; so whatever
the depth, the chains over the halves, or over the quarters, lead to spans that lie end to end, if
the chains are listed in lexicographic order.
-/
namespace ChordGrammar

/-! ## Equal parts -/

theorem range_mul (n m : Nat) :
    List.range (n * m) = (List.range n).flatMap fun i => (List.range m).map (i * m + ·) := by
  induction n with
  | zero => rw [Nat.zero_mul, List.range_zero, List.flatMap_nil]
  | succ n ih =>
    rw [Nat.succ_mul, List.range_add, List.range_succ, List.flatMap_append, ih,
      List.flatMap_singleton]

namespace Span

/-- When the span ends. -/
def stop (p : Span Rat) : Rat := p.onset + p.dur

def Covers (p : Span Rat) (x : Rat) : Prop := p.onset ≤ x ∧ x < p.stop

/-- Part number `i`, from zero on, of the `n` equal parts of a span. -/
def part (p : Span Rat) (n i : Nat) : Span Rat :=
  { p with dur := p.dur / n, onset := p.onset + i * (p.dur / n) }

def parts (p : Span Rat) (n : Nat) : List (Span Rat) := (List.range n).map (p.part n)

@[simp] theorem length_parts (p : Span Rat) (n : Nat) : (p.parts n).length = n := by simp [parts]

@[simp] theorem getElem_parts (p : Span Rat) (n i : Nat) (h : i < (p.parts n).length) :
    (p.parts n)[i] = p.part n i := by simp [parts]

theorem stop_part (p : Span Rat) (n i : Nat) :
    (p.part n i).stop = p.onset + (i + 1) * (p.dur / n) := by
  rw [stop, part]
  ring

theorem scaled_eq_part (p : Span Rat) {factor : Rat} {n : Nat} (hfactor : factor = 1 / n) :
    p.scaled factor = p.part n 0 := by
  have honset : p.onset = p.onset + (0 : Nat) * (p.dur / n) := by
    rw [Nat.cast_zero, zero_mul, add_zero]
  simp only [scaled, withDur, part, hfactor, mul_one_div, ← honset]

/-- The onset moves by quarters of the whole length, which have to be taken before it shrinks. -/
theorem scaled_shifted_eq_part (p : Span Rat) {factor : Rat} {quarters n i : Nat}
    (hfactor : factor = 1 / n) (hplace : (quarters : Rat) / 4 = i / n) :
    (p.shifted quarters).scaled factor = p.part n i := by
  have honset : p.onset + p.dur * quarters / ((4 : Nat) : Rat) = p.onset + i * (p.dur / n) := by
    rw [Nat.cast_ofNat, mul_div_assoc, hplace]
    ring
  simp only [scaled, shifted, withDur, part, hfactor, mul_one_div, honset]

theorem parts_one (p : Span Rat) : p.parts 1 = [p] := by simp [parts, part]

theorem part_part (p : Span Rat) (n i j : Nat) {m : Nat} (hm : m ≠ 0) :
    (p.part n i).part m j = p.part (n * m) (i * m + j) := by
  have hm' : (m : Rat) ≠ 0 := Nat.cast_ne_zero.mpr hm
  have hdur : p.dur / n / m = p.dur / ((n * m : Nat) : Rat) := by rw [div_div, Nat.cast_mul]
  have hwhole : p.dur / n = m * (p.dur / ((n * m : Nat) : Rat)) := by
    rw [← hdur, mul_div_cancel₀ _ hm']
  have honset : p.onset + i * (p.dur / n) + j * (p.dur / ((n * m : Nat) : Rat)) =
      p.onset + ((i * m + j : Nat) : Rat) * (p.dur / ((n * m : Nat) : Rat)) := by
    rw [hwhole, Nat.cast_add, Nat.cast_mul i m]
    ring
  simp only [part, hdur, honset]

/-- Parts of parts are parts of the whole, in the order in which they lie. -/
theorem flatMap_parts (p : Span Rat) (n : Nat) {m : Nat} (hm : m ≠ 0) :
    (p.parts n).flatMap (·.parts m) = p.parts (n * m) := by
  rw [parts, parts, range_mul, List.flatMap_map, List.map_flatMap]
  refine List.flatMap_congr fun i _ => ?_
  simp [parts, part_part p n i _ hm]

/-- The spans lie end to end from the onset of `p` to its end: each begins where the one before it
ends, and every time in `p` falls into exactly one of them. -/
structure Tiles (qs : List (Span Rat)) (p : Span Rat) : Prop where
  first : qs.head?.map (·.onset) = some p.onset
  next : ∀ i (h : i + 1 < qs.length), qs[i + 1].onset = qs[i].stop
  last : qs.getLast?.map stop = some p.stop
  once : ∀ x, p.Covers x → ∃! i : Fin qs.length, qs[i].Covers x

/-- A time falls into the part whose number is the number of whole parts before it. -/
theorem covers_part_iff {p : Span Rat} {n : Nat} {x : Rat} (hdur : 0 < p.dur / n)
    (hx : p.onset ≤ x) (i : Nat) :
    (p.part n i).Covers x ↔ ⌊(x - p.onset) / (p.dur / n)⌋₊ = i := by
  have helapsed : 0 ≤ (x - p.onset) / (p.dur / n) := div_nonneg (sub_nonneg.mpr hx) hdur.le
  rw [Nat.floor_eq_iff helapsed, le_div_iff₀ hdur, div_lt_iff₀ hdur, Covers, stop_part, part]
  constructor
  · rintro ⟨hstart, hstop⟩
    constructor <;> linarith
  · rintro ⟨hstart, hstop⟩
    constructor
    · show p.onset + i * (p.dur / n) ≤ x
      linarith
    · linarith

theorem existsUnique_part {p : Span Rat} {n : Nat} (hn : 0 < n) {x : Rat} (hx : p.Covers x) :
    ∃! i : Fin (p.parts n).length, (p.parts n)[i].Covers x := by
  have hn' : (0 : Rat) < n := Nat.cast_pos.mpr hn
  have hlength : 0 < p.dur := by
    have hstop : x < p.onset + p.dur := hx.2
    linarith [hx.1]
  have hdur : 0 < p.dur / n := div_pos hlength hn'
  have hbefore : ⌊(x - p.onset) / (p.dur / n)⌋₊ < (p.parts n).length := by
    rw [length_parts, Nat.floor_lt (div_nonneg (sub_nonneg.mpr hx.1) hdur.le), div_lt_iff₀ hdur,
      mul_div_cancel₀ _ hn'.ne']
    exact sub_lt_iff_lt_add'.mpr hx.2
  simp only [Fin.getElem_fin, getElem_parts, covers_part_iff hdur hx.1]
  exact ⟨⟨_, hbefore⟩, rfl, fun i hi => Fin.ext hi.symm⟩

theorem tiles_parts (p : Span Rat) {n : Nat} (hn : 0 < n) : Tiles (p.parts n) p where
  first := by
    rw [parts, List.head?_map, List.head?_range]
    simp [hn.ne', part]
  next := by
    intro i h
    rw [getElem_parts, getElem_parts, stop_part, part, Nat.cast_succ]
  last := by
    have hn' : (n : Rat) ≠ 0 := Nat.cast_ne_zero.mpr hn.ne'
    have hlast : (((n - 1 : Nat) : Rat) + 1) * (p.dur / n) = p.dur := by
      rw [← Nat.cast_succ, Nat.succ_eq_add_one, Nat.sub_add_cancel hn, mul_div_cancel₀ _ hn']
    have hstop : (p.part n (n - 1)).stop = p.stop := by rw [stop_part, hlast, stop]
    simp [parts, List.getLast?_range, hn.ne', hstop]
  once := fun _ hx => existsUnique_part hn hx

/-! ## Spans within spans -/

/-- The first span lies within the second and has the same context. -/
structure Within (q p : Span Rat) : Prop where
  onset : p.onset ≤ q.onset
  stop : q.stop ≤ p.stop
  dur : 0 ≤ q.dur
  mode : q.mode = p.mode
  key : q.key = p.key
  seqDur : q.seqDur = p.seqDur

theorem Within.refl {p : Span Rat} (h : 0 ≤ p.dur) : p.Within p :=
  ⟨le_rfl, le_rfl, h, rfl, rfl, rfl⟩

theorem Within.trans {r q p : Span Rat} (h : r.Within q) (h' : q.Within p) : r.Within p where
  onset := h'.onset.trans h.onset
  stop := h.stop.trans h'.stop
  dur := h.dur
  mode := h.mode.trans h'.mode
  key := h.key.trans h'.key
  seqDur := h.seqDur.trans h'.seqDur

theorem part_within {p : Span Rat} (h : 0 ≤ p.dur) {n i : Nat} (hi : i < n) :
    (p.part n i).Within p where
  onset := le_add_of_nonneg_right (by positivity)
  stop := by
    have hn : (n : Rat) ≠ 0 := Nat.cast_ne_zero.mpr (by omega)
    have hle : ((i : Rat) + 1) * (p.dur / n) ≤ n * (p.dur / n) :=
      mul_le_mul_of_nonneg_right (by exact_mod_cast hi) (by positivity)
    rw [mul_div_cancel₀ _ hn] at hle
    rw [stop_part, stop]
    exact add_le_add_right hle _
  dur := div_nonneg h (Nat.cast_nonneg n)
  mode := rfl
  key := rfl
  seqDur := rfl

end Span

/-! ## Chains of cuts -/

/-- The modifiers that cut a span down to a part of it. -/
inductive Cut where
  | half
  | secondHalf
  | quarter
  | secondQuarter
  | thirdQuarter
  | fourthQuarter
  | eighth
  deriving DecidableEq

namespace Cut

def apply {T : Type} [Scalar T] : Cut → Span T → Span T
  | .half => Span.half
  | .secondHalf => Span.secondHalf
  | .quarter => Span.quarter
  | .secondQuarter => Span.secondQuarter
  | .thirdQuarter => Span.thirdQuarter
  | .fourthQuarter => Span.fourthQuarter
  | .eighth => Span.eighth

/-- How many equal parts a span is cut into. -/
def count : Cut → Nat
  | .half | .secondHalf => 2
  | .quarter | .secondQuarter | .thirdQuarter | .fourthQuarter => 4
  | .eighth => 8

/-- Which of the parts is kept. -/
def index : Cut → Nat
  | .half | .quarter | .eighth => 0
  | .secondHalf | .secondQuarter => 1
  | .thirdQuarter => 2
  | .fourthQuarter => 3

theorem index_lt_count (c : Cut) : c.index < c.count := by cases c <;> decide

theorem apply_eq_part (c : Cut) (p : Span Rat) : c.apply p = p.part c.count c.index := by
  cases c with
  | half => exact p.scaled_eq_part (by norm_num [count])
  | quarter => exact p.scaled_eq_part (by norm_num [count])
  | eighth => exact p.scaled_eq_part (by norm_num [count])
  | secondHalf =>
    exact p.scaled_shifted_eq_part (by norm_num [count]) (by norm_num [count, index])
  | secondQuarter =>
    exact p.scaled_shifted_eq_part (by norm_num [count]) (by norm_num [count, index])
  | thirdQuarter =>
    exact p.scaled_shifted_eq_part (by norm_num [count]) (by norm_num [count, index])
  | fourthQuarter =>
    exact p.scaled_shifted_eq_part (by norm_num [count]) (by norm_num [count, index])

/-- The two halves of a span, in order. -/
def halves : List Cut := [.half, .secondHalf]

/-- Its four quarters, in order. -/
def quarters : List Cut := [.quarter, .secondQuarter, .thirdQuarter, .fourthQuarter]

/-- The parts that some cuts keep are all the equal parts, from first to last. -/
def Complete (cuts : List Cut) : Prop := ∀ p : Span Rat, cuts.map (·.apply p) = p.parts cuts.length

theorem complete_of_parts {cuts : List Cut} (hcount : ∀ c ∈ cuts, c.count = cuts.length)
    (hindex : cuts.map index = List.range cuts.length) : Complete cuts := by
  intro p
  rw [Span.parts, ← hindex, List.map_map]
  refine List.map_congr_left fun c hc => ?_
  rw [apply_eq_part, hcount c hc, Function.comp_apply]

theorem complete_halves : Complete halves := complete_of_parts (by decide) (by decide)

theorem complete_quarters : Complete quarters := complete_of_parts (by decide) (by decide)

/-- All chains of a length over some cuts, the cut that is applied first varying slowest. -/
def chains (cuts : List Cut) : Nat → List (List Cut)
  | 0 => [[]]
  | k + 1 => cuts.flatMap fun c => (chains cuts k).map (c :: ·)

theorem mem_chains_iff {cuts chain : List Cut} {k : Nat} :
    chain ∈ chains cuts k ↔ chain.length = k ∧ ∀ c ∈ chain, c ∈ cuts := by
  induction k generalizing chain with
  | zero => cases chain <;> simp [chains]
  | succ k ih =>
    cases chain with
    | nil => simp [chains]
    | cons c chain => simp [chains, ih, and_left_comm]

/-- In lexicographic order. -/
theorem pairwise_chains {cuts : List Cut} (h : cuts.Pairwise fun c d => c.index < d.index)
    (k : Nat) : (chains cuts k).Pairwise (List.Lex fun c d => c.index < d.index) := by
  induction k with
  | zero => exact List.pairwise_singleton _ _
  | succ k ih =>
    rw [chains, List.pairwise_flatMap]
    refine ⟨fun c _ => ?_, h.imp fun {c d} hcd => ?_⟩
    · exact List.pairwise_map.mpr (ih.imp .cons)
    · intro a ha b hb
      obtain ⟨a', -, rfl⟩ := List.mem_map.mp ha
      obtain ⟨b', -, rfl⟩ := List.mem_map.mp hb
      exact .rel hcd

example : chains halves 2 = [[.half, .half], [.half, .secondHalf], [.secondHalf, .half],
    [.secondHalf, .secondHalf]] := rfl

end Cut

/-- The span after a chain of cuts, the first of them applied first. -/
def Span.narrowed {T : Type} [Scalar T] (p : Span T) (chain : List Cut) : Span T :=
  chain.foldl (fun q c => c.apply q) p

/-- The step: a cut leads to a part of the span. -/
theorem Cut.apply_within (c : Cut) {p : Span Rat} (h : 0 ≤ p.dur) : (c.apply p).Within p := by
  rw [apply_eq_part]
  exact Span.part_within h c.index_lt_count

/-- The run: each cut leads to a part of the part before it. -/
theorem Span.narrowed_within {p : Span Rat} (h : 0 ≤ p.dur) (chain : List Cut) :
    (p.narrowed chain).Within p := by
  induction chain generalizing p with
  | nil => exact .refl h
  | cons c chain ih =>
    have hstep := c.apply_within h
    exact (ih hstep.dur).trans hstep

/-- By induction on the depth, for all spans at once: the chains that begin with a cut subdivide the
part that it keeps. -/
theorem Cut.Complete.map_narrowed_chains {cuts : List Cut} (h : Complete cuts)
    (hne : cuts.length ≠ 0) (k : Nat) (p : Span Rat) :
    (chains cuts k).map p.narrowed = p.parts (cuts.length ^ k) := by
  induction k generalizing p with
  | zero => exact p.parts_one.symm
  | succ k ih =>
    calc (chains cuts (k + 1)).map p.narrowed
      _ = cuts.flatMap fun c => (chains cuts k).map (c.apply p).narrowed := by
        rw [chains, List.map_flatMap]
        refine List.flatMap_congr fun c _ => ?_
        rw [List.map_map]
        rfl
      _ = (cuts.map (·.apply p)).flatMap (·.parts (cuts.length ^ k)) := by
        rw [List.flatMap_map]
        exact List.flatMap_congr fun c _ => ih (c.apply p)
      _ = p.parts (cuts.length ^ (k + 1)) := by
        rw [h p, Span.flatMap_parts p _ (pow_ne_zero k hne), pow_succ']

/-- The chains of length `k` over some cuts, in lexicographic order, lead to equally long spans
that tile `p`. -/
structure Span.Subdivided (p : Span Rat) (cuts : List Cut) (k : Nat) : Prop where
  all : ∀ chain, chain ∈ Cut.chains cuts k ↔ chain.length = k ∧ ∀ c ∈ chain, c ∈ cuts
  sorted : (Cut.chains cuts k).Pairwise (List.Lex fun c d => c.index < d.index)
  number : (Cut.chains cuts k).length = cuts.length ^ k
  equal : ∀ chain ∈ Cut.chains cuts k, (p.narrowed chain).dur = p.dur / cuts.length ^ k
  tiles : Span.Tiles ((Cut.chains cuts k).map p.narrowed) p

theorem Span.subdivided {cuts : List Cut} (hcomplete : Cut.Complete cuts)
    (hsorted : cuts.Pairwise fun c d => c.index < d.index) (hne : cuts.length ≠ 0) (k : Nat)
    (p : Span Rat) : p.Subdivided cuts k := by
  have hparts := hcomplete.map_narrowed_chains hne k p
  refine ⟨fun chain => Cut.mem_chains_iff, Cut.pairwise_chains hsorted k, ?_, ?_, ?_⟩
  · simpa using congrArg List.length hparts
  · intro chain hchain
    have hmem : p.narrowed chain ∈ p.parts (cuts.length ^ k) :=
      hparts ▸ List.mem_map_of_mem hchain
    obtain ⟨i, -, hi⟩ := List.mem_map.mp hmem
    rw [← hi, part, Nat.cast_pow]
  · rw [hparts]
    exact tiles_parts p (Nat.pow_pos (Nat.pos_of_ne_zero hne))

/-- A chain of cuts leads to a span within the span that it starts from, with the same key, mode and
length of the piece. The `2 ^ k` chains of length `k` over the halves of a span, and the `4 ^ k`
over its quarters, subdivide it: in lexicographic order they lead to equal spans that lie end to
end. -/
theorem narrowed_subdivides (p : Span Rat) :
    (0 ≤ p.dur → ∀ chain : List Cut, (p.narrowed chain).Within p) ∧
    ∀ k, p.Subdivided Cut.halves k ∧ p.Subdivided Cut.quarters k :=
  ⟨Span.narrowed_within, fun k =>
    ⟨p.subdivided Cut.complete_halves (by decide) (by decide) k,
      p.subdivided Cut.complete_quarters (by decide) (by decide) k⟩⟩

theorem narrowed_subdivides_threeMeasures :
    let p : Span Rat := ⟨3, .custom [0, 3, 7], 14, 1 / 2, 12⟩
    let q : Span Rat := ⟨3 / 64, .custom [0, 3, 7], 14, 25 / 8, 12⟩
    0 ≤ p.dur ∧ p.narrowed [.fourthQuarter, .secondHalf, .eighth] = q ∧ q.Within p ∧
    ((Cut.chains Cut.halves 2).map p.narrowed).map (·.onset) = [1 / 2, 5 / 4, 2, 11 / 4] ∧
    p.Subdivided Cut.halves 2 ∧ p.Subdivided Cut.quarters 3 := by
  intro p q
  have hdur : 0 ≤ p.dur := by decide +kernel
  have hq : p.narrowed [.fourthQuarter, .secondHalf, .eighth] = q := by decide +kernel
  obtain ⟨hwithin, hsubdivided⟩ := narrowed_subdivides p
  exact ⟨hdur, hq, hq ▸ hwithin hdur _, by decide +kernel, (hsubdivided 2).1, (hsubdivided 3).2⟩

end ChordGrammar
