import Mathlib.Tactic.Ring
import ChordGrammar.Proofs.Layout
import ChordGrammar.Proofs.StockRules

/-!
# Tonal context

A modulation moves the key by a number of semitones below twelve, so bytes never overflow and keys
are sums modulo twelve. The stock rules copy key and mode; only the modulations around a chord move
them, all to the fifth degree and at most one more for each pass. A chord therefore ends up on the
circle of fifths above the key that its progression started from, no higher than there were passes.
-/
namespace ChordGrammar

variable {W S T σ : Type}

/-! ## Modulations of a span -/

namespace Modulation

theorem shift_lt (fromMajor : Bool) (m : Modulation) : (m.shift fromMajor).toNat < 12 := by
  cases fromMajor <;> cases m <;> decide

variable [Scalar T]

theorem toNat_apply_key (m : Modulation) (p : Span T) :
    (m.apply p).key.toNat = (p.key.toNat + (m.shift p.isMajor).toNat) % 12 := by
  have hshift := shift_lt p.isMajor m
  have hbyte : (m.apply p).key.toNat =
      (p.key.toNat % 12 + (m.shift p.isMajor).toNat) % 256 % 12 := by
    simp [apply, UInt8.toNat_add, UInt8.toNat_mod]
  omega

theorem toNat_fifth_apply_key (p : Span T) :
    (fifth.apply p).key.toNat = (p.key.toNat + 7) % 12 := by
  have hfifth : ∀ b, (fifth.shift b).toNat = 7 := by decide
  rw [toNat_apply_key, hfifth]

theorem fifth_apply_mode (p : Span T) :
    (fifth.apply p).mode = if p.mode = .major then .major else .minor := by
  by_cases h : p.mode = .major <;> simp [apply, targetMode, Span.isMajor, h]

end Modulation

/-- Key and mode of `q` are `d` steps up the circle of fifths from those of `p`. Without a step
they are untouched, so the key may be 12 or more and the mode any. -/
def UpFifths (p : Span T) (d : Nat) (q : Span T) : Prop :=
  (d = 0 → q.key = p.key ∧ q.mode = p.mode) ∧
  (1 ≤ d → q.key.toNat = (p.key.toNat + 7 * d) % 12 ∧
    q.mode = if p.mode = .major then .major else .minor)

theorem upFifths_foldl_apply [Scalar T] (d : Nat) (p : Span T) :
    UpFifths p d ((List.replicate d Modulation.fifth).foldl (fun p m => m.apply p) p) := by
  induction d generalizing p with
  | zero => exact ⟨fun _ => ⟨rfl, rfl⟩, fun h => absurd h (by decide)⟩
  | succ d ih =>
    obtain ⟨hnone, hsome⟩ := ih (Modulation.fifth.apply p)
    rw [List.replicate_succ, List.foldl_cons]
    refine ⟨fun h => absurd h (Nat.succ_ne_zero d), fun _ => ?_⟩
    rcases Nat.eq_zero_or_pos d with hd | hd
    · obtain ⟨hkey, hmode⟩ := hnone hd
      rw [hkey, hmode, Modulation.toNat_fifth_apply_key, hd]
      exact ⟨rfl, Modulation.fifth_apply_mode p⟩
    · obtain ⟨hkey, hmode⟩ := hsome hd
      rw [Modulation.toNat_fifth_apply_key] at hkey
      rw [Modulation.fifth_apply_mode] at hmode
      refine ⟨by omega, ?_⟩
      rw [hmode]
      by_cases h : p.mode = .major <;> simp [h]

/-! ## Passes -/

/-- The occurrence has the key and mode of `p` and stands under at most `limit` modulations, each
to the fifth. -/
def WithinFifths (limit : Nat) (p : Span T) (o : Occurrence S (Span T) Modulation) : Prop :=
  (∃ d ≤ limit, o.modulations = List.replicate d .fifth) ∧
    o.param.key = p.key ∧ o.param.mode = p.mode

theorem withinFifths_ofLeaf (limit : Nat) {p q : Span T} (s : S) (hkey : q.key = p.key)
    (hmode : q.mode = p.mode) :
    WithinFifths limit p (.ofLeaf s q : Occurrence S (Span T) Modulation) :=
  ⟨⟨0, Nat.zero_le limit, rfl⟩, hkey, hmode⟩

/-- What is within fifths of an occurrence is within both together of its start. -/
theorem WithinFifths.under {j k : Nat} {p : Span T} {o u : Occurrence S (Span T) Modulation}
    (ho : WithinFifths j p o) (hu : WithinFifths k o.param u) :
    WithinFifths (j + k) p (u.under o.modulations) := by
  obtain ⟨⟨d, hd, hmods⟩, hkey, hmode⟩ := ho
  obtain ⟨⟨d', hd', hmods'⟩, hkey', hmode'⟩ := hu
  refine ⟨⟨d + d', Nat.add_le_add hd hd', ?_⟩, hkey'.trans hkey, hmode'.trans hmode⟩
  rw [Occurrence.under, hmods, hmods', List.replicate_add]

theorem WithinFifths.mono {j k : Nat} {p : Span T} {o : Occurrence S (Span T) Modulation}
    (h : WithinFifths j p o) (hjk : j ≤ k) : WithinFifths k p o := by
  obtain ⟨⟨d, hd, hmods⟩, hcontext⟩ := h
  exact ⟨⟨d, hd.trans hjk, hmods⟩, hcontext⟩

/-- The chord of the occurrence is as many fifths up as it has modulations around it. -/
theorem WithinFifths.exists_upFifths [Scalar T] {limit : Nat} {p : Span T}
    {o : Occurrence S (Span T) Modulation} (h : WithinFifths limit p o) :
    ∃ d ≤ limit, UpFifths p d (Chord.ofOccurrence o).span := by
  obtain ⟨⟨d, hd, hmods⟩, hkey, hmode⟩ := h
  refine ⟨d, hd, ?_⟩
  have hup := upFifths_foldl_apply d o.param
  rw [UpFifths, hkey, hmode] at hup
  rw [Chord.ofOccurrence, hmods]
  exact hup

section Passes

variable [DecidableEq S] {table : MusicRules W S T} {k : Nat}

/-- The step: where no rule adds more than `k` modulations to the fifth, a pass does not either. -/
theorem withinFifths_pieces
    (htable : ∀ r ∈ table.rules, r.Yields fun _ p os => ∀ o ∈ os, WithinFifths k p o)
    {limit : Nat} {p : Span T} {es : List (Occurrence S (Span T) Modulation)}
    {pieces : List (List (Occurrence S (Span T) Modulation))}
    (hes : ∀ e ∈ es, WithinFifths limit p e) (h : List.Forall₂ (Rewritten table) es pieces) :
    ∀ o ∈ pieces.flatten, WithinFifths (limit + k) p o := by
  intro o ho
  obtain ⟨e, he, piece, hpiece, hmem⟩ := exists_rewritten_of_mem h ho
  rcases hpiece.eq_or_yields htable with rfl | ⟨os, hos, rfl⟩
  · rw [List.mem_singleton.mp hmem]
    exact (hes e he).mono (Nat.le_add_right limit k)
  · obtain ⟨u, hu, rfl⟩ := List.mem_map.mp hmem
    exact (hes e he).under (hos u hu)

/-- The run: every chord of a composition is within `k` fifths for each pass. -/
theorem exists_compose_upFifths [Scalar W] [Scalar T] [DrawSource σ W]
    (hbinds : table.BindsItsVariables)
    (htable : ∀ r ∈ table.rules, r.Yields fun _ p os => ∀ o ∈ os, WithinFifths k p o) (n : Nat)
    (start : S) (p : Span T) (src : σ) :
    ∃ cs, (compose table n start p src).1 = .ok cs ∧
      ∀ c ∈ cs, ∃ d ≤ n * k, UpFifths p d c.span := by
  have hstart : ∀ o ∈ [(.ofLeaf start p : Occurrence S (Span T) Modulation)],
      WithinFifths (0 * k) p o := by
    intro o ho
    rw [List.mem_singleton.mp ho]
    exact withinFifths_ofLeaf _ start rfl rfl
  obtain ⟨os, hcs, hos⟩ := exists_compose_resolved hbinds
    (fun i os => ∀ o ∈ os, WithinFifths (i * k) p o)
    (fun i _ _ hes h => by
      rw [Nat.succ_mul]
      exact withinFifths_pieces htable hes h) n hstart src
  exact ⟨resolve os, hcs, forall_mem_resolve fun o ho _ _ => (hos o ho).exists_upFifths⟩

end Passes

/-! ## The stock rules -/

section Tables

variable [Scalar W] [Scalar T] (least : T)

/-- No functional rule moves the key. -/
theorem functionalRules_withinFifths :
    ∀ r ∈ (functionalRules least : MusicRules W Region T).rules,
      r.Yields fun _ p os => ∀ o ∈ os, WithinFifths 0 p o := by
  refine yields_functionalRules (fun s p => ?_) fun s a b p _ _ => ?_
  · exact List.forall_mem_singleton.mpr (withinFifths_ofLeaf 0 s rfl rfl)
  · exact List.forall_mem_cons.mpr ⟨withinFifths_ofLeaf 0 a rfl rfl,
      List.forall_mem_singleton.mpr (withinFifths_ofLeaf 0 b rfl rfl)⟩

/-- One Roman rule moves the key: to the fifth, once, and for one of its chords. -/
theorem romanRules_withinFifths :
    ∀ r ∈ (romanRules least : MusicRules W Numeral T).rules,
      r.Yields fun _ p os => ∀ o ∈ os, WithinFifths 1 p o := by
  refine yields_romanRules (fun s p => ?_) (fun s a b p _ _ => ?_) (fun p _ => ?_) fun p _ => ?_
  · exact List.forall_mem_singleton.mpr (withinFifths_ofLeaf 1 s rfl rfl)
  · exact List.forall_mem_cons.mpr ⟨withinFifths_ofLeaf 1 a rfl rfl,
      List.forall_mem_singleton.mpr (withinFifths_ofLeaf 1 b rfl rfl)⟩
  · exact List.forall_mem_cons.mpr ⟨withinFifths_ofLeaf 1 Numeral.I rfl rfl,
      List.forall_mem_singleton.mpr (withinFifths_ofLeaf 1 Numeral.V rfl rfl)⟩
  · exact List.forall_mem_cons.mpr ⟨⟨⟨1, le_rfl, rfl⟩, rfl, rfl⟩,
      List.forall_mem_singleton.mpr (withinFifths_ofLeaf 1 Numeral.I rfl rfl)⟩

end Tables

/-- Tonal context of stock progressions. A Roman progression of `n` passes stays within `n` steps up
the circle of fifths: a chord has the key and mode that the progression started from, or a key some
fifths higher in major or minor. A functional progression never leaves its key and mode. -/
theorem compose_stock_context [Scalar W] [Scalar T] [DrawSource σ W] (least : T) (n : Nat)
    (p : Span T) (src : σ) :
    (∀ start, ∃ cs, (compose (romanRules least : MusicRules W Numeral T) n start p src).1 = .ok cs ∧
      ∀ c ∈ cs, ∃ d ≤ n,
        (d = 0 → c.span.key = p.key ∧ c.span.mode = p.mode) ∧
        (1 ≤ d → c.span.key.toNat = (p.key.toNat + 7 * d) % 12 ∧
          c.span.mode = if p.mode = .major then .major else .minor)) ∧
    (∀ start, ∃ cs,
      (compose (functionalRules least : MusicRules W Region T) n start p src).1 = .ok cs ∧
      ∀ c ∈ cs, c.span.key = p.key ∧ c.span.mode = p.mode) := by
  refine ⟨fun start => ?_, fun start => ?_⟩
  · obtain ⟨cs, hcs, hup⟩ := exists_compose_upFifths romanRules_bindsItsVariables
      (romanRules_withinFifths (W := W) least) n start p src
    rw [Nat.mul_one] at hup
    exact ⟨cs, hcs, hup⟩
  · obtain ⟨cs, hcs, hup⟩ := exists_compose_upFifths functionalRules_bindsItsVariables
      (functionalRules_withinFifths (W := W) least) n start p src
    refine ⟨cs, hcs, fun c hc => ?_⟩
    obtain ⟨d, hd, hnone, -⟩ := hup c hc
    exact hnone (Nat.le_zero.mp hd)

end ChordGrammar
