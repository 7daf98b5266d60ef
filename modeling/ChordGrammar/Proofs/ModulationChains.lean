import ChordGrammar.Proofs.TonalContext

/-!
# Chains of modulations

A modulation reads one thing of the mode, whether it is major, and leads to major or minor. A chain
of modulations is therefore a walk between two states, whatever the key: on its way it adds up
degrees of the major and the minor scale, and where it ends depends on the state that it started
from and on nothing else. The key is moved by that sum modulo twelve. Both summands of every byte
sum on the way are below twelve, so no sum wraps.
-/
namespace ChordGrammar.Modulation

variable {T : Type}

/-! ## Degrees -/

/-- The scale on which degrees are measured, from major or not. -/
def degrees (fromMajor : Bool) : List UInt8 :=
  if fromMajor then Mode.major.scale else Mode.minor.scale

/-- Semitones from the degree that is moved to up to the third above it on the same scale. -/
def thirdAbove (fromMajor : Bool) (m : Modulation) : Nat :=
  let upper := ((degrees fromMajor)[(m.degree + 2) % 7]?).getD 0
  (upper.toNat + 12 - (m.shift fromMajor).toNat) % 12

/-- The triad on the degree has a major third, so the degree is the tonic of a major key. -/
def leadsToMajor (fromMajor : Bool) (m : Modulation) : Bool := m.thirdAbove fromMajor = 4

theorem degrees_getElem? (fromMajor : Bool) (m : Modulation) :
    (degrees fromMajor)[m.degree]? = some (m.shift fromMajor) := by
  cases fromMajor <;> cases m <;> rfl

theorem targetMode_eq (fromMajor : Bool) (m : Modulation) :
    m.targetMode fromMajor = if m.leadsToMajor fromMajor then .major else .minor := by
  cases fromMajor <;> cases m <;> rfl

/-! ## Walks -/

/-- What comes of a chain: the semitones that it goes up in all, and whether it ends in major. -/
structure Walk where
  semitones : Nat
  inMajor : Bool

/-- The walk that a chain makes from major or not. Each modulation decides on which scale the next
one is measured. -/
def walk : Bool → List Modulation → Walk
  | fromMajor, [] => ⟨0, fromMajor⟩
  | fromMajor, m :: ms =>
    let rest := walk (m.leadsToMajor fromMajor) ms
    { rest with semitones := (m.shift fromMajor).toNat + rest.semitones }

/-- The span with its key and mode where the walk ends. -/
def Walk.from (w : Walk) (p : Span T) : Span T :=
  { p with
    key := .ofNat ((p.key.toNat + w.semitones) % 12)
    mode := if w.inMajor then .major else .minor }

@[simp] theorem Walk.toNat_from_key (w : Walk) (p : Span T) :
    (w.from p).key.toNat = (p.key.toNat + w.semitones) % 12 := by
  have hbyte : (p.key.toNat + w.semitones) % 12 < UInt8.size :=
    (Nat.mod_lt _ (by decide)).trans (by decide)
  exact UInt8.toNat_ofNat_of_lt hbyte

@[simp] theorem Walk.isMajor_from (w : Walk) (p : Span T) : (w.from p).isMajor = w.inMajor := by
  rw [Span.isMajor, Walk.from]
  cases w.inMajor <;> rfl

/-- One walk behind another: their semitones add up, and the later one decides on the mode. -/
theorem Walk.from_from (w w' : Walk) (p : Span T) :
    w'.from (w.from p) = (⟨w.semitones + w'.semitones, w'.inMajor⟩ : Walk).from p := by
  have hkey : (w'.from (w.from p)).key =
      ((⟨w.semitones + w'.semitones, w'.inMajor⟩ : Walk).from p).key := by
    rw [← UInt8.toNat_inj]
    simp only [toNat_from_key]
    omega
  exact congrArg (fun key => { w'.from (w.from p) with key }) hkey

variable [Scalar T]

/-- The step: one modulation is a walk by one degree. -/
theorem apply_eq (m : Modulation) (p : Span T) : m.apply p = (walk p.isMajor [m]).from p := by
  have hkey : (m.apply p).key = ((walk p.isMajor [m]).from p).key := by
    rw [← UInt8.toNat_inj, toNat_apply_key, Walk.toNat_from_key]
    rfl
  have hmode : (m.apply p).mode = ((walk p.isMajor [m]).from p).mode :=
    m.targetMode_eq p.isMajor
  calc m.apply p
    _ = { p with key := (m.apply p).key, mode := (m.apply p).mode } := rfl
    _ = (walk p.isMajor [m]).from p := by
      rw [hkey, hmode]
      rfl

/-- The run: a chain leads every span to where its walk ends. -/
theorem foldl_apply_cons (m : Modulation) (ms : List Modulation) (p : Span T) :
    (m :: ms).foldl (fun p m => m.apply p) p = (walk p.isMajor (m :: ms)).from p := by
  induction ms generalizing m p with
  | nil => exact apply_eq m p
  | cons next ms ih =>
    rw [List.foldl_cons, ih, apply_eq, Walk.isMajor_from, Walk.from_from]
    rfl

/-- Modulations act on every key alike. A chain of at least one modulation has a walk that depends
on the chain, and on whether it starts from major, and on nothing else. Whatever the key and the
mode of a span, the key afterwards is the one that many semitones up, reduced below twelve, the mode
is major or minor as the walk says, and the rest of the span is kept. On the way every degree stands
on its scale and no byte sum wraps. -/
theorem foldl_apply_walk (m : Modulation) (ms : List Modulation) (p : Span T) :
    let w := walk p.isMajor (m :: ms)
    let q := (m :: ms).foldl (fun p m => m.apply p) p
    q = { p with key := q.key, mode := q.mode } ∧
    q.key.toNat = (p.key.toNat + w.semitones) % 12 ∧ q.key.toNat < 12 ∧
    q.mode = (if w.inMajor then .major else .minor) ∧
    ∀ before next after, m :: ms = before ++ next :: after →
      let r := before.foldl (fun p m => m.apply p) p
      (degrees r.isMajor)[next.degree]? = some (next.shift r.isMajor) ∧
      (r.key % 12).toNat + (next.shift r.isMajor).toNat < UInt8.size := by
  intro w q
  have hq : q = w.from p := foldl_apply_cons m ms p
  have hkey : q.key.toNat = (p.key.toNat + w.semitones) % 12 := by rw [hq, Walk.toNat_from_key]
  refine ⟨by rw [hq]; rfl, hkey, ?_, by rw [hq]; rfl, ?_⟩
  · rw [hkey]
    exact Nat.mod_lt _ (by decide)
  · intro before next after _ r
    have hreduced : (r.key % 12).toNat < 12 := by
      rw [UInt8.toNat_mod]
      exact Nat.mod_lt _ (by decide)
    have hshift := shift_lt r.isMajor next
    have hsize : UInt8.size = 256 := rfl
    exact ⟨degrees_getElem? r.isMajor next, by omega⟩

/-- The same degrees in another order lead elsewhere, as the second degree is measured on the minor
scale. -/
example : walk true [.second, .third] = ⟨5, true⟩ ∧ walk true [.third, .second] = ⟨6, false⟩ :=
  ⟨rfl, rfl⟩

end ChordGrammar.Modulation
