import Mathlib.Data.Fin.Basic
import ChordGrammar.Music.Mode

/-!
# Scales

A scale can be asked for the pitch class of a degree, or for the set of its pitch classes. The first
reads an offset off a list, the second marks a table of twelve places, offset by offset. Whatever
the offsets are, a place is marked exactly if some degree has its pitch class, counted from the key.
-/
namespace ChordGrammar.Mode

/-! ## Degrees -/

/-- A pitch class is the key and the offset of the degree added up modulo twelve. -/
theorem map_toNat_degreePitchClass (m : Mode) (key : UInt8) (degree : Nat) :
    (m.degreePitchClass key degree).map UInt8.toNat =
      m.scale[degree]?.map fun offset => (key.toNat + offset.toNat) % 12 := by
  have hbyte : ∀ offset : UInt8,
      ((key % 12 + offset % 12) % 12).toNat = (key.toNat + offset.toNat) % 12 := by
    intro offset
    have hsum : ((key % 12 + offset % 12) % 12).toNat =
        (key.toNat % 12 + offset.toNat % 12) % 256 % 12 := by
      simp [UInt8.toNat_add, UInt8.toNat_mod]
    omega
  rw [degreePitchClass, Option.map_map]
  exact congrArg (Option.map · m.scale[degree]?) (funext hbyte)

theorem degreePitchClass_eq_some_iff {m : Mode} {key pc : UInt8} {degree : Nat} :
    m.degreePitchClass key degree = some pc ↔
      ∃ h : degree < m.scale.length, pc.toNat = (key.toNat + m.scale[degree].toNat) % 12 := by
  have hbytes : m.degreePitchClass key degree = some pc ↔
      (m.degreePitchClass key degree).map UInt8.toNat = some pc.toNat :=
    ((Option.map_injective fun _ _ => UInt8.toNat_inj.mp).eq_iff' rfl).symm
  rw [hbytes, map_toNat_degreePitchClass, Option.map_eq_some_iff]
  constructor
  · rintro ⟨offset, hoffset, hpc⟩
    obtain ⟨h, rfl⟩ := List.getElem?_eq_some_iff.mp hoffset
    exact ⟨h, hpc.symm⟩
  · rintro ⟨h, hpc⟩
    exact ⟨m.scale[degree], List.getElem?_eq_getElem h, hpc.symm⟩

theorem isSome_degreePitchClass {m : Mode} {key : UInt8} {degree : Nat} :
    (m.degreePitchClass key degree).isSome ↔ degree < m.scale.length := by
  rw [degreePitchClass, Option.isSome_map, isSome_getElem?]

/-! ## The table -/

/-- The step: one offset marks its own place and keeps all others. -/
theorem getElem_set_true {marks : Vector Bool 12} {place : Nat} (h : place < 12) {pc : Fin 12} :
    (marks.set place true h)[pc] = true ↔ marks[pc] = true ∨ place = pc := by
  rw [Fin.getElem_fin, Fin.getElem_fin, Vector.getElem_set]
  by_cases hplace : place = pc <;> simp [hplace]

/-- The run: after the offsets of a list, their places are marked and those marked before. -/
theorem getElem_foldl_set {place : UInt8 → Nat} (h : ∀ offset, place offset < 12)
    {marks : Vector Bool 12} {offsets : List UInt8} {pc : Fin 12} :
    (offsets.foldl (fun marks offset => marks.set (place offset) true (h offset)) marks)[pc] =
      true ↔ marks[pc] = true ∨ ∃ offset ∈ offsets, place offset = pc := by
  induction offsets generalizing marks with
  | nil => simp
  | cons offset offsets ih =>
    rw [List.foldl_cons, ih, getElem_set_true, or_assoc]
    simp only [List.mem_cons, exists_eq_or_imp]

theorem getElem_pitchClasses {m : Mode} {pc : Fin 12} :
    m.pitchClasses[pc] = true ↔ ∃ offset ∈ m.scale, offset.toNat % 12 = pc := by
  have hunmarked : (Vector.replicate 12 false)[pc] ≠ true := by simp
  rw [pitchClasses, getElem_foldl_set fun offset => Nat.mod_lt offset.toNat (Nat.succ_pos 11),
    or_iff_right hunmarked]

/-! ## Both views -/

/-- A degree has a pitch class exactly if it is in the scale, and then it is the sum of the key and
the offset modulo twelve, with nothing lost. A pitch class above the key is marked in the table
exactly if it is that of some degree. -/
theorem marked_iff_exists_degree (m : Mode) (key : UInt8) :
    (∀ degree, (m.degreePitchClass key degree).isSome ↔ degree < m.scale.length) ∧
    (∀ degree pc, m.degreePitchClass key degree = some pc ↔
      ∃ h : degree < m.scale.length, pc.toNat = (key.toNat + m.scale[degree].toNat) % 12) ∧
    ∀ pc : Fin 12, m.pitchClasses[pc] = true ↔
      ∃ degree, m.degreePitchClass key degree = some (UInt8.ofNat ((key.toNat + pc.val) % 12)) := by
  refine ⟨fun _ => isSome_degreePitchClass, fun _ _ => degreePitchClass_eq_some_iff, fun pc => ?_⟩
  have hbyte : (UInt8.ofNat ((key.toNat + pc.val) % 12)).toNat = (key.toNat + pc.val) % 12 :=
    UInt8.toNat_ofNat_of_lt' (by show _ < 256; omega)
  simp only [getElem_pitchClasses, degreePitchClass_eq_some_iff, hbyte, List.mem_iff_getElem]
  constructor
  · rintro ⟨_, ⟨degree, h, rfl⟩, hpc⟩
    exact ⟨degree, h, by omega⟩
  · rintro ⟨degree, h, hpc⟩
    exact ⟨_, ⟨degree, h, rfl⟩, by omega⟩

/-- A scale with repetitions beyond the octave, over a key that is not reduced. -/
example : (custom [0, 255, 3, 12]).pitchClasses.toList.findIdxs id = [0, 3] ∧
    (List.range 5).map ((custom [0, 255, 3, 12]).degreePitchClass 250) =
      [some 10, some 1, some 1, some 10, none] := by decide

end ChordGrammar.Mode
