import Mathlib.Data.List.Forall2
import ChordGrammar.Settings.Assembly

/-!
# Layers of settings

A file and the flags each give some of the settings. What one of them gives is a layer; a layer is
put over another, and in the end on the defaults. The names that flags may use for a mode come
first, because a mode flag has to be understood before there is a layer.
-/
namespace ChordGrammar

open Json

/-! ## Names of modes -/

namespace Mode

/-- The names of the modes. Two of them have a second one. -/
def names : List (String × Mode) :=
  [ ("major", .major), ("ionian", .major), ("dorian", .dorian), ("phrygian", .phrygian),
    ("lydian", .lydian), ("mixolydian", .mixolydian), ("minor", .minor), ("aeolian", .minor),
    ("locrian", .locrian), ("chromatic", .chromatic) ]

/-- A name in any letter case: every letter is the small one or its capital. -/
def HasName (name : String) (m : Mode) : Prop :=
  ∃ spelling, (spelling, m) ∈ names ∧
    List.Forall₂ (fun c l => c = l ∨ c = l.toUpper) name.toList spelling.toList

theorem isLower_of_mem_names : ∀ entry ∈ names, ∀ l ∈ entry.1.toList, l.isLower := by
  simp [names]

theorem toLower_eq_iff {c l : Char} (hl : l.isLower) : c.toLower = l ↔ c = l ∨ c = l.toUpper := by
  have hcapitals : 'A'.val.toNat = 65 ∧ 'Z'.val.toNat = 90 := ⟨rfl, rfl⟩
  have hsmall : 'a'.val.toNat = 97 ∧ 'z'.val.toNat = 122 := ⟨rfl, rfl⟩
  have hdown : ('a'.val - 'A'.val).toNat = 32 := rfl
  have hup : ('A'.val - 'a'.val).toNat = 2 ^ 32 - 32 := rfl
  delta Char.isLower at hl
  simp only [Bool.and_eq_true, decide_eq_true_eq, ge_iff_le, UInt32.le_iff_toNat_le] at hl
  delta Char.toLower Char.toUpper
  simp only [Char.ext_iff, ← UInt32.toNat_inj, ge_iff_le, UInt32.le_iff_toNat_le, dif_pos hl]
  split <;> simp only [UInt32.toNat_add] <;> omega

theorem toLower_eq_spelling_iff {name spelling : String} (h : ∀ l ∈ spelling.toList, l.isLower) :
    name.toLower = spelling ↔
      List.Forall₂ (fun c l => c = l ∨ c = l.toUpper) name.toList spelling.toList := by
  have hlower : name.toLower.toList = name.toList.map Char.toLower := String.toList_map
  rw [← String.toList_inj, hlower, ← List.forall₂_eq_eq_eq, List.forall₂_map_left_iff]
  generalize spelling.toList = ls at h
  induction name.toList generalizing ls with
  | nil => simp
  | cons c cs ih =>
    cases ls with
    | nil => simp
    | cons l ls =>
      rw [List.forall_mem_cons] at h
      rw [List.forall₂_cons, List.forall₂_cons]
      exact and_congr (toLower_eq_iff h.1) (ih ls h.2)

/-- Exactly the names of the list are understood, each in any letter case. -/
theorem ofName?_eq_some_iff {name : String} {m : Mode} :
    ofName? name = some m ↔ m.HasName name := by
  have hlookup : ofName? name = some m ↔ (name.toLower, m) ∈ names := by
    unfold ofName?
    split <;> simp_all [names, @eq_comm _ m]
  have hsplit : (name.toLower, m) ∈ names ↔
      ∃ spelling, (spelling, m) ∈ names ∧ name.toLower = spelling := by simp
  rw [hlookup, hsplit]
  refine exists_congr fun spelling => and_congr_right fun hmem => ?_
  exact toLower_eq_spelling_iff (isLower_of_mem_names _ hmem)

/-- The mode that a flag names; there is none without a flag. -/
def Flagged (flag : Option String) (mode : Option Mode) : Prop :=
  Option.Rel (fun name m => m.HasName name) flag mode

theorem flagged_or_unknown (flag : Option String) :
    (∃ mode, Flagged flag mode) ∨ ∃ name, flag = some name ∧ ∀ m : Mode, ¬m.HasName name := by
  cases flag with
  | none => exact .inl ⟨none, .none⟩
  | some name =>
    by_cases h : ∃ m : Mode, m.HasName name
    · obtain ⟨m, hm⟩ := h
      exact .inl ⟨some m, .some hm⟩
    · exact .inr ⟨name, rfl, not_exists.mp h⟩

theorem ofFlag_eq_ok_iff {name : String} {m : Mode} : ofFlag name = .ok m ↔ m.HasName name := by
  rw [← ofName?_eq_some_iff, ofFlag]
  cases ofName? name <;> simp

theorem ofFlag_eq_error_iff {name : String} {e : SettingsError} :
    ofFlag name = .error e ↔ (∀ m : Mode, ¬m.HasName name) ∧ e = .unknownMode name := by
  simp only [← ofName?_eq_some_iff, ofFlag]
  cases ofName? name <;> simp [eq_comm]

end Mode

/-! ## Layers -/

namespace Settings

namespace Layer

/-- What the upper layer gives, and for the rest what the lower one gives. -/
def above (upper lower : Layer) : Layer where
  seed := upper.seed <|> lower.seed
  iterations := upper.iterations <|> lower.iterations
  grammar := upper.grammar <|> lower.grammar
  mode := upper.mode <|> lower.mode
  key := upper.key <|> lower.key
  duration := upper.duration <|> lower.duration
  minDuration := upper.minDuration <|> lower.minDuration

theorem above_on (upper lower : Layer) (c : Settings) :
    (upper.above lower).on c = upper.on (lower.on c) := by
  simp [above, on, Option.getD_or]

/-- The settings that stand in a text. -/
def ofJson (text : String) : Except Fault Layer := reader.run text

end Layer

/-- A settings text puts what stands in it on the defaults. -/
theorem ofJson_eq (text : String) :
    ofJson text = ((Layer.ofJson text).map fun l => l.on {}).mapError .malformed := by
  have hread : Json.read text = (Layer.ofJson text).map fun l => l.on {} :=
    Reader.run_filterMap_some Layer.reader (fun l => l.on {}) text
  rw [ofJson, hread]

end Settings

/-- What the flags give, where the mode is the one that the mode flag names. -/
def Overrides.layer (o : Overrides) (mode : Option Mode) : Settings.Layer where
  seed := o.seed.map some
  iterations := o.iterations
  grammar := o.grammar
  mode := mode
  key := o.key
  duration := o.duration

namespace Settings

variable {c : Settings} {o : Overrides}

theorem override_of_flagged {mode : Option Mode} (h : Mode.Flagged o.mode mode) :
    c.override o = (.ok (), (o.layer mode).on c) := by
  have hmode : o.mode.elim (.ok c.mode) Mode.ofFlag = .ok (mode.getD c.mode) := by
    generalize o.mode = name at h
    cases h with
    | none => rfl
    | some hname => exact Mode.ofFlag_eq_ok_iff.mpr hname
  have hseed : (o.seed <|> c.seed) = (o.seed.map some).getD c.seed := by cases o.seed <;> rfl
  simp only [override, hmode, hseed]
  rfl

/-- A name that no mode has ends the assignments after the seed, the passes and the grammar. -/
theorem override_of_unknown {name : String} (hmode : o.mode = some name)
    (h : ∀ m : Mode, ¬m.HasName name) :
    c.override o = (.error (.unknownMode name), { c with
      seed := o.seed <|> c.seed
      iterations := o.iterations.getD c.iterations
      grammar := o.grammar.getD c.grammar }) := by
  have hflag : Mode.ofFlag name = .error (.unknownMode name) :=
    Mode.ofFlag_eq_error_iff.mpr ⟨h, rfl⟩
  rw [override, hmode, Option.elim_some, hflag]

end Settings
end ChordGrammar
