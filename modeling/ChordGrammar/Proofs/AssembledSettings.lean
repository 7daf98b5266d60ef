import Mathlib.Tactic.Push
import ChordGrammar.Proofs.SettingsLayers

/-!
# Assembled settings

The settings of a run are the flags over the file over the defaults, and only these merged settings
are validated. What goes wrong is reported in the order in which it is met: first the file, then the
name of the mode, then the merged settings. Each stage is described by relations, one for its
success and one for its failure; the definitions compute what the relations say, and one of the two
always holds.
-/
namespace ChordGrammar

open Settings (Layer)

/-! ## The file -/

namespace FileState

/-- Why there is no text at a path. -/
inductive Unreadable : FileState → ReadFailure → Prop
  | missing : Unreadable .missing .missing
  | directory : Unreadable .directory .directory
  | failing (text : String) : Unreadable (.failing text) (.other text)
  | notText {content : ByteArray} (h : ∀ text : String, content ≠ text.toUTF8) :
      Unreadable (.file content) .notText

theorem fromUTF8?_eq_some_iff {content : ByteArray} {text : String} :
    String.fromUTF8? content = some text ↔ content = text.toUTF8 := by
  constructor
  · intro h
    rw [String.fromUTF8?] at h
    split at h
    · cases h
      rfl
    · cases h
  · rintro rfl
    exact dif_pos text.isValidUTF8

theorem text_toUTF8 (text : String) : (FileState.file text.toUTF8).text = .ok text := by
  rw [FileState.text, fromUTF8?_eq_some_iff.mpr rfl]

theorem Unreadable.text_eq {s : FileState} {cause : ReadFailure} (h : s.Unreadable cause) :
    s.text = .error cause := by
  cases h with
  | missing => rfl
  | directory => rfl
  | failing => rfl
  | @notText content h =>
    have hnone : String.fromUTF8? content = none :=
      Option.eq_none_iff_forall_ne_some.mpr fun text htext =>
        h text (fromUTF8?_eq_some_iff.mp htext)
    rw [FileState.text, hnone]

theorem text_or_unreadable (s : FileState) :
    (∃ text : String, s = .file text.toUTF8) ∨ ∃ cause, s.Unreadable cause := by
  cases s with
  | missing => exact .inr ⟨_, .missing⟩
  | directory => exact .inr ⟨_, .directory⟩
  | failing text => exact .inr ⟨_, .failing text⟩
  | file content =>
    by_cases h : ∃ text : String, content = text.toUTF8
    · obtain ⟨text, rfl⟩ := h
      exact .inl ⟨text, rfl⟩
    · exact .inr ⟨_, .notText (not_exists.mp h)⟩

end FileState

namespace Settings

/-- What the settings file gives, or nothing if no file is named. -/
inductive Gives (files : Files) : Option String → Layer → Prop
  | nothing : Gives files none {}
  | file {path text : String} {l : Layer} (htext : files path = .file text.toUTF8)
      (h : Layer.ofJson text = .ok l) : Gives files (some path) l

/-- What is wrong with the settings file. -/
inductive FileFault (files : Files) : Option String → SettingsError → Prop
  | unreadable {path : String} {cause : ReadFailure} (h : (files path).Unreadable cause) :
      FileFault files (some path) (.unreadable path cause)
  | malformed {path text : String} {fault : Json.Fault} (htext : files path = .file text.toUTF8)
      (h : Layer.ofJson text = .error fault) : FileFault files (some path) (.malformed fault)

variable {files : Files} {config : Option String} {o : Overrides}

/-- The settings that the flags are put on: those of the file, or the defaults. -/
def base (files : Files) (config : Option String) : Except SettingsError Settings :=
  config.elim (.ok {}) (load files)

theorem Gives.base_eq {l : Layer} (h : Gives files config l) :
    base files config = .ok (l.on {}) := by
  cases h with
  | nothing => rfl
  | file htext h =>
    rw [base, Option.elim_some, load, htext, FileState.text_toUTF8]
    simp only [ofJson_eq, h]
    rfl

theorem FileFault.base_eq {e : SettingsError} (h : FileFault files config e) :
    base files config = .error e := by
  cases h with
  | unreadable h => rw [base, Option.elim_some, load, h.text_eq]
  | malformed htext h =>
    rw [base, Option.elim_some, load, htext, FileState.text_toUTF8]
    simp only [ofJson_eq, h]
    rfl

theorem gives_or_fileFault (files : Files) (config : Option String) :
    (∃ l, Gives files config l) ∨ ∃ e, FileFault files config e := by
  cases config with
  | none => exact .inl ⟨{}, .nothing⟩
  | some path =>
    obtain ⟨text, htext⟩ | ⟨cause, hcause⟩ := (files path).text_or_unreadable
    · cases hl : Layer.ofJson text with
      | ok l => exact .inl ⟨l, .file htext hl⟩
      | error fault => exact .inr ⟨_, .malformed htext hl⟩
    · exact .inr ⟨_, .unreadable hcause⟩

/-! ## Validation -/

/-- What the key, the two lengths and the mode have to be. -/
structure Valid (c : Settings) : Prop where
  key : c.key < 12
  duration : c.duration.isFinite ∧ 0 < c.duration
  minDuration : c.minDuration.isFinite ∧ 0 < c.minDuration
  mode : ∀ offsets, c.mode = .custom offsets → offsets ≠ [] ∧ ∀ offset ∈ offsets, offset < 12

/-- The first thing that is wrong with the settings. -/
inductive FirstFault (c : Settings) : Invalid → Prop
  | key (h : ¬c.key < 12) : FirstFault c (.key c.key)
  | duration (hkey : c.key < 12) (h : ¬(c.duration.isFinite ∧ 0 < c.duration)) :
      FirstFault c (.duration c.duration)
  | minDuration (hkey : c.key < 12) (hduration : c.duration.isFinite ∧ 0 < c.duration)
      (h : ¬(c.minDuration.isFinite ∧ 0 < c.minDuration)) :
      FirstFault c (.minDuration c.minDuration)
  | customMode (hkey : c.key < 12) (hduration : c.duration.isFinite ∧ 0 < c.duration)
      (hminDuration : c.minDuration.isFinite ∧ 0 < c.minDuration) {offsets : List UInt8}
      (hmode : c.mode = .custom offsets) (h : offsets = [] ∨ ∃ offset ∈ offsets, ¬offset < 12) :
      FirstFault c .customMode

theorem isLength_iff {x : Float} : isLength x ↔ x.isFinite ∧ 0 < x := by
  simp [isLength]

theorem isUsable_iff {m : Mode} : isUsable m ↔
    ∀ offsets, m = .custom offsets → offsets ≠ [] ∧ ∀ offset ∈ offsets, offset < 12 := by
  cases m <;> simp [isUsable]

theorem not_isUsable_custom {offsets : List UInt8}
    (h : offsets = [] ∨ ∃ offset ∈ offsets, ¬offset < 12) : ¬isUsable (.custom offsets) := by
  rw [isUsable_iff]
  intro husable
  obtain ⟨hne, hall⟩ := husable offsets rfl
  obtain hempty | ⟨offset, hoffset, h⟩ := h
  · exact hne hempty
  · exact h (hall offset hoffset)

variable {c : Settings}

theorem Valid.validate_eq (h : c.Valid) : c.validate = .ok () := by
  have hduration := isLength_iff.mpr h.duration
  have hminDuration := isLength_iff.mpr h.minDuration
  have hmode := isUsable_iff.mpr h.mode
  simp [validate, h.key, hduration, hminDuration, hmode]

theorem FirstFault.validate_eq {cause : Invalid} (h : c.FirstFault cause) :
    c.validate = .error (.invalid cause) := by
  rw [validate]
  cases h with
  | key h => rw [if_pos h]
  | duration hkey h =>
    rw [if_neg (not_not.mpr hkey), if_pos (isLength_iff.not.mpr h)]
  | minDuration hkey hduration h =>
    rw [if_neg (not_not.mpr hkey), if_neg (not_not.mpr (isLength_iff.mpr hduration)),
      if_pos (isLength_iff.not.mpr h)]
  | customMode hkey hduration hminDuration hmode h =>
    rw [if_neg (not_not.mpr hkey), if_neg (not_not.mpr (isLength_iff.mpr hduration)),
      if_neg (not_not.mpr (isLength_iff.mpr hminDuration)), hmode,
      if_pos (not_isUsable_custom h)]

theorem valid_or_firstFault (c : Settings) : c.Valid ∨ ∃ cause, c.FirstFault cause := by
  by_cases hkey : c.key < 12
  · by_cases hduration : c.duration.isFinite ∧ 0 < c.duration
    · by_cases hminDuration : c.minDuration.isFinite ∧ 0 < c.minDuration
      · by_cases hmode : ∀ offsets, c.mode = .custom offsets →
            offsets ≠ [] ∧ ∀ offset ∈ offsets, offset < 12
        · exact .inl ⟨hkey, hduration, hminDuration, hmode⟩
        · push Not at hmode
          obtain ⟨offsets, hcustom, h⟩ := hmode
          have hfault : offsets = [] ∨ ∃ offset ∈ offsets, ¬offset < 12 := by
            by_cases hempty : offsets = []
            · exact .inl hempty
            · exact .inr (h hempty)
          exact .inr ⟨_, .customMode hkey hduration hminDuration hcustom hfault⟩
      · exact .inr ⟨_, .minDuration hkey hduration hminDuration⟩
    · exact .inr ⟨_, .duration hkey hduration⟩
  · exact .inr ⟨_, .key hkey⟩

/-! ## The whole -/

/-- The merged settings: flags over file over defaults. -/
def merged (o : Overrides) (mode : Option Mode) (file : Layer) : Settings :=
  ((o.layer mode).above file).on {}

/-- Why no settings are assembled. What is met later counts only if nothing went wrong before. -/
inductive Refused (files : Files) (o : Overrides) : SettingsError → Prop
  | file {e : SettingsError} (h : FileFault files o.config e) : Refused files o e
  | unknownMode {file : Layer} {name : String} (hfile : Gives files o.config file)
      (hname : o.mode = some name) (h : ∀ m : Mode, ¬m.HasName name) :
      Refused files o (.unknownMode name)
  | invalid {file : Layer} {mode : Option Mode} {cause : Invalid}
      (hfile : Gives files o.config file) (hmode : Mode.Flagged o.mode mode)
      (h : (merged o mode file).FirstFault cause) : Refused files o (.invalid cause)

theorem assemble_eq (files : Files) (o : Overrides) :
    assemble files o = (base files o.config).bind fun c =>
      (c.override o).1.bind fun _ =>
        (c.override o).2.validate.bind fun _ => .ok (c.override o).2 := by
  unfold assemble base
  cases o.config <;> rfl

theorem assemble_of_gives {file : Layer} {mode : Option Mode} (hfile : Gives files o.config file)
    (hmode : Mode.Flagged o.mode mode) :
    assemble files o =
      (merged o mode file).validate.bind fun _ => .ok (merged o mode file) := by
  have hmerged : (file.on {}).override o = (.ok (), merged o mode file) := by
    rw [override_of_flagged hmode, ← Layer.above_on, merged]
  rw [assemble_eq, hfile.base_eq]
  simp only [Except.bind, hmerged]

theorem assemble_of_valid {file : Layer} {mode : Option Mode} (hfile : Gives files o.config file)
    (hmode : Mode.Flagged o.mode mode) (hvalid : (merged o mode file).Valid) :
    assemble files o = .ok (merged o mode file) := by
  rw [assemble_of_gives hfile hmode, hvalid.validate_eq, Except.bind]

theorem Refused.assemble_eq_error {e : SettingsError} (h : Refused files o e) :
    assemble files o = .error e := by
  cases h with
  | file h => rw [assemble_eq, h.base_eq, Except.bind]
  | unknownMode hfile hname h =>
    rw [assemble_eq, hfile.base_eq]
    simp only [Except.bind, override_of_unknown hname h]
  | invalid hfile hmode h => rw [assemble_of_gives hfile hmode, h.validate_eq, Except.bind]

theorem valid_or_refused (files : Files) (o : Overrides) :
    (∃ file mode, Gives files o.config file ∧ Mode.Flagged o.mode mode ∧
      (merged o mode file).Valid) ∨ ∃ e, Refused files o e := by
  obtain ⟨file, hfile⟩ | ⟨e, he⟩ := gives_or_fileFault files o.config
  · obtain ⟨mode, hmode⟩ | ⟨name, hname, h⟩ := Mode.flagged_or_unknown o.mode
    · obtain hvalid | ⟨cause, hcause⟩ := valid_or_firstFault (merged o mode file)
      · exact .inl ⟨file, mode, hfile, hmode, hvalid⟩
      · exact .inr ⟨_, .invalid hfile hmode hcause⟩
    · exact .inr ⟨_, .unknownMode hfile hname h⟩
  · exact .inr ⟨e, .file he⟩

/-- Settings are assembled exactly if the file can be read, the mode flag names a mode and the flags
over the file over the defaults are valid; they are then these merged settings. Any other outcome is
the first of the reasons against it: the file, then the name of the mode, then a merged value. -/
theorem assemble_iff (files : Files) (o : Overrides) :
    (∀ c, assemble files o = .ok c ↔
      ∃ file mode, Gives files o.config file ∧ Mode.Flagged o.mode mode ∧
        (merged o mode file).Valid ∧ c = merged o mode file) ∧
    ∀ e, assemble files o = .error e ↔ Refused files o e := by
  refine ⟨fun c => ⟨fun hc => ?_, ?_⟩, fun e => ⟨fun he => ?_, Refused.assemble_eq_error⟩⟩
  · obtain ⟨file, mode, hfile, hmode, hvalid⟩ | ⟨e, he⟩ := valid_or_refused files o
    · rw [assemble_of_valid hfile hmode hvalid] at hc
      exact ⟨file, mode, hfile, hmode, hvalid, (Except.ok.inj hc).symm⟩
    · rw [he.assemble_eq_error] at hc
      cases hc
  · rintro ⟨file, mode, hfile, hmode, hvalid, rfl⟩
    exact assemble_of_valid hfile hmode hvalid
  · obtain ⟨file, mode, hfile, hmode, hvalid⟩ | ⟨e', he'⟩ := valid_or_refused files o
    · rw [assemble_of_valid hfile hmode hvalid] at he
      cases he
    · rw [he'.assemble_eq_error] at he
      exact Except.error.inj he ▸ he'

/-- A key and a length that are invalid in the file are replaced by flags; the shortest length is
the file's, and the rest are the defaults. -/
example :
    (assemble
      (fun _ => .file "\x7b\"min_duration\": 0.5, \"key\": 40, \"duration\": -1\x7d".toUTF8)
      { config := some "settings", mode := some "Aeolian", key := some 3, duration := some 2 }
    ).toOption = some { mode := .minor, key := 3, duration := 2, minDuration := 0.5 } := by
  decide +kernel

end Settings
end ChordGrammar
