import ChordGrammar.Proofs.SettingsLayers

/-!
# Flags put on flags

Flags that are put on settings one after the other act like their merge, in which the later ones
win. Merging is associative, and no flags at all are its unit, so flags form a monoid that acts on
settings, as long as every mode flag names a mode. A mode flag that does not ends the assignments
half-way: what comes before the mode in their order is stored, the rest is as it was.
-/
namespace ChordGrammar

open Settings (Layer)

namespace Overrides

/-- The mode flag, if it is given, names a mode. -/
def Understood (o : Overrides) : Prop :=
  ∀ name, o.mode = some name → ∃ m, Mode.ofName? name = some m

/-- What the later flags give, and for the rest what the earlier ones give. -/
def above (later earlier : Overrides) : Overrides where
  config := later.config <|> earlier.config
  seed := later.seed <|> earlier.seed
  iterations := later.iterations <|> earlier.iterations
  grammar := later.grammar <|> earlier.grammar
  mode := later.mode <|> earlier.mode
  key := later.key <|> earlier.key
  duration := later.duration <|> earlier.duration

theorem above_assoc (o₁ o₂ o₃ : Overrides) : (o₃.above o₂).above o₁ = o₃.above (o₂.above o₁) := by
  simp [above, Option.or_assoc]

theorem empty_above (o : Overrides) : above {} o = o := by
  simp [above]

theorem above_empty (o : Overrides) : o.above {} = o := by
  simp [above]

theorem above_self (o : Overrides) : o.above o = o := by
  simp [above]

/-- What the flags give, with the mode that the mode flag names. -/
def given (o : Overrides) : Layer := o.layer (o.mode.bind Mode.ofName?)

variable {o o₁ o₂ : Overrides}

theorem Understood.flagged (h : o.Understood) :
    Mode.Flagged o.mode (o.mode.bind Mode.ofName?) := by
  cases hmode : o.mode with
  | none => exact .none
  | some name =>
    obtain ⟨m, hm⟩ := h name hmode
    rw [Option.bind_some, hm]
    exact .some (Mode.ofName?_eq_some_iff.mp hm)

theorem understood_above (h₂ : o₂.Understood) (h₁ : o₁.Understood) :
    (o₂.above o₁).Understood := by
  intro name hname
  have hwhich : o₂.mode = some name ∨ o₂.mode = none ∧ o₁.mode = some name := by
    simpa [above] using hname
  rcases hwhich with h | ⟨-, h⟩
  · exact h₂ name h
  · exact h₁ name h

/-- A later mode flag that names a mode wins; otherwise the earlier one stands. -/
theorem given_above (h₂ : o₂.Understood) (o₁ : Overrides) :
    (o₂.above o₁).given = o₂.given.above o₁.given := by
  have hmode : (o₂.above o₁).mode.bind Mode.ofName? =
      (o₂.mode.bind Mode.ofName? <|> o₁.mode.bind Mode.ofName?) := by
    cases hname : o₂.mode with
    | none => simp [above, hname]
    | some name =>
      obtain ⟨m, hm⟩ := h₂ name hname
      simp [above, hname, hm]
  have hseed : (o₂.above o₁).seed.map some = (o₂.seed.map some <|> o₁.seed.map some) := by
    simp [above, Option.map_or]
  rw [given, layer, hmode, hseed]
  rfl

end Overrides

namespace Settings

variable {c : Settings} {o o₁ o₂ : Overrides}

/-- Flags that are understood put what they give on the settings. -/
theorem override_eq (h : o.Understood) (c : Settings) : c.override o = (.ok (), o.given.on c) :=
  override_of_flagged h.flagged

/-- The step: flags put on flags are their merge. -/
theorem override_override (h₁ : o₁.Understood) (h₂ : o₂.Understood) (c : Settings) :
    (c.override o₁).2.override o₂ = c.override (o₂.above o₁) := by
  rw [override_eq h₁, override_eq h₂, override_eq (Overrides.understood_above h₂ h₁),
    Overrides.given_above h₂, Layer.above_on]

theorem override_empty (c : Settings) : c.override {} = (.ok (), c) := rfl

theorem override_of_unnamed {name : String} (hmode : o.mode = some name)
    (h : Mode.ofName? name = none) (c : Settings) :
    c.override o = (.error (.unknownMode name), { c with
      seed := o.seed <|> c.seed
      iterations := o.iterations.getD c.iterations
      grammar := o.grammar.getD c.grammar }) := by
  refine override_of_unknown hmode fun m hm => ?_
  rw [Mode.ofName?_eq_some_iff.mpr hm] at h
  cases h

theorem exists_override_error_iff (c : Settings) (o : Overrides) :
    (∃ e, (c.override o).1 = .error e) ↔
      ∃ name, o.mode = some name ∧ Mode.ofName? name = none := by
  constructor
  · rintro ⟨e, he⟩
    by_contra hnamed
    have hunderstood : o.Understood := fun name hname =>
      Option.ne_none_iff_exists'.mp fun hnone => hnamed ⟨name, hname, hnone⟩
    rw [override_eq hunderstood] at he
    cases he
  · rintro ⟨name, hname, hnone⟩
    rw [override_of_unnamed hname hnone]
    exact ⟨_, rfl⟩

/-- The last writer wins. Flags whose mode is absent or known put what they give on the settings,
and flags put on flags act like their merge; so the same flags twice act like once, and no flags
change nothing. Merging is associative and has no flags as its unit. An override fails exactly if
its mode flag is a name that no mode has; the given seed, passes and grammar have been stored by
then, and mode, key and both durations are as before. -/
theorem override_last_wins :
    (∀ (c : Settings) (o : Overrides), o.Understood → c.override o = (.ok (), o.given.on c)) ∧
    (∀ (c : Settings) (o₁ o₂ : Overrides), o₁.Understood → o₂.Understood →
      (o₂.above o₁).Understood ∧ (c.override o₁).2.override o₂ = c.override (o₂.above o₁)) ∧
    (∀ (c : Settings) (o : Overrides), o.Understood →
      (c.override o).2.override o = c.override o) ∧
    (∀ c : Settings, c.override {} = (.ok (), c)) ∧
    (∀ o₁ o₂ o₃ : Overrides, (o₃.above o₂).above o₁ = o₃.above (o₂.above o₁)) ∧
    (∀ o : Overrides, Overrides.above {} o = o ∧ o.above {} = o) ∧
    (∀ (c : Settings) (o : Overrides), (∃ e, (c.override o).1 = .error e) ↔
      ∃ name, o.mode = some name ∧ Mode.ofName? name = none) ∧
    ∀ (c : Settings) (o : Overrides) (name : String), o.mode = some name →
      Mode.ofName? name = none →
      c.override o = (.error (.unknownMode name), { c with
        seed := o.seed <|> c.seed
        iterations := o.iterations.getD c.iterations
        grammar := o.grammar.getD c.grammar }) := by
  refine ⟨fun c o h => override_eq h c, fun c o₁ o₂ h₁ h₂ => ?_, fun c o h => ?_, override_empty,
    Overrides.above_assoc, fun o => ⟨o.empty_above, o.above_empty⟩, exists_override_error_iff,
    fun c o name hname hnone => override_of_unnamed hname hnone c⟩
  · exact ⟨Overrides.understood_above h₂ h₁, override_override h₁ h₂ c⟩
  · rw [override_override h h, o.above_self]

/-- Later flags with another mode and key but no seed, and flags that name no mode. -/
theorem override_last_wins_modes :
    let earlier : Overrides := { seed := some 7, mode := some "Dorian", key := some 9 }
    let later : Overrides := { mode := some "AEOLIAN", key := some 3, duration := some 2 }
    let unnamed : Overrides := { seed := some 8, mode := some "bebop", key := some 5 }
    let merged : Settings := { seed := some 7, mode := .minor, key := 3, duration := 2 }
    earlier.Understood ∧ later.Understood ∧
    (override {} earlier).2.override later = (.ok (), merged) ∧
    merged.override unnamed = (.error (.unknownMode "bebop"), { merged with seed := some 8 }) := by
  intro earlier later unnamed merged
  obtain ⟨hputs, hmerge, -, -, -, -, -, hunnamed⟩ := override_last_wins
  have hearlier : earlier.Understood := by
    rintro _ ⟨⟩
    exact ⟨.dorian, by decide +kernel⟩
  have hlater : later.Understood := by
    rintro _ ⟨⟩
    exact ⟨.minor, by decide +kernel⟩
  have hnone : Mode.ofName? "bebop" = none := by decide +kernel
  obtain ⟨hunderstood, hsame⟩ := hmerge {} earlier later hearlier hlater
  refine ⟨hearlier, hlater, ?_, hunnamed merged unnamed "bebop" rfl hnone⟩
  rw [hsame, hputs _ _ hunderstood]
  decide +kernel

end Settings
end ChordGrammar
