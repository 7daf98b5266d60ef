import ChordGrammar.Music.Codec
import ChordGrammar.Settings.Basic

/-!
# Assembling settings

Settings come from a file, if one is named, or else from the defaults. A settings text needs only
the members that differ from their defaults: what stands in it is a layer, which is put on the
defaults. Flags then replace what they give, and only the result is validated, so a flag can mend a
value that is invalid in the file.
-/
namespace ChordGrammar

/-! ## Written settings -/

section Written

open Json

instance : Codec GrammarKind := .named GrammarKind.all GrammarKind.name

namespace Settings

/-- Some of the settings. The seed may be given as none at all. -/
structure Layer where
  seed : Option (Option UInt64) := none
  iterations : Option UInt64 := none
  grammar : Option GrammarKind := none
  mode : Option Mode := none
  key : Option UInt8 := none
  duration : Option Float := none
  minDuration : Option Float := none

namespace Layer

/-- What the layer gives, and for the rest what the settings were. -/
def on (l : Layer) (c : Settings) : Settings where
  seed := l.seed.getD c.seed
  iterations := l.iterations.getD c.iterations
  grammar := l.grammar.getD c.grammar
  mode := l.mode.getD c.mode
  key := l.key.getD c.key
  duration := l.duration.getD c.duration
  minDuration := l.minDuration.getD c.minDuration

def members : List (Member Layer) :=
  [ .setting "seed" Codec.reader fun x l => { l with seed := some x },
    .setting "iterations" Codec.reader fun x l => { l with iterations := some x },
    .setting "grammar" Codec.reader fun x l => { l with grammar := some x },
    .setting "mode" Codec.reader fun x l => { l with mode := some x },
    .setting "key" Codec.reader fun x l => { l with key := some x },
    .setting "duration" Codec.reader fun x l => { l with duration := some x },
    .setting "min_duration" Codec.reader fun x l => { l with minDuration := some x } ]

def reader : Reader Layer := .record members {} some

end Layer

def document (c : Settings) : Document :=
  .object
    [ ("seed", Codec.document c.seed), ("iterations", Codec.document c.iterations),
      ("grammar", Codec.document c.grammar), ("mode", Codec.document c.mode),
      ("key", Codec.document c.key), ("duration", Codec.document c.duration),
      ("min_duration", Codec.document c.minDuration) ]

def reader : Reader Settings := Layer.reader.filterMap fun l => some (l.on {})

instance : Codec Settings := ⟨document, reader⟩

end Settings
end Written

/-! ## Files and flags -/

/-- What stands at a path. -/
inductive FileState where
  | missing
  | directory
  | file (content : ByteArray)
  /-- Not readable for another reason. -/
  | failing (text : String)

/-- The files that can be read, by path. -/
abbrev Files := String → FileState

/-- The text of a file. -/
def FileState.text : FileState → Except ReadFailure String
  | .missing => .error .missing
  | .directory => .error .directory
  | .failing text => .error (.other text)
  | .file content =>
    match String.fromUTF8? content with
    | some text => .ok text
    | none => .error .notText

/-- Settings given by flags; those not given are left alone. -/
structure Overrides where
  /-- Path of a settings file. -/
  config : Option String := none
  seed : Option UInt64 := none
  iterations : Option UInt64 := none
  grammar : Option GrammarKind := none
  /-- Name of a mode. -/
  mode : Option String := none
  key : Option UInt8 := none
  duration : Option Float := none
  deriving DecidableEq

/-- The mode of a name given by a flag. -/
def Mode.ofFlag (name : String) : Except SettingsError Mode :=
  match Mode.ofName? name with
  | some m => .ok m
  | none => .error (.unknownMode name)

namespace Settings

def ofJson (text : String) : Except SettingsError Settings :=
  (Json.read text).mapError .malformed

def load (files : Files) (path : String) : Except SettingsError Settings :=
  match (files path).text with
  | .error cause => .error (.unreadable path cause)
  | .ok text => ofJson text

/-- Puts the given flags in place, in a fixed order. An unknown mode name ends this; what was put in
place before it stays. -/
def override (c : Settings) (o : Overrides) : Except SettingsError Unit × Settings :=
  let c := { c with
    seed := o.seed <|> c.seed
    iterations := o.iterations.getD c.iterations
    grammar := o.grammar.getD c.grammar }
  match o.mode.elim (.ok c.mode) Mode.ofFlag with
  | .error e => (.error e, c)
  | .ok mode =>
    (.ok (), { c with mode, key := o.key.getD c.key, duration := o.duration.getD c.duration })

/-- The file or the defaults, then the flags, then validation. -/
def assemble (files : Files) (o : Overrides) : Except SettingsError Settings := do
  let c ← match o.config with
    | some path => load files path
    | none => .ok {}
  let (result, c) := c.override o
  result
  c.validate
  return c

end Settings
end ChordGrammar
