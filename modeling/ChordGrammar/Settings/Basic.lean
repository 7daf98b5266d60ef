import ChordGrammar.Decimal.Style
import ChordGrammar.Json.Lexical
import ChordGrammar.Music.Span

/-!
# Settings

What a run is told: the seed, the number of passes, the grammar, the tonal context, the length of
the piece and the length below which chords are not split.
-/
namespace ChordGrammar

/-- The stock grammars by name. -/
inductive GrammarKind where
  /-- Functional regions. -/
  | tsd
  /-- Chord degrees. -/
  | roman
  deriving DecidableEq

namespace GrammarKind

def all : List GrammarKind := [.tsd, .roman]

def name : GrammarKind → String
  | .tsd => "tsd"
  | .roman => "roman"

/-- The name at the start of a sentence. -/
def title : GrammarKind → String
  | .tsd => "Tsd"
  | .roman => "Roman"

def ofName? (name : String) : Option GrammarKind := all.find? (·.name = name)

end GrammarKind

/-- The settings of a run; each has a default. -/
structure Settings where
  /-- Without a seed, the caller picks one. -/
  seed : Option UInt64 := none
  /-- Number of passes. -/
  iterations : UInt64 := 4
  grammar : GrammarKind := .roman
  mode : Mode := .major
  /-- Pitch class of the tonic, 0 for C. -/
  key : UInt8 := 0
  /-- Length of the piece in measures. -/
  duration : Float := 4
  /-- Chords shorter than this are never split further. -/
  minDuration : Float := 0.125
  deriving DecidableEq

/-- What makes settings unusable. -/
inductive Invalid where
  | key (key : UInt8)
  | duration (x : Float)
  | minDuration (x : Float)
  | customMode
  deriving DecidableEq

/-- Why a file could not be read as text. -/
inductive ReadFailure where
  | missing
  | directory
  | notText
  | other (text : String)
  deriving DecidableEq

/-- Why there are no settings to run with. -/
inductive SettingsError where
  | unreadable (path : String) (cause : ReadFailure)
  | malformed (fault : Json.Fault)
  | unknownMode (name : String)
  | invalid (cause : Invalid)
  deriving DecidableEq

def Invalid.message : Invalid → String
  | .key k => s!"key {k.toNat} is not a pitch class (0..12)"
  | .duration x => "duration " ++ Decimal.Style.plain.text x ++ " must be positive"
  | .minDuration x => "min_duration " ++ Decimal.Style.plain.text x ++ " must be positive"
  | .customMode => "custom mode needs offsets in 0..12"

def ReadFailure.message : ReadFailure → String
  | .missing => "No such file or directory (os error 2)"
  | .directory => "Is a directory (os error 21)"
  | .notText => "stream did not contain valid UTF-8"
  | .other text => text

namespace SettingsError

/-- What is reported to the user. -/
def message : SettingsError → String
  | .unreadable path cause => "cannot read config " ++ path ++ ": " ++ cause.message
  | .malformed fault => "malformed config: " ++ match fault with
    | .malformed => "not a JSON text"
    | .cutShort => "the text ends early"
    | .mismatch => "a value of the wrong kind"
  | .unknownMode name => "unknown mode `" ++ name ++ "`"
  | .invalid cause => "invalid config: " ++ cause.message

/-- The report with the cause of a failed reading once more behind it. -/
def fullMessage (e : SettingsError) : String :=
  match e with
  | .unreadable _ cause => e.message ++ ": " ++ cause.message
  | _ => e.message

end SettingsError

namespace Settings

/-- Finite and greater than zero. -/
def isLength (x : Float) : Bool := x.isFinite && 0 < x

/-- A custom mode must have an offset, and only pitch classes. -/
def isUsable : Mode → Bool
  | .custom offsets => !offsets.isEmpty && offsets.all (· < 12)
  | _ => true

/-- Checks the key, the two lengths and the mode, in this order. -/
def validate (c : Settings) : Except SettingsError Unit :=
  if ¬ c.key < 12 then .error (.invalid (.key c.key))
  else if ¬ isLength c.duration then .error (.invalid (.duration c.duration))
  else if ¬ isLength c.minDuration then .error (.invalid (.minDuration c.minDuration))
  else if ¬ isUsable c.mode then .error (.invalid .customMode)
  else .ok ()

/-- The span of the start symbol. -/
def startSpan (c : Settings) : Span Float := .whole c.duration c.mode c.key

end Settings
end ChordGrammar
