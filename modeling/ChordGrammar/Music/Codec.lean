import ChordGrammar.Json.Codec
import ChordGrammar.Music.Progression

/-!
# Written forms of music

Symbols, modulations and modes are written by name, a custom mode by its offsets; spans and chords
are records.
-/
namespace ChordGrammar

open Json

instance : Codec Numeral := .named Numeral.all Numeral.name
instance : Codec Region := .named Region.all Region.name
instance : Codec Modulation := .named Modulation.all Modulation.name

namespace Mode

/-- The modes without offsets, with the names they are written by. -/
def written : List (String × Mode) :=
  [ ("major", .major), ("dorian", .dorian), ("phrygian", .phrygian), ("lydian", .lydian),
    ("mixolydian", .mixolydian), ("minor", .minor), ("locrian", .locrian),
    ("chromatic", .chromatic) ]

def document : Mode → Document
  | .major => .string "major"
  | .dorian => .string "dorian"
  | .phrygian => .string "phrygian"
  | .lydian => .string "lydian"
  | .mixolydian => .string "mixolydian"
  | .minor => .string "minor"
  | .locrian => .string "locrian"
  | .chromatic => .string "chromatic"
  | .custom offsets => .tagged "custom" (Codec.document offsets)

def reader : Reader Mode :=
  .oneOf (written.map (fun (name, m) => (name, .plain m)) ++
    [("custom", .holding ((Codec.reader : Reader (List UInt8)).filterMap fun os =>
      some (.custom os)))])

instance : Codec Mode := ⟨document, reader⟩

end Mode

namespace Span

variable {T : Type} [Codec T]

/-- What is known of a span while its members are read. -/
structure Draft (T : Type) where
  dur : Option T
  mode : Option Mode
  key : Option UInt8
  onset : Option T
  seqDur : Option T

def members : List (Member (Draft T)) :=
  [ .setting "dur" Codec.reader fun x draft => { draft with dur := some x },
    .setting "mode" Codec.reader fun x draft => { draft with mode := some x },
    .setting "key" Codec.reader fun x draft => { draft with key := some x },
    .setting "onset" Codec.reader fun x draft => { draft with onset := some x },
    .setting "seq_dur" Codec.reader fun x draft => { draft with seqDur := some x } ]

def document (p : Span T) : Document :=
  .object
    [ ("dur", Codec.document p.dur), ("mode", Codec.document p.mode),
      ("key", Codec.document p.key), ("onset", Codec.document p.onset),
      ("seq_dur", Codec.document p.seqDur) ]

def reader : Reader (Span T) :=
  .record members ⟨none, none, none, none, none⟩ fun draft => do
    return ⟨← draft.dur, ← draft.mode, ← draft.key, ← draft.onset, ← draft.seqDur⟩

instance : Codec (Span T) := ⟨document, reader⟩

end Span

namespace Chord

variable {S T : Type} [Codec S] [Codec T]

def members : List (Member (Option S × Option (Span T))) :=
  [ .setting "symbol" Codec.reader fun s draft => (some s, draft.2),
    .setting "param" Codec.reader fun p draft => (draft.1, some p) ]

def document (c : Chord S T) : Document :=
  .object [("symbol", Codec.document c.symbol), ("param", Codec.document c.span)]

def reader : Reader (Chord S T) :=
  .record members (none, none) fun draft => do return ⟨← draft.1, ← draft.2⟩

instance : Codec (Chord S T) := ⟨document, reader⟩

end Chord
end ChordGrammar
