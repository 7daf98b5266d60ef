/-!
# Modes

A mode says which pitch classes, counted in semitones above the key, make up the scale. Pitch
classes are kept in bytes; both summands are reduced before they are added, so no sum wraps.
-/
namespace ChordGrammar

/-- A tonal mode. Major is Ionian and minor is Aeolian. -/
inductive Mode where
  | major
  | dorian
  | phrygian
  | lydian
  | mixolydian
  | minor
  | locrian
  | chromatic
  /-- Semitone offsets from the key, one for each degree. -/
  | custom (offsets : List UInt8)
  deriving DecidableEq

namespace Mode

/-- Semitones above the key of each scale degree. -/
def scale : Mode → List UInt8
  | .major => [0, 2, 4, 5, 7, 9, 11]
  | .dorian => [0, 2, 3, 5, 7, 9, 10]
  | .phrygian => [0, 1, 3, 5, 7, 8, 10]
  | .lydian => [0, 2, 4, 6, 7, 9, 11]
  | .mixolydian => [0, 2, 4, 5, 7, 9, 10]
  | .minor => [0, 2, 3, 5, 7, 8, 10]
  | .locrian => [0, 1, 3, 5, 6, 8, 10]
  | .chromatic => [0, 1, 2, 3, 4, 5, 6, 7, 8, 9, 10, 11]
  | .custom offsets => offsets

/-- For each of the twelve pitch classes above the key, whether the scale has it. -/
def pitchClasses (m : Mode) : Vector Bool 12 :=
  m.scale.foldl (fun marks offset => marks.set (offset.toNat % 12) true (Nat.mod_lt _ (by decide)))
    (Vector.replicate 12 false)

/-- The pitch class of a degree, counted from zero, if the scale has that many. -/
def degreePitchClass (m : Mode) (key : UInt8) (degree : Nat) : Option UInt8 :=
  m.scale[degree]?.map fun offset => (key % 12 + offset % 12) % 12

/-- The mode of a name in any letter case. The letters of the names are the small forms of no
others, so only the capitals from A to Z matter. Custom modes have no name. -/
def ofName? (name : String) : Option Mode :=
  match name.toLower with
  | "major" | "ionian" => some .major
  | "dorian" => some .dorian
  | "phrygian" => some .phrygian
  | "lydian" => some .lydian
  | "mixolydian" => some .mixolydian
  | "minor" | "aeolian" => some .minor
  | "locrian" => some .locrian
  | "chromatic" => some .chromatic
  | _ => none

/-- A mode for display. -/
def describe : Mode → String
  | .major => "Major"
  | .dorian => "Dorian"
  | .phrygian => "Phrygian"
  | .lydian => "Lydian"
  | .mixolydian => "Mixolydian"
  | .minor => "Minor"
  | .locrian => "Locrian"
  | .chromatic => "Chromatic"
  | .custom offsets =>
    "Custom([" ++ ", ".intercalate (offsets.map fun o => toString o.toNat) ++ "])"

end Mode

/-- The name of a pitch class, spelled with the common accidentals. -/
def pitchName (pc : UInt8) : String :=
  match (pc % 12).toNat with
  | 0 => "C"
  | 1 => "C#"
  | 2 => "D"
  | 3 => "Eb"
  | 4 => "E"
  | 5 => "F"
  | 6 => "F#"
  | 7 => "G"
  | 8 => "Ab"
  | 9 => "A"
  | 10 => "Bb"
  | _ => "B"

end ChordGrammar
