import ChordGrammar.Music.Span

/-!
# Modulations

A modulation moves the key to a degree of the current scale. From major the degree is measured on
the major scale, and the new mode is that of the degree's triad in major; from any other mode the
minor scale and its triads are used.
-/
namespace ChordGrammar

/-- The degree that a modulation moves to. -/
inductive Modulation where
  | second
  | third
  | fourth
  | fifth
  | sixth
  | seventh
  deriving DecidableEq

namespace Modulation

/-- All modulations, by degree. -/
def all : List Modulation := [.second, .third, .fourth, .fifth, .sixth, .seventh]

/-- The degree, counted from zero. -/
def degree : Modulation → Nat
  | .second => 1
  | .third => 2
  | .fourth => 3
  | .fifth => 4
  | .sixth => 5
  | .seventh => 6

def name (m : Modulation) : String := s!"M{m.degree + 1}"

/-- Semitones from the old key to the new, from major or not. -/
def shift (fromMajor : Bool) (m : Modulation) : UInt8 :=
  ((if fromMajor then Mode.major else Mode.minor).scale[m.degree]?).getD 0

/-- The mode of the triad on the degree, in major or in minor. -/
def targetMode (fromMajor : Bool) (m : Modulation) : Mode :=
  match fromMajor, m with
  | true, .fourth | true, .fifth => .major
  | true, _ => .minor
  | false, .third | false, .sixth | false, .seventh => .major
  | false, _ => .minor

/-- The span with key and mode moved; its lengths and onset are kept. -/
def apply {T : Type} [Scalar T] (m : Modulation) (p : Span T) : Span T :=
  { p with mode := m.targetMode p.isMajor, key := (p.key % 12 + m.shift p.isMajor) % 12 }

end Modulation
end ChordGrammar
