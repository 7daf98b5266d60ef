import ChordGrammar.Grammar.Rule

/-!
# Chord symbols

Two alphabets: chord degrees in Roman numerals, and the functional regions tonic, subdominant and
dominant. Both name a degree of the scale, which is what a chord root is found by.
-/
namespace ChordGrammar

/-- A symbol that can stand for a chord. -/
class ChordSymbol (S : Type) where
  name : S → String
  /-- The degree of the root, counted from zero, if the symbol has a root. -/
  degree : S → Option Nat

/-- In messages a chord symbol goes by its name. -/
instance {S : Type} [ChordSymbol S] : SymbolText S := ⟨ChordSymbol.name⟩

/-- A chord degree, or `X` for a chord without one. -/
inductive Numeral where
  | I
  | II
  | III
  | IV
  | V
  | VI
  | VII
  | X
  deriving DecidableEq

namespace Numeral

/-- All numerals, the degrees first. -/
def all : List Numeral := [.I, .II, .III, .IV, .V, .VI, .VII, .X]

def name : Numeral → String
  | .I => "I"
  | .II => "II"
  | .III => "III"
  | .IV => "IV"
  | .V => "V"
  | .VI => "VI"
  | .VII => "VII"
  | .X => "X"

def degree : Numeral → Option Nat
  | .I => some 0
  | .II => some 1
  | .III => some 2
  | .IV => some 3
  | .V => some 4
  | .VI => some 5
  | .VII => some 6
  | .X => none

instance : ChordSymbol Numeral := ⟨name, degree⟩

end Numeral

/-- A functional region. -/
inductive Region where
  | tonic
  | subdominant
  | dominant
  deriving DecidableEq

namespace Region

def all : List Region := [.tonic, .subdominant, .dominant]

def name : Region → String
  | .tonic => "T"
  | .subdominant => "S"
  | .dominant => "D"

/-- Each region sounds as its primary triad. -/
def degree : Region → Option Nat
  | .tonic => some 0
  | .subdominant => some 3
  | .dominant => some 4

instance : ChordSymbol Region := ⟨name, degree⟩

end Region
end ChordGrammar
