import ChordGrammar.Scalar
import ChordGrammar.Music.Mode

/-!
# Spans

A span is the stretch of music that a symbol covers: its length, its place in the piece, the
length of the piece, and the tonal context. Lengths are in measures. The lower half of the file
cuts spans up: shifts of the onset are by quarters of the length, so they come before the length
shrinks.
-/
namespace ChordGrammar

/-- The parameter of a musical symbol. -/
structure Span (T : Type) where
  dur : T
  mode : Mode
  /-- Pitch class of the tonic, 0 for C. Stored as given, so it may be 12 or more. -/
  key : UInt8
  onset : T
  /-- Length of the whole piece. -/
  seqDur : T
  deriving BEq, DecidableEq

namespace Span

variable {T : Type} [Scalar T]

/-- A whole piece of a given length. The key is reduced to a pitch class. -/
def whole (dur : T) (mode : Mode) (key : UInt8) : Span T := ⟨dur, mode, key % 12, 0, dur⟩

/-- One measure in C major. -/
instance : Inhabited (Span T) := ⟨whole 1 .major 0⟩

def isMajor (p : Span T) : Bool := p.mode = .major

def isMinor (p : Span T) : Bool := p.mode = .minor

def withDur (p : Span T) (dur : T) : Span T := { p with dur := dur }

/-- The span with its length multiplied. -/
def scaled (p : Span T) (factor : T) : Span T := p.withDur (p.dur * factor)

/-- The span moved on by quarters of its length. -/
def shifted (p : Span T) (quarters : Nat) : Span T :=
  { p with onset := p.onset + p.dur * (quarters : T) / ((4 : Nat) : T) }

def half (p : Span T) : Span T := p.scaled 0.5

def quarter (p : Span T) : Span T := p.scaled 0.25

def eighth (p : Span T) : Span T := p.scaled 0.125

def fromSecondQuarter (p : Span T) : Span T := p.shifted 1

def fromThirdQuarter (p : Span T) : Span T := p.shifted 2

def fromFourthQuarter (p : Span T) : Span T := p.shifted 3

def secondHalf (p : Span T) : Span T := p.fromThirdQuarter.half

def secondQuarter (p : Span T) : Span T := p.fromSecondQuarter.quarter

def thirdQuarter (p : Span T) : Span T := p.fromThirdQuarter.quarter

def fourthQuarter (p : Span T) : Span T := p.fromFourthQuarter.quarter

end Span
end ChordGrammar
