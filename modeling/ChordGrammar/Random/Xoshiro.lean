import ChordGrammar.Grammar.Draw
import ChordGrammar.Json.Codec

/-!
# xoshiro256++

The seeded draw source. A state is four 64-bit words; a seed is stretched to a state by four steps
of SplitMix64, so equal seeds give equal draws on every machine. Only `unit` leaves the integers:
the upper 53 bits of a word, divided by `2 ^ 53`, lie in `[0, 1)` and are exact in a double. A state
is written as its four words, so a run can be put aside and taken up again.
-/
namespace ChordGrammar

/-- A generator state. -/
structure Xoshiro where
  s0 : UInt64
  s1 : UInt64
  s2 : UInt64
  s3 : UInt64
  deriving DecidableEq, Inhabited

namespace Xoshiro

/-- The increment of the seed sequence. -/
def seedStep : UInt64 := 0x9e3779b97f4a7c15

/-- The scrambling of one element of the seed sequence. -/
def scramble (z : UInt64) : UInt64 :=
  let z := (z ^^^ (z >>> 30)) * 0xbf58476d1ce4e5b9
  let z := (z ^^^ (z >>> 27)) * 0x94d049bb133111eb
  z ^^^ (z >>> 31)

/-- The state that a seed stands for. -/
def ofSeed (seed : UInt64) : Xoshiro where
  s0 := scramble (seed + seedStep)
  s1 := scramble (seed + seedStep + seedStep)
  s2 := scramble (seed + seedStep + seedStep + seedStep)
  s3 := scramble (seed + seedStep + seedStep + seedStep + seedStep)

/-- The bits of a word moved up by `n` places, those that fall off coming in at the bottom. -/
def rotate (x n : UInt64) : UInt64 := (x <<< n) ||| (x >>> (64 - n))

/-- The word that a state hands out. -/
def output (g : Xoshiro) : UInt64 := rotate (g.s0 + g.s3) 23 + g.s0

/-- The state after a word has been handed out. -/
def advance (g : Xoshiro) : Xoshiro :=
  let s2 := g.s2 ^^^ g.s0
  let s3 := g.s3 ^^^ g.s1
  { s0 := g.s0 ^^^ s3, s1 := g.s1 ^^^ s2, s2 := s2 ^^^ (g.s1 <<< 17), s3 := rotate s3 45 }

/-- The next word. -/
def next (g : Xoshiro) : UInt64 × Xoshiro := (g.output, g.advance)

/-- The state after `n` words. -/
def skip : Nat → Xoshiro → Xoshiro
  | 0, g => g
  | n + 1, g => skip n g.advance

section Fractions

variable {R : Type} [Scalar R]

/-- The number of different fractions: `2 ^ 53`. -/
def unitSteps : Nat := 0x20000000000000

/-- The fraction in `[0, 1)` that a word stands for. -/
def unit (word : UInt64) : R := ((word >>> 11).toNat : R) / (unitSteps : R)

instance : DrawSource Xoshiro R where
  draw g := (unit g.output, g.advance)

/-- A draw between two bounds, the lower of which must be less than the upper. -/
def range (low high : R) (g : Xoshiro) : Except DrawError (R × Xoshiro) :=
  if low < high then
    let (x, g) := draw g
    .ok (low + x * (high - low), g)
  else .error .emptyRange

end Fractions

section Saved

open Json

def words (g : Xoshiro) : List UInt64 := [g.s0, g.s1, g.s2, g.s3]

/-- A list of exactly four words. -/
def wordsReader : Reader Xoshiro := fun allowance cs =>
  match skipBlanks cs with
  | '[' :: rest =>
    match allowance with
    | 0 => .error .malformed
    | allowance + 1 => do
      let (s0, cs) ← word allowance true rest
      let (s1, cs) ← word allowance false cs
      let (s2, cs) ← word allowance false cs
      let (s3, cs) ← word allowance false cs
      return (⟨s0, s1, s2, s3⟩, ← endOfList cs)
  | cs => .error (otherFault cs)
where
  word (allowance : Nat) (first : Bool) (cs : List Char) :
      Except Fault (UInt64 × List Char) := do
    match ← nextItem first cs with
    | (true, cs) => Codec.reader allowance cs
    | (false, _) => .error .mismatch

instance : Codec Xoshiro where
  document g := .object [("s", Codec.document g.words)]
  reader := .record [.setting "s" wordsReader fun g _ => some g] none id

end Saved
end Xoshiro
end ChordGrammar
