import ChordGrammar.Decimal.Natural

/-!
# Numbers given by hand

Numbers on a command line are single words: no blanks and no separators between digits, but a sign
and leading zeros are allowed. A decimal becomes the nearest double.
-/
namespace ChordGrammar.Decimal

/-- The number that a non-empty list of digits stands for. -/
def digitsToNat? (cs : List Char) : Option Nat :=
  if cs ≠ [] ∧ cs.all Char.isDigit then some (digitsValue cs) else none

/-- A sign and the rest of a word. -/
def splitSign : List Char → Bool × List Char
  | '+' :: cs => (false, cs)
  | '-' :: cs => (true, cs)
  | cs => (false, cs)

/-- A natural number below `bound`, with or without a plus sign. -/
def readNat? (bound : Nat) (s : String) : Option Nat := do
  let cs := match s.toList with
    | '+' :: cs => cs
    | cs => cs
  let n ← digitsToNat? cs
  if n < bound then return n else none

/-- An integer in `0 .. bound`, with or without a sign; zero may be negative. -/
def readSignedNat? (bound : Nat) (s : String) : Option Nat := do
  let (negative, cs) := splitSign s.toList
  let n ← digitsToNat? cs
  if n < bound ∧ (negative → n = 0) then return n else none

/-- The exponent after an `e`, or zero at the end of the word. -/
def readExponent? : List Char → Option Int
  | [] => some 0
  | c :: cs =>
    if c = 'e' ∨ c = 'E' then do
      let (negative, cs) := splitSign cs
      let n ← digitsToNat? cs
      return if negative then -n else n
    else none

/-- An unsigned decimal: digits with at most one point among them, at least one digit in all, and
an exponent or not. -/
def readMagnitude? (cs : List Char) : Option Float := do
  let whole := cs.takeWhile Char.isDigit
  let (fraction, rest) := match cs.dropWhile Char.isDigit with
    | '.' :: cs => (cs.takeWhile Char.isDigit, cs.dropWhile Char.isDigit)
    | cs => ([], cs)
  let n ← digitsToNat? (whole ++ fraction)
  let power := (← readExponent? rest) - fraction.length
  return Float.ofScientific n (power < 0) power.natAbs

/-- A double. The names of infinity and of not-a-number may be in any letter case. -/
def readFloat? (s : String) : Option Float := do
  let (negative, cs) := splitSign s.toList
  let x ← match String.ofList (cs.map Char.toLower) with
    | "inf" | "infinity" => some (1 / 0)
    | "nan" => some (0 / 0)
    | _ => readMagnitude? cs
  return if negative then -x else x

end ChordGrammar.Decimal
