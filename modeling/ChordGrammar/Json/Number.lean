import ChordGrammar.Decimal.Natural
import ChordGrammar.Json.Lexical

/-!
# Numbers

Reading a number has two steps: its characters are split into parts by the grammar of the format,
and the parts are then given a value. A whole number that fits a 64-bit word is an integer. For any
other the leading digits that fit a word are kept, and the double nearest to them is multiplied or
divided by a power of ten. That rounds more than once, so the result may be a neighbour of the
nearest double.
-/
namespace ChordGrammar.Json

open Decimal (digitValue digitsValue)

/-- The parts of a written number. -/
structure NumberText where
  negative : Bool
  whole : List Char
  fraction : Option (List Char)
  /-- Whether the exponent is negative, and its digits. -/
  exponent : Option (Bool × List Char)
  deriving DecidableEq

def takeDigits (cs : List Char) : List Char × List Char :=
  (cs.takeWhile Char.isDigit, cs.dropWhile Char.isDigit)

/-- One digit or more. -/
def someDigits (cs : List Char) : Except Fault (List Char × List Char) :=
  match cs with
  | [] => .error .cutShort
  | c :: _ => if c.isDigit then .ok (takeDigits cs) else .error .malformed

/-- The digits before the point. Only zero itself starts with a zero. -/
def wholeDigits (cs : List Char) : Except Fault (List Char × List Char) := do
  let (ds, rest) ← someDigits cs
  if ds.head? = some '0' ∧ ds.length ≠ 1 then .error .malformed else .ok (ds, rest)

/-- The digits after a point, if there is one. -/
def fractionDigits : List Char → Except Fault (Option (List Char) × List Char)
  | '.' :: cs => (someDigits cs).map fun (ds, rest) => (some ds, rest)
  | cs => .ok (none, cs)

/-- The sign and digits after an `e`, if there is one. -/
def exponentDigits : List Char → Except Fault (Option (Bool × List Char) × List Char)
  | c :: cs =>
    if c = 'e' ∨ c = 'E' then
      let (negative, cs) := match cs with
        | '+' :: cs => (false, cs)
        | '-' :: cs => (true, cs)
        | cs => (false, cs)
      (someDigits cs).map fun (ds, rest) => (some (negative, ds), rest)
    else .ok (none, c :: cs)
  | [] => .ok (none, [])

/-- Splits a number into its parts. -/
def numberText (cs : List Char) : Except Fault (NumberText × List Char) := do
  let (negative, cs) := match cs with
    | '-' :: cs => (true, cs)
    | cs => (false, cs)
  let (whole, cs) ← wholeDigits cs
  let (fraction, cs) ← fractionDigits cs
  let (exponent, cs) ← exponentDigits cs
  return (⟨negative, whole, fraction, exponent⟩, cs)

/-- The value of a number. -/
inductive Number where
  | integer (n : Int)
  | real (x : Float)

/-- The bound of a 64-bit word. -/
def wordBound : Nat := UInt64.size

/-- The leading digits that fit a word, and the power of ten they are to be multiplied by. -/
structure Scaled where
  significand : Nat
  power : Int

/-- Digits before the point: those that fit a word, and then one power of ten for each digit from
the first that does not. -/
def scaleWhole : Nat → List Char → Scaled
  | n, [] => ⟨n, 0⟩
  | n, c :: cs =>
    if n * 10 + digitValue c < wordBound then scaleWhole (n * 10 + digitValue c) cs
    else ⟨n, (cs.length + 1 : Nat)⟩

/-- Digits after the point: those that still fit a word; the first that does not ends them. -/
def scaleFraction (s : Scaled) : List Char → Scaled
  | [] => s
  | c :: cs =>
    if s.significand * 10 + digitValue c < wordBound then
      scaleFraction ⟨s.significand * 10 + digitValue c, s.power - 1⟩ cs
    else s

/-- A power of ten up to `10 ^ 308`. -/
def powerOfTen (n : Nat) : Float := Float.ofScientific 1 false n

/-- A significand divided by `10 ^ n`, at most `10 ^ 308` at a time. Two such divisions bring any
64-bit significand down to zero. -/
def divideByPower (x : Float) (n : Nat) : Float :=
  if n ≤ 308 then x / powerOfTen n
  else if n ≤ 616 then x / powerOfTen 308 / powerOfTen (n - 308)
  else 0

/-- The magnitude of a scaled number, if it is in the range of a double. -/
def Scaled.toFloat? (s : Scaled) : Option Float :=
  let x := Float.ofNat s.significand
  if 0 ≤ s.power then
    if s.power ≤ 308 then
      let y := x * powerOfTen s.power.toNat
      if y.isInf then none else some y
    else if s.significand = 0 then some 0
    else none
  else some (divideByPower x (-s.power).toNat)

namespace NumberText

/-- The written magnitude as kept digits and a power of ten. -/
def scaled (t : NumberText) : Scaled :=
  let s := scaleFraction (scaleWhole 0 t.whole) (t.fraction.getD [])
  match t.exponent with
  | none => s
  | some (true, ds) => { s with power := s.power - digitsValue ds }
  | some (false, ds) => { s with power := s.power + digitsValue ds }

/-- The written number as an integer. Negative zero is not one. -/
def toInt? (t : NumberText) : Option Int :=
  if t.fraction = none ∧ t.exponent = none then
    let n := digitsValue t.whole
    if t.negative then
      if n = 0 ∨ wordBound / 2 < n then none else some (-n)
    else if n < wordBound then some n
    else none
  else none

/-- The value of a written number; there is none beyond the range of a double. -/
def value? (t : NumberText) : Option Number :=
  match t.toInt? with
  | some n => some (.integer n)
  | none => t.scaled.toFloat?.map fun x => .real (if t.negative then -x else x)

end NumberText

/-- Reads a number and its value. -/
def number (cs : List Char) : Except Fault (Number × List Char) := do
  let (t, rest) ← numberText cs
  match t.value? with
  | some n => return (n, rest)
  | none => .error .malformed

/-- Passes over a number whose value is not wanted. Here an early end counts as malformed. -/
def skipNumber (cs : List Char) : Except Fault (List Char) :=
  match numberText cs with
  | .ok (_, rest) => .ok rest
  | .error _ => .error .malformed

end ChordGrammar.Json
