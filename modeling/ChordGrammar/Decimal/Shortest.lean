/-!
# Fewest digits that read back

A finite double is `± mantissa * 2 ^ exponent` with a mantissa below `2 ^ 53`. Decimal output works
on these integers, so none of it rounds more often than its rule says.

Every decimal strictly between the midpoints to a double's two neighbours reads back as that
double, and the midpoints do too when the mantissa is even. The grids `10 ^ k` are tried from the
coarsest on; on each, only the value's own two neighbours can be inside if any point is. Of two
points inside, the nearer is taken.
-/
namespace ChordGrammar.Decimal

/-! ## The exact value of a double -/

/-- What the bits of a double stand for. -/
inductive Binary where
  | nan
  | infinite (negative : Bool)
  | finite (negative : Bool) (mantissa : Nat) (exponent : Int)
  deriving DecidableEq

/-- The least exponent, shared by zero, the subnormal and the smallest normal doubles. -/
def leastExponent : Int := -1074

/-- The leading bit of a normal mantissa, which is not stored: `2 ^ 52`. -/
def hiddenBit : Nat := 0x10000000000000

/-- The number of stored exponents, of which the last marks infinity and not-a-number. -/
def exponentCount : Nat := 0x800

def Binary.ofFloat (x : Float) : Binary :=
  let bits := x.toBits.toNat
  let negative := bits / (hiddenBit * exponentCount) = 1
  let biased := bits / hiddenBit % exponentCount
  let fraction := bits % hiddenBit
  if biased = exponentCount - 1 then
    if fraction = 0 then .infinite negative else .nan
  else if biased = 0 then .finite negative fraction leastExponent
  else .finite negative (hiddenBit + fraction) (leastExponent + (biased - 1 : Nat))

/-- The power `base ^ exponent`, or one for a negative exponent. -/
def power (base : Nat) (exponent : Int) : Nat := base.pow exponent.toNat

/-! ## Digits -/

/-- Which way a value half way between two grid points goes. -/
inductive Tie where
  | up
  | toEven
  deriving DecidableEq

/-- Whether the upper of two grid points wins. The arguments are the lower point, as a count of
grid steps, and the distances to both. -/
def Tie.goesUp (tie : Tie) (lower below above : Nat) : Bool :=
  if below = above then
    match tie with
    | .up => true
    | .toEven => lower % 2 = 1
  else above < below

/-- The number `digits * 10 ^ exponent`. -/
structure Digits where
  digits : Nat
  exponent : Int
  deriving DecidableEq

/-- The point of the grid `10 ^ k` that reads back as `mantissa * 2 ^ exponent`, if there is one.
All lengths are in quarters of a binary unit, times a common factor that makes the grid step
`step` an integer as well. -/
def readsBackOn (tie : Tie) (mantissa : Nat) (exponent k : Int) : Option Nat :=
  let scale := power 2 (exponent - 2) * power 10 (-k)
  let step := power 2 (2 - exponent) * power 10 k
  let value := 4 * mantissa * scale
  let gapBelow := if mantissa = hiddenBit ∧ leastExponent < exponent then 1 else 2
  let low := (4 * mantissa - gapBelow) * scale
  let high := (4 * mantissa + 2) * scale
  let lower := value / step
  let below := value - lower * step
  let above := (lower + 1) * step - value
  let even := mantissa % 2 = 0
  let lowerIn := if even then low ≤ lower * step else low < lower * step
  let upperIn := if even then (lower + 1) * step ≤ high else (lower + 1) * step < high
  if lowerIn then
    if upperIn ∧ tie.goesUp lower below above then some (lower + 1) else some lower
  else if upperIn then some (lower + 1)
  else none

/-- The first hit among the next `fuel` grids from `10 ^ k` down. -/
def shortestFrom (tie : Tie) (mantissa : Nat) (exponent : Int) : Nat → Int → Digits
  | 0, k => ⟨0, k⟩
  | fuel + 1, k =>
    match readsBackOn tie mantissa exponent k with
    | some d => ⟨d, k⟩
    | none => shortestFrom tie mantissa exponent fuel (k - 1)

/-- The fewest digits that read back as `mantissa * 2 ^ exponent`, for a positive mantissa. The
first grid is coarser than the value, since `2 ^ b` is below `10 ^ (0.30103 * b + 1)`; seventeen
digits always suffice. -/
def shortest (tie : Tie) (mantissa : Nat) (exponent : Int) : Digits :=
  let bits := exponent + (mantissa.log2 + 1 : Nat)
  shortestFrom tie mantissa exponent 24 (bits * 30103 / 100000 + 2)

end ChordGrammar.Decimal
