/-!
# Scalars

Weights, draws and durations are numbers of some type `R`. Programs run over `Float`, where
every operation rounds; statements about totals and proportions are read over `Rat`, where none
does. A definition over `Scalar R` fixes the operations and their order once for both.
-/
namespace ChordGrammar

/-- Ordered arithmetic with decimal literals. -/
class Scalar (R : Type) extends Zero R, One R, Add R, Sub R, Mul R, Div R, LT R, LE R,
    NatCast R, OfScientific R where
  decidableLT : DecidableLT R
  decidableLE : DecidableLE R

namespace Scalar

instance {R : Type} [Scalar R] : DecidableLT R := decidableLT
instance {R : Type} [Scalar R] : DecidableLE R := decidableLE

instance : Scalar Float where
  zero := 0
  one := 1
  natCast := Float.ofNat
  decidableLT := inferInstance
  decidableLE := inferInstance

instance : Scalar Rat where
  zero := 0
  one := 1
  decidableLT := inferInstance
  decidableLE := inferInstance

variable {R : Type} [Scalar R]

/-- Sum from the left, starting at zero. -/
def sum (xs : List R) : R := xs.foldl (· + ·) 0

/-- Distance between two numbers. -/
def distance (x y : R) : R :=
  let d := x - y
  if d < 0 then 0 - d else d

end Scalar
end ChordGrammar
