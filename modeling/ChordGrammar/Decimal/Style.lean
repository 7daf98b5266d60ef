import ChordGrammar.Decimal.Natural
import ChordGrammar.Decimal.Shortest

/-!
# Written forms of a double

The digits are the fewest that read back; a `Style` says how they are laid out. With a fixed number
of decimal places, the exact binary value is rounded once, half to even.
-/
namespace ChordGrammar.Decimal

/-- How the digits of a double are laid out. -/
structure Style where
  /-- The powers of ten of the first digit, from the least up to but without the greatest, that
  are written without an exponent; all of them if absent. -/
  positional : Option (Int × Int)
  /-- Whether a whole number in positional form ends in `.0`. -/
  keepsPoint : Bool
  /-- Whether a positive exponent has a sign. -/
  signsExponent : Bool
  tie : Tie

/-- Plain text: never an exponent, whole numbers without a point. -/
def Style.plain : Style := ⟨none, false, false, .up⟩

/-- Text that shows that the number is not an integer. -/
def Style.listing : Style := ⟨some (-4, 16), true, false, .up⟩

/-- Data exchange. -/
def Style.exchange : Style := ⟨some (-5, 16), true, true, .toEven⟩

/-- A text with its sign in front. -/
def signed (negative : Bool) (cs : List Char) : List Char := if negative then '-' :: cs else cs

namespace Style

/-- `digits * 10 ^ exponent` without an exponent. -/
def positionalText (style : Style) (d : Digits) : List Char :=
  let ds := digitChars d.digits
  let whole := ds.length + d.exponent
  if 0 ≤ d.exponent then
    ds ++ zeros d.exponent.toNat ++ (if style.keepsPoint then ['.', '0'] else [])
  else if 0 < whole then ds.take whole.toNat ++ '.' :: ds.drop whole.toNat
  else '0' :: '.' :: zeros (-whole).toNat ++ ds

/-- `digits * 10 ^ exponent` as one digit, a fraction and a power of ten. -/
def exponentText (style : Style) (d : Digits) : List Char :=
  let ds := digitChars d.digits
  let power := d.exponent + (ds.length - 1 : Nat)
  let fraction := ds.drop 1
  ds.take 1 ++ (if fraction = [] then [] else '.' :: fraction) ++ 'e' ::
    (if power < 0 then ['-'] else if style.signsExponent then ['+'] else []) ++
    digitChars power.natAbs

/-- The text of a positive number. -/
def digitsText (style : Style) (d : Digits) : List Char :=
  let power := d.exponent + ((digitChars d.digits).length - 1 : Nat)
  match style.positional with
  | none => style.positionalText d
  | some (least, greatest) =>
    if least ≤ power ∧ power < greatest then style.positionalText d else style.exponentText d

/-- The text of a double. -/
def text (style : Style) (x : Float) : String :=
  match Binary.ofFloat x with
  | .nan => "NaN"
  | .infinite negative => .ofList (signed negative ['i', 'n', 'f'])
  | .finite negative 0 _ => .ofList (signed negative (style.positionalText ⟨0, 0⟩))
  | .finite negative (m + 1) e =>
    .ofList (signed negative (style.digitsText (shortest style.tie (m + 1) e)))

end Style

/-! ## A fixed number of places -/

/-- `num / den` to the nearest integer, half to even. -/
def roundQuotient (num den : Nat) : Nat :=
  let lower := num / den
  let below := num - lower * den
  if Tie.toEven.goesUp lower below (den - below) then lower + 1 else lower

/-- `mantissa * 2 ^ exponent` in units of `10 ^ (-places)`. -/
def roundToPlaces (places mantissa : Nat) (exponent : Int) : Nat :=
  roundQuotient (mantissa * power 2 exponent * power 10 places) (power 2 (-exponent))

/-- A count of units of `10 ^ (-places)`, with all places written. -/
def placesText (places n : Nat) : List Char :=
  let ds := digitChars n
  let ds := zeros (places + 1 - ds.length) ++ ds
  let whole := ds.length - places
  ds.take whole ++ (if places = 0 then [] else '.' :: ds.drop whole)

/-- A double with `places` decimals. -/
def fixed (places : Nat) (x : Float) : String :=
  match Binary.ofFloat x with
  | .nan => "NaN"
  | .infinite negative => .ofList (signed negative ['i', 'n', 'f'])
  | .finite negative m e =>
    .ofList (signed negative (placesText places (roundToPlaces places m e)))

end ChordGrammar.Decimal
