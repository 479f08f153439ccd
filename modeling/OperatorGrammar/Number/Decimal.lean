import OperatorGrammar.Number.Double

/-! # Decimal text of doubles

Every finite double has a finite decimal expansion, so both texts are found exactly in `Nat`.

* `Double.text` has the fewest digits that read back as the same double, written positionally and
  never with an exponent.
* `Double.scientific` has twelve significant digits, a tie going to the even last digit, and an
  exponent. -/

namespace OperatorGrammar

/-- The decimal number `coefficient · 10 ^ exponent`. -/
structure Decimal where
  coefficient : Nat
  exponent : Int
deriving DecidableEq, Repr

namespace Decimal

/-- The decimal digits of a natural number, the leading one first. -/
def digits (n : Nat) : List Char := Nat.toDigits 10 n

/-- The number written out: zeros fill the places up to the point, on either side of it. -/
def positional (d : Decimal) : String :=
  let ds := digits d.coefficient
  let places := (-d.exponent).toNat
  String.ofList <|
    if places = 0 then ds ++ List.replicate d.exponent.toNat '0'
    else if places < ds.length then
      ds.take (ds.length - places) ++ '.' :: ds.drop (ds.length - places)
    else '0' :: '.' :: List.replicate (places - ds.length) '0' ++ ds

/-- The exact value `significand · 2 ^ exponent` as a decimal: a negative power of two is a power
of five over one of ten. -/
def ofBinary (significand : Nat) (exponent : Int) : Decimal :=
  if 0 ≤ exponent then ⟨significand * Nat.pow 2 exponent.toNat, 0⟩
  else ⟨significand * Nat.pow 5 (-exponent).toNat, exponent⟩

/-- The numbers that round to one double: from `low` to `high` around `value`, all three
multiples of the same power of ten, with both ends when `closed`. -/
structure RoundingRange where
  value : Nat
  low : Nat
  high : Nat
  closed : Bool
  exponent : Int
deriving DecidableEq, Repr

namespace RoundingRange

/-- The range of `significand · 2 ^ exponent`: half a unit to either side, but only a quarter of
one downwards where the doubles below lie twice as close.  A number halfway between two doubles
goes to the one with an even significand, so the ends belong to the range exactly then. -/
def ofBinary (significand : Nat) (exponent : Int) : RoundingRange :=
  let below := if significand = Nat.pow 2 52 ∧ -1074 < exponent then 1 else 2
  let quarter := exponent - 2
  let unit := Decimal.ofBinary 1 quarter
  { value := 4 * significand * unit.coefficient
    low := (4 * significand - below) * unit.coefficient
    high := (4 * significand + 2) * unit.coefficient
    closed := significand % 2 = 0
    exponent := unit.exponent }

def contains (r : RoundingRange) (n : Nat) : Bool :=
  if r.closed then r.low ≤ n && n ≤ r.high else r.low < n && n < r.high

/-- The decimal of the range with the fewest digits, and of those the nearest to the value, the
larger of two equally near.  The last `drop` digits are given up if one of the two neighbours of
the value on the coarser grid lies in the range, and fewer of them otherwise. -/
def shortest (r : RoundingRange) : (drop : Nat) → Decimal
  | 0 => ⟨r.value, r.exponent⟩
  | drop + 1 =>
    let unit := Nat.pow 10 (drop + 1)
    let down := r.value / unit
    let exponent := r.exponent + (drop + 1 : Nat)
    match r.contains (down * unit), r.contains ((down + 1) * unit) with
    | true, true =>
      if 2 * (r.value % unit) < unit then ⟨down, exponent⟩ else ⟨down + 1, exponent⟩
    | true, false => ⟨down, exponent⟩
    | false, true => ⟨down + 1, exponent⟩
    | false, false => r.shortest drop

end RoundingRange

/-- The decimal with the fewest digits that reads back as the double `significand · 2 ^ exponent`.
The search begins one place before the leading digit, where the next power of ten may fit. -/
def shortest (significand : Nat) (exponent : Int) : Decimal :=
  let range := RoundingRange.ofBinary significand exponent
  range.shortest (digits range.value).length

/-- How many significant digits the scientific form has. -/
def scientificDigits : Nat := 12

/-- A positive decimal rounded to twelve significant digits, a tie going to the even last digit.
Rounding up from all nines gives a power of ten, whose last zero is then dropped. -/
def roundSignificant (d : Decimal) : Decimal :=
  let count := (digits d.coefficient).length
  if count ≤ scientificDigits then
    let pad := scientificDigits - count
    ⟨d.coefficient * Nat.pow 10 pad, d.exponent - pad⟩
  else
    let drop := count - scientificDigits
    let rounded := Double.roundQuotient d.coefficient (Nat.pow 10 drop)
    if rounded = Nat.pow 10 scientificDigits then ⟨rounded / 10, d.exponent + (drop + 1 : Nat)⟩
    else ⟨rounded, d.exponent + drop⟩

/-- One digit, a point, the other digits, and the exponent of the first digit without a plus sign
or padding. -/
def scientific (d : Decimal) : String :=
  let ds := digits d.coefficient
  let exponent := d.exponent + (ds.length : Int) - 1
  String.ofList (ds.take 1 ++ '.' :: ds.drop 1) ++ "e" ++ toString exponent

end Decimal

namespace Double

/-- A sign where the number has one, zero included. -/
def signed (negative : Bool) (text : String) : String :=
  if negative then "-" ++ text else text

/-- The text of a number: the fewest digits that read back, positional, without a point where the
number is whole. -/
def text (x : Float) : String :=
  match ofFloat x with
  | .nan => "NaN"
  | .infinite negative => signed negative "inf"
  | .finite negative significand exponent =>
    signed negative <|
      if significand = 0 then "0" else (Decimal.shortest significand exponent).positional

/-- The text of a number with twelve significant digits and an exponent. -/
def scientific (x : Float) : String :=
  match ofFloat x with
  | .nan => "NaN"
  | .infinite negative => signed negative "inf"
  | .finite negative significand exponent =>
    signed negative <|
      if significand = 0 then "0.00000000000e0"
      else (Decimal.ofBinary significand exponent).roundSignificant.scientific

end Double

end OperatorGrammar
