/-! # Doubles taken apart

A finite double is `significand · 2 ^ exponent` with a sign.  `Double.ofFloat` reads the parts off
the 64 bits and `Double.ofRatio` goes the other way: it gives the double nearest to a quotient of
natural numbers, a tie going to the even significand, so that text and remainders are computed
exactly in `Nat` and rounded once at the end.  Powers are those of `Nat.pow`, by name. -/

namespace OperatorGrammar

/-- A double: not a number, an infinity, or a signed `significand · 2 ^ exponent`. -/
inductive Double where
  | nan
  | infinite (negative : Bool)
  | finite (negative : Bool) (significand : Nat) (exponent : Int)
deriving DecidableEq, Repr

namespace Double

/-- The parts of a double, from the fields of its 64 bits: sign, eleven bits of exponent, 52 bits
of fraction.  Numbers whose exponent field is zero have no hidden leading bit. -/
def ofFloat (x : Float) : Double :=
  let word : Nat := x.toBits.toNat
  let negative : Bool := word / Nat.pow 2 63 == 1
  let field : Nat := word / Nat.pow 2 52 % Nat.pow 2 11
  let fraction : Nat := word % Nat.pow 2 52
  if field = 2047 then
    if fraction = 0 then .infinite negative else .nan
  else if field = 0 then .finite negative fraction (-1074)
  else .finite negative (Nat.pow 2 52 + fraction) ((field : Int) - 1075)

/-- The quotient rounded to the nearest natural number, a tie going to the even one. -/
def roundQuotient (num den : Nat) : Nat :=
  let quotient := num / den
  let twice := 2 * (num % den)
  if twice < den then quotient
  else if den < twice then quotient + 1
  else quotient + quotient % 2

/-- The quotient `num / den` divided by `2 ^ exponent`, as a numerator and a denominator. -/
def scaleQuotient (num den : Nat) (exponent : Int) : Nat × Nat :=
  (num * Nat.pow 2 (-exponent).toNat, den * Nat.pow 2 exponent.toNat)

/-- The exponent of the unit in the last place of the double nearest to `num / den`: the one that
leaves 53 bits before the point, and never below that of the smallest positive double. -/
def unitExponent (num den : Nat) : Int :=
  let guess : Int := (num.log2 : Int) - (den.log2 : Int) - 53
  let (n, d) := scaleQuotient num den guess
  max (if Nat.pow 2 53 ≤ n / d then guess + 1 else guess) (-1074)

/-- The bits of the non-negative double nearest to `num / den`.  Counting units in the last place
from zero numbers the doubles in order, so a significand that rounds up to `2 ^ 53` lands on the
next exponent by itself; what lies past the largest double is infinite. -/
def bitsOfRatio (num den : Nat) : Nat :=
  if num = 0 then 0
  else
    let unit := unitExponent num den
    let (n, d) := scaleQuotient num den unit
    min ((unit + 1074).toNat * Nat.pow 2 52 + roundQuotient n d) (2047 * Nat.pow 2 52)

/-- The double nearest to `num / den`, with the given sign. -/
def ofRatio (negative : Bool) (num den : Nat) : Float :=
  Float.ofBits (UInt64.ofNat (bitsOfRatio num den + if negative then Nat.pow 2 63 else 0))

/-- The infinity of the given sign. -/
def infinity (negative : Bool) : Float :=
  Float.ofBits (UInt64.ofNat (2047 * Nat.pow 2 52 + if negative then Nat.pow 2 63 else 0))

/-- The double that is not a number. -/
def notANumber : Float := Float.ofBits 0x7FF8000000000000

end Double

end OperatorGrammar
