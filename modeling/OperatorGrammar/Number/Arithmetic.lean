import OperatorGrammar.Number.Double

/-! # Arithmetic on doubles

The operations that the processor does not offer ready-made: integer powers, the remainder of a
division, factorials and the gamma function.  The order of the roundings is part of each
definition. -/

namespace OperatorGrammar

namespace Double

def pi : Float := Float.ofBits 0x400921FB54442D18

/-- Twice the circle constant. -/
def tau : Float := Float.ofBits 0x401921FB54442D18

/-- The base of the natural logarithm. -/
def euler : Float := Float.ofBits 0x4005BF0A8B145769

/-- Whether a number is whole. -/
def isWhole (x : Float) : Bool := x.isFinite && x.floor == x

/-- Repeated squaring: multiplies `acc` by the power `square ^ n`. -/
def squarings (acc square : Float) (n : Nat) : Float :=
  if n = 0 then acc
  else squarings (if n % 2 = 1 then acc * square else acc) (square * square) (n / 2)
termination_by n

/-- A whole power by repeated squaring; a negative one is the reciprocal of the positive one. -/
def wholePower (base : Float) (negative : Bool) (n : Nat) : Float :=
  let power := squarings 1.0 base n
  if negative then 1.0 / power else power

/-- The largest magnitude of an exponent that is raised by repeated squaring. -/
def maxWholeExponent : Float := 2147483647.0

/-- `base ^ exponent`: whole exponents by repeated squaring, so that negative bases stay real, all
others by the power function. -/
def power (base exponent : Float) : Float :=
  if isWhole exponent && exponent.abs <= maxWholeExponent then
    wholePower base (exponent < 0.0) exponent.abs.toUInt64.toNat
  else Float.pow base exponent

/-- What remains of `x` after taking away `y` a whole number of times, with the sign of `x`.  Both
numbers are written over the smaller of their exponents, where the remainder is exact. -/
def remainder (x y : Float) : Float :=
  match ofFloat x, ofFloat y with
  | .finite negative _ _, .infinite _ => if negative then -x.abs else x.abs
  | .finite negative mx qx, .finite _ my qy =>
    if my = 0 then notANumber
    else
      let unit := min qx qy
      let rest := mx * Nat.pow 2 (qx - unit).toNat % (my * Nat.pow 2 (qy - unit).toNat)
      ofRatio negative (rest * Nat.pow 2 unit.toNat) (Nat.pow 2 (-unit).toNat)
  | _, _ => notANumber

/-- The smaller of two numbers.  Where one is not a number it is the other; of two equal ones, such
as the two zeros, it is the second. -/
def minimum (x y : Float) : Float := if x.isNaN || y <= x then y else x

/-- The larger of two numbers, under the same rules as `minimum`. -/
def maximum (x y : Float) : Float := if x.isNaN || y >= x then y else x

/-- The largest whole number up to which every whole number is a double. -/
def maxSafeInteger : Float := 9007199254740991.0

/-- The natural number that a double denotes, if it is one and the doubles around it are whole
numbers one apart. -/
def toNat? (x : Float) : Option Nat :=
  if isWhole x && 0.0 <= x && x <= maxSafeInteger then some x.toUInt64.toNat else none

/-- The largest number whose factorial is a finite double. -/
def maxFactorial : Nat := 170

/-- The factorial, multiplied up from two; none if it is too large for a double. -/
def factorial? (n : Nat) : Option Float :=
  if maxFactorial < n then none
  else some ((List.range' 2 (n - 1)).foldl (fun product k => product * Float.ofNat k) 1.0)

/-- The constant term of the Lanczos series for the gamma function, with `g = 7`. -/
def lanczosConstant : Float := 0.9999999999998099

/-- The other coefficients of that series, for the poles `1, 2, …, 8`. -/
def lanczosCoefficients : List Float :=
  [676.5203681218851, -1259.1392167224028, 771.3234287776531, -176.6150291621406,
    12.507343278686905, -0.13857109526572012, 9.984369578019572e-6, 1.5056327351493116e-7]

/-- The gamma function by the Lanczos approximation, from one half upwards. -/
def lanczosGamma (z : Float) : Float :=
  let z := z - 1.0
  let (series, _) := lanczosCoefficients.foldl
    (fun (sum, pole) c => (sum + c / (z + pole), pole + 1.0)) (lanczosConstant, 1.0)
  let t := z + 7.0 + 0.5
  tau.sqrt * Float.pow t (z + 0.5) * (-t).exp * series

/-- The gamma function; below one half by the reflection formula
`Γ(z) = π / (sin(πz) · Γ(1 − z))`. -/
def gamma (z : Float) : Float :=
  if z < 0.5 then pi / ((pi * z).sin * lanczosGamma (1.0 - z)) else lanczosGamma z

def toRadians (x : Float) : Float := x * (pi / 180.0)

def toDegrees (x : Float) : Float := x * (180.0 / pi)

end Double

end OperatorGrammar
