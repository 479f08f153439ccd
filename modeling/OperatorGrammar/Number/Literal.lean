import OperatorGrammar.Number.Double

/-! # Reading numbers from text

A numeral is digits with at most one point among them and at least one digit in all, then possibly
an exponent; a sign may stand before it, and so may it before the words for infinity and for a
value that is no number.  `Double.read?` gives the double nearest to what is written. -/

namespace OperatorGrammar

/-- Whether a character is a decimal digit. -/
def isDigit (c : Char) : Bool := '0' ≤ c && c ≤ '9'

/-- The number that decimal digits spell. -/
def valueOfDigits (ds : List Char) : Nat :=
  ds.foldl (fun n c => 10 * n + (c.toNat - '0'.toNat)) 0

/-- The sign at the front of a text, plus being the default, and what follows it. -/
def readSign : List Char → Bool × List Char
  | '-' :: rest => (true, rest)
  | '+' :: rest => (false, rest)
  | cs => (false, cs)

/-- What a text spells as a number, before rounding: `coefficient · 10 ^ exponent`, an infinity,
or no number. -/
inductive Numeral where
  | nan
  | infinite (negative : Bool)
  | decimal (negative : Bool) (coefficient : Nat) (exponent : Int)
deriving DecidableEq, Repr

namespace Numeral

/-- The exponent after the digits of a numeral: nothing for zero, else `e`, a sign and digits up
to the end of the text. -/
def readExponent? : List Char → Option Int
  | [] => some 0
  | c :: rest =>
    if c = 'e' ∨ c = 'E' then
      let (negative, ds) := readSign rest
      if ds ≠ [] ∧ ds.all isDigit then
        some (if negative then -(valueOfDigits ds : Int) else valueOfDigits ds)
      else none
    else none

/-- An unsigned numeral: the digits after the point lower the exponent by one each. -/
def readDecimal? (negative : Bool) (cs : List Char) : Option Numeral :=
  let whole := cs.takeWhile isDigit
  let afterWhole := cs.dropWhile isDigit
  let (fraction, rest) :=
    match afterWhole with
    | '.' :: tail => (tail.takeWhile isDigit, tail.dropWhile isDigit)
    | _ => ([], afterWhole)
  if whole = [] ∧ fraction = [] then none
  else
    (readExponent? rest).map fun exponent =>
      .decimal negative (valueOfDigits (whole ++ fraction)) (exponent - fraction.length)

/-- Reads a whole text as a number; words are read in any mixture of cases. -/
def read? (text : String) : Option Numeral :=
  let (negative, rest) := readSign text.toList
  let word := String.ofList (rest.map Char.toLower)
  if word = "inf" ∨ word = "infinity" then some (.infinite negative)
  else if word = "nan" then some .nan
  else readDecimal? negative rest

/-- The nearest double.  Where the leading digit stands so far from the point that the answer is
plainly zero or infinite, the power of ten is never computed. -/
def toFloat : Numeral → Float
  | .nan => Double.notANumber
  | .infinite negative => Double.infinity negative
  | .decimal negative coefficient exponent =>
    let lead := exponent + ((Nat.toDigits 10 coefficient).length : Int)
    if coefficient = 0 ∨ lead < -330 then Double.ofRatio negative 0 1
    else if 310 < lead then Double.infinity negative
    else
      Double.ofRatio negative (coefficient * Nat.pow 10 exponent.toNat)
        (Nat.pow 10 (-exponent).toNat)

end Numeral

namespace Double

/-- The double nearest to what a text spells, if it spells a number at all. -/
def read? (text : String) : Option Float := (Numeral.read? text).map Numeral.toFloat

/-- The value of a literal: what it spells, unless that is no number or past the largest one. -/
def readLiteral? (text : String) : Option Float := (read? text).filter Float.isFinite

end Double

end OperatorGrammar
