import OperatorGrammar.Number.Literal
import OperatorGrammar.Text.Symbol

/-! # Numbers, names and separators

The part of the lexicon that is the same in every grammar.  `Lexeme.read?` gives the longest piece
at the front of a text that is a number, a name or a run of separators. -/

namespace OperatorGrammar

/-- What a piece of text is where no delimiter and no operator begins. -/
inductive Lexeme where
  | number
  | name
  | separator
deriving DecidableEq, Repr

namespace Lexeme

/-- The exponent at the front of a text: `e`, perhaps a sign, and digits; nothing if there are no
digits. -/
def exponentPart (cs : List Char) : List Char :=
  match cs with
  | e :: rest =>
    if e = 'e' ∨ e = 'E' then
      match rest with
      | sign :: tail =>
        if sign = '+' ∨ sign = '-' then
          let ds := tail.takeWhile isDigit
          if ds = [] then [] else e :: sign :: ds
        else
          let ds := rest.takeWhile isDigit
          if ds = [] then [] else e :: ds
      | [] => []
    else []
  | [] => []

/-- The point and the digits behind it at the front of a text; nothing if there are no digits. -/
def fractionPart (cs : List Char) : List Char :=
  match cs with
  | '.' :: rest =>
    let ds := rest.takeWhile isDigit
    if ds = [] then [] else '.' :: ds
  | _ => []

/-- The longest number at the front of a text: digits, a fraction or both, and perhaps an
exponent. -/
def numberPart (cs : List Char) : List Char :=
  let whole := cs.takeWhile isDigit
  let fraction := fractionPart (cs.drop whole.length)
  let mantissa := whole ++ fraction
  if mantissa = [] then [] else mantissa ++ exponentPart (cs.drop mantissa.length)

/-- The longest name at the front of a text. -/
def namePart (cs : List Char) : List Char :=
  match cs with
  | c :: rest => if isNameStart c then c :: rest.takeWhile isNameChar else []
  | [] => []

/-- What the text begins with, and the piece that is it.  The three kinds begin with different
characters. -/
def read? (cs : List Char) : Option (Lexeme × List Char) :=
  let number := numberPart cs
  let name := namePart cs
  let blank := cs.takeWhile isSeparator
  if number ≠ [] then some (.number, number)
  else if name ≠ [] then some (.name, name)
  else if blank ≠ [] then some (.separator, blank)
  else none

end Lexeme

end OperatorGrammar
