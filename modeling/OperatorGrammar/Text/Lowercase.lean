import OperatorGrammar.Text.CaseTable

/-! # Lowercasing

Names are folded by the full lowercase mapping of Unicode: every character by itself, except that
`İ` becomes two characters and that a capital sigma which ends a word becomes the final small
sigma. -/

namespace OperatorGrammar

/-- Whether a character has case. -/
def isCased (c : Char) : Bool := inRanges casedRanges c.toNat

/-- Whether a character is passed over when looking for the letter before or after a sigma. -/
def isCaseIgnorable (c : Char) : Bool := inRanges caseIgnorableRanges c.toNat

/-- The lowercase of one character, whatever stands around it. -/
def lowercaseChar (c : Char) : List Char :=
  if c.toNat < 0x80 then [c.toLower]
  else if c = 'İ' then ['i', '\u0307']
  else
    match caseRuns.find? (·.contains c.toNat) with
    | some run => [Char.ofNat (run.lower + (c.toNat - run.first))]
    | none => [c]

/-- Whether the next character that counts is a letter with case. -/
def leadsToCased (cs : List Char) : Bool :=
  match cs.dropWhile isCaseIgnorable with
  | c :: _ => isCased c
  | [] => false

/-- The lowercase of a text of which `before` has been read, last character first.  A capital sigma
is final when a cased letter stands before it and none after it. -/
def lowercaseAfter (before : List Char) : List Char → List Char
  | [] => []
  | c :: rest =>
    (if c = 'Σ' then [if leadsToCased before && !leadsToCased rest then 'ς' else 'σ']
      else lowercaseChar c) ++ lowercaseAfter (c :: before) rest

/-- The lowercase of a text. -/
def lowercase (text : String) : String := String.ofList (lowercaseAfter [] text.toList)

end OperatorGrammar
