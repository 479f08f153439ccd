/-! # Characters, blanks and symbols at the front of a text

A text that is being scanned is the list of the characters that are left of it.  Positions count
bytes of its UTF-8 form. -/

namespace OperatorGrammar

/-- Whether a character can stand inside a name: an ASCII letter or digit, or an underscore. -/
def isNameChar (c : Char) : Bool := c.isAlphanum || c == '_'

/-- Whether a character can begin a name. -/
def isNameStart (c : Char) : Bool := c.isAlpha || c == '_'

/-- Whether a character separates tokens: space, tab, line feed, carriage return, form feed. -/
def isSeparator (c : Char) : Bool :=
  c == ' ' || c == '\t' || c == '\n' || c == '\r' || c == '\x0c'

/-- Whether a character has the Unicode property `White_Space`. -/
def isBlank (c : Char) : Bool :=
  ('\t' ≤ c && c ≤ '\r') || c == ' ' || c == '\u0085' || c == '\u00a0' || c == '\u1680' ||
    ('\u2000' ≤ c && c ≤ '\u200a') || c == '\u2028' || c == '\u2029' || c == '\u202f' ||
    c == '\u205f' || c == '\u3000'

/-- A text without the blanks at its front. -/
def skipBlanks (cs : List Char) : List Char := cs.dropWhile isBlank

/-- A text without the blanks at either end. -/
def trimBlanks (text : String) : String :=
  String.ofList (skipBlanks (skipBlanks text.toList).reverse).reverse

/-- The number of bytes of a text in UTF-8. -/
def byteLength (cs : List Char) : Nat := (cs.map Char.utf8Size).foldr (· + ·) 0

@[simp] theorem byteLength_nil : byteLength [] = 0 := rfl

@[simp] theorem byteLength_cons (c : Char) (cs : List Char) :
    byteLength (c :: cs) = c.utf8Size + byteLength cs := by
  simp [byteLength]

@[simp] theorem byteLength_append (cs ds : List Char) :
    byteLength (cs ++ ds) = byteLength cs + byteLength ds := by
  induction cs with
  | nil => simp
  | cons c cs ih => simp [ih, Nat.add_assoc]

/-- The number of bytes of a symbol in UTF-8, by which the longer of two matches is told. -/
def symbolLength (symbol : String) : Nat := byteLength symbol.toList

/-- Whether two characters are equal, or equal up to the case of an ASCII letter. -/
def sameChar (caseSensitive : Bool) (c d : Char) : Bool :=
  if caseSensitive then c == d else c.toLower == d.toLower

/-- Whether a text begins with a symbol, character by character. -/
def beginsWith (caseSensitive : Bool) : (text symbol : List Char) → Bool
  | _, [] => true
  | [], _ :: _ => false
  | c :: text, d :: symbol => sameChar caseSensitive c d && beginsWith caseSensitive text symbol

/-- Whether a word-like symbol at the front of a text would cut a longer name in two: its last
character and the one behind it both belong to names. -/
def splitsWord (text : List Char) (symbol : String) : Bool :=
  symbol.toList.getLast?.any isNameChar &&
    (text.drop symbol.toList.length).head?.any isNameChar

end OperatorGrammar
