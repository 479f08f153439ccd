import OperatorGrammar.Grammar
import OperatorGrammar.ParseError
import OperatorGrammar.Token
import OperatorGrammar.Token.Lexeme

/-! # From text to tokens

A text is scanned from left to right.  What comes next is a delimiter, the longest operator symbol,
or a number, a name or separators, in this order.  Which role a symbol plays depends on the token
before it, a closing delimiter has to fit the innermost group, and the implicit operator is put
between two operands that have none.  `Scan.step` makes one of these steps, and `tokenize` makes
them up to the end of the text. -/

namespace OperatorGrammar

/-- A group whose opener has been read: the index of its pair of delimiters, and the byte at which
the opener stands. -/
structure OpenGroup where
  index : Nat
  position : Nat
deriving DecidableEq, Repr

/-- How far a text has been scanned. -/
structure Scan where
  /-- The tokens read so far, the last one first. -/
  tokens : List Token := []
  /-- The groups that are open, the innermost one first. -/
  groups : List OpenGroup := []
  /-- The byte at which the rest of the text begins. -/
  position : Nat := 0
deriving DecidableEq, Repr

/-- A delimiter that begins or ends a group, by the index of its pair. -/
inductive Delimiter where
  | opens (index : Nat)
  | closes (index : Nat)
deriving DecidableEq, Repr

/-- The last of the longest elements of a list. -/
def lastLongest {α : Type} (length : α → Nat) (xs : List α) : Option α :=
  xs.foldl (fun best x => if best.all (length · ≤ length x) then some x else best) none

namespace Grammar

variable (g : Grammar)

/-- The pair of delimiters with an index.  Scanning asks for no index that is out of range. -/
def pairAt (index : Nat) : Parenthetical := g.parentheticals.getD index ⟨"", ""⟩

/-- The longest operator symbol at the front of a text that does not cut a name in two. -/
def operatorAt? (text : List Char) : Option String :=
  g.operatorSymbols.find? fun symbol => g.startsWith text symbol && !splitsWord text symbol

/-- The longest closer at the front of a text that is longer than every operator symbol there. -/
def strayCloserAt? (text : List Char) : Option String :=
  let operatorLength := ((g.operatorAt? text).map symbolLength).getD 0
  lastLongest symbolLength <|
    (g.parentheticals.map Parenthetical.closer).filter fun closer =>
      operatorLength < symbolLength closer && g.startsWith text closer

/-- The role of a symbol between two operands. -/
def infixKind (symbol : String) : TokenKind := if g.isMultary symbol then .multary else .binary

theorem isInfix_infixKind (symbol : String) : (g.infixKind symbol).isInfix = true := by
  unfold infixKind
  split <;> rfl

end Grammar

namespace Scan

/-- Whether the next token has to begin an operand. -/
def expectsOperand (s : Scan) : Bool :=
  match s.tokens with
  | [] => true
  | t :: _ => t.kind.expectsOperandAfter

def push (s : Scan) (text : String) (kind : TokenKind) : Scan :=
  { s with tokens := ⟨text, kind, s.position⟩ :: s.tokens }

/-- The text at the current place has no meaning there. -/
def unrecognized (s : Scan) (text : String) : ParseError := .unrecognized text s.position

/-- Makes room for an operand: behind another operand the implicit operator is put first. -/
def beginOperand (g : Grammar) (s : Scan) (next : String) : Except ParseError Scan :=
  if s.expectsOperand then .ok s
  else
    match g.implicitOperator with
    | some symbol => .ok (s.push symbol (g.infixKind symbol))
    | none => .error (s.unrecognized next)

/-- Takes the closer of a pair for the best delimiter so far, if it is that of the innermost group
and no shorter.  A pair whose two delimiters are the same closes only where no operand is
expected. -/
def tryCloser (g : Grammar) (s : Scan) (text : List Char) (best : Option (Delimiter × String))
    (pair : Parenthetical) (index : Nat) : Option (Delimiter × String) :=
  if s.groups.head?.map OpenGroup.index == some index && g.startsWith text pair.closer &&
      !(s.expectsOperand && pair.opener == pair.closer) &&
      best.all fun (_, symbol) => symbolLength symbol ≤ symbolLength pair.closer
  then some (.closes index, pair.closer)
  else best

/-- Takes the opener of a pair for the best delimiter so far, if it is longer. -/
def tryOpener (g : Grammar) (text : List Char) (best : Option (Delimiter × String))
    (pair : Parenthetical) (index : Nat) : Option (Delimiter × String) :=
  if g.startsWith text pair.opener &&
      best.all fun (_, symbol) => symbolLength symbol < symbolLength pair.opener
  then some (.opens index, pair.opener)
  else best

/-- The longest delimiter at the front of a text, with its symbol; of an opener and a closer of one
length, the closer. -/
def matchDelimiter (g : Grammar) (s : Scan) (text : List Char) : Option (Delimiter × String) :=
  g.parentheticals.zipIdx.foldl
    (fun best (pair, index) => tryOpener g text (s.tryCloser g text best pair index) pair index)
    none

/-- Begins a group, unless groups are nested too deep. -/
def openGroup (g : Grammar) (s : Scan) (index : Nat) (text : String) : Except ParseError Scan := do
  let s ← s.beginOperand g text
  if g.maxDepth.toNat ≤ s.groups.length then throw (.nestingTooDeep g.maxDepth)
  return { s with groups := ⟨index, s.position⟩ :: s.groups }.push (g.pairAt index).opener .opening

/-- Ends the innermost group. -/
def closeGroup (s : Scan) (pair : Parenthetical) : Scan :=
  { s with groups := s.groups.tail }.push pair.closer .closing

/-- Gives an operator symbol its role.  Where an operand is expected it is a prefix; elsewhere it
gathers operands, joins two, or stands behind one, whichever of these it can first.  A symbol that
can only be a prefix begins a new operand. -/
def operator (g : Grammar) (s : Scan) (symbol text : String) : Except ParseError Scan :=
  if s.expectsOperand then
    if g.preUnary.contains symbol then .ok (s.push symbol .preUnary)
    else .error (s.unrecognized text)
  else if g.isMultary symbol then .ok (s.push symbol .multary)
  else if g.nary.contains symbol then .ok (s.push symbol .binary)
  else if g.postUnary.contains symbol then .ok (s.push symbol .postUnary)
  else if g.preUnary.contains symbol then do
    let s ← s.beginOperand g text
    return s.push symbol .preUnary
  else .error (s.unrecognized text)

/-- The role of a name: a function where its argument list follows, else an identifier. -/
def nameKind (g : Grammar) (name : String) (after : List Char) : TokenKind :=
  if g.functions.contains name && g.startsWith (skipBlanks after) g.argumentOpener then .function
  else .identifier

/-- Reads a number, a name or separators; the result says how many characters they are. -/
def lexeme (g : Grammar) (s : Scan) (text : List Char) : Except ParseError (Scan × Nat) :=
  match Lexeme.read? text with
  | none => .error (s.unrecognized (String.ofList (text.take 1)))
  | some (.separator, piece) => .ok (s, piece.length)
  | some (.number, piece) => do
    let word := String.ofList piece
    let s ← s.beginOperand g word
    return (s.push word .number, piece.length)
  | some (.name, piece) => do
    let word := String.ofList piece
    let name := g.canonical word
    let kind := nameKind g name (text.drop piece.length)
    let s ← s.beginOperand g word
    return (s.push name kind, piece.length)

/-- The piece of a text that a symbol at its front covers. -/
def covered (text : List Char) (symbol : String) : String :=
  String.ofList (text.take symbol.toList.length)

/-- Reads what comes next in a text that is not at its end; the result says how many characters
were read. -/
def step (g : Grammar) (s : Scan) (text : List Char) : Except ParseError (Scan × Nat) :=
  match s.matchDelimiter g text with
  | some (.opens index, symbol) => do
    let s ← s.openGroup g index (covered text symbol)
    return (s, symbol.toList.length)
  | some (.closes index, symbol) => .ok (s.closeGroup (g.pairAt index), symbol.toList.length)
  | none =>
    match g.strayCloserAt? text with
    | some closer => .error (.unmatchedClose closer s.position)
    | none =>
      match g.operatorAt? text with
      | some symbol => do
        let s ← s.operator g symbol (covered text symbol)
        return (s, symbol.toList.length)
      | none => s.lexeme g text

/-- Scans the rest of a text.  Each step reads at least one character, for no symbol of a grammar is
empty. -/
def run (g : Grammar) (s : Scan) : List Char → Except ParseError Scan
  | [] => .ok s
  | c :: rest =>
    match s.step g (c :: rest) with
    | .error e => .error e
    | .ok (next, count) =>
      run g { next with position := next.position + byteLength (c :: rest.take (count - 1)) }
        (rest.drop (count - 1))
termination_by text => text.length
decreasing_by simp only [List.length_drop, List.length_cons]; omega

/-- The tokens of a text that has been scanned to its end, unless a group is still open. -/
def finish (g : Grammar) (s : Scan) : Except ParseError (List Token) :=
  match s.groups with
  | group :: _ =>
    let pair := g.pairAt group.index
    .error (.unterminated pair.opener pair.closer group.position)
  | [] => .ok s.tokens.reverse

end Scan

/-- The tokens of a text. -/
def tokenize (g : Grammar) (input : String) : Except ParseError (List Token) := do
  let s ← Scan.run g {} input.toList
  s.finish g

end OperatorGrammar
