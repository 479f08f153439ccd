import OperatorGrammar.Token.Scan
import OperatorGrammar.TokenTree.Expression

/-! # From tokens to a tree

Tokens are read one by one.  An opening delimiter begins a new row of items and puts the row around
it on a stack; the closing one turns its row into a tree, which becomes an item of the row around
it.  So does the argument list of a function.  At the end only the outermost row is left. -/

namespace OperatorGrammar

/-- What a row of items stands in: a group, or the argument list of a function. -/
inductive Enclosing where
  | group (opener : Token)
  | call (function opener : Token)
deriving DecidableEq, Repr

def Enclosing.opener : Enclosing → Token
  | .group opener => opener
  | .call _ opener => opener

/-- A row that waits for an inner one to end. -/
structure Frame where
  /-- What the inner row stands in. -/
  enclosing : Enclosing
  /-- The items before the inner row, the last one first. -/
  before : List Item

/-- How far tokens have been read. -/
structure Reading where
  /-- The items of the innermost row, the last one first. -/
  items : List Item := []
  /-- The rows around it, the innermost one first. -/
  frames : List Frame := []
  /-- A function whose argument list has to follow. -/
  callee : Option Token := none

namespace Reading

def push (r : Reading) (item : Item) : Reading := { r with items := item :: r.items }

/-- Refuses one more level of groups and calls than the grammar allows. -/
def checkDepth (g : Grammar) (r : Reading) : Except ParseError Unit :=
  if g.maxDepth.toNat < r.frames.length + 1 then .error (.nestingTooDeep g.maxDepth) else .ok ()

/-- Begins an inner row. -/
def enter (r : Reading) (enclosing : Enclosing) : Reading :=
  { items := [], frames := ⟨enclosing, r.items⟩ :: r.frames, callee := none }

/-- The tree of a row that has ended: a group has one child, a call one for each argument, and
none if nothing stands between its delimiters. -/
def close (g : Grammar) (enclosing : Enclosing) (items : List Item) :
    Except ParseError Measured :=
  match enclosing with
  | .group opener => do
    let inner ← g.buildExpression items
    g.wrap opener.text .opening [inner]
  | .call function _ =>
    if items.isEmpty then g.wrap function.text .function []
    else do
      let content ← g.buildExpression items
      g.wrap function.text .function (content.arguments g.argumentSeparator)

/-- Reads one token. -/
def step (g : Grammar) (r : Reading) (token : Token) : Except ParseError Reading :=
  match r.callee with
  | some function =>
    if token.kind = .opening ∧ token.text = g.argumentOpener then
      .ok (r.enter (.call function token))
    else .error (.unrecognized function.text function.position)
  | none =>
    match token.kind with
    | .number | .identifier => .ok (r.push (.operand (.leaf token.text token.kind)))
    | .opening => do
      r.checkDepth g
      return r.enter (.group token)
    | .function => do
      r.checkDepth g
      return { r with callee := some token }
    | .closing =>
      match r.frames with
      | frame :: frames =>
        if g.closes frame.enclosing.opener.text token.text then do
          let inner ← close g frame.enclosing r.items.reverse
          return { items := .operand inner :: frame.before, frames := frames, callee := none }
        else .error (.unmatchedClose token.text token.position)
      | [] => .error (.unmatchedClose token.text token.position)
    | .preUnary | .postUnary | .binary | .multary => .ok (r.push (.operator token))
    | .top => .error (.unrecognized token.text token.position)

/-- The tree of the outermost row, unless a row inside it has not ended. -/
def finish (g : Grammar) (r : Reading) : Except ParseError Measured :=
  match r.callee, r.frames with
  | some function, _ => .error (.unrecognized function.text function.position)
  | none, frame :: _ =>
    let opener := frame.enclosing.opener
    .error (.unterminated opener.text (g.closerOf opener.text) opener.position)
  | none, [] => g.buildExpression r.items.reverse

end Reading

namespace TokenTree

/-- The tree of a sequence of tokens. -/
def ofTokens (g : Grammar) (tokens : List Token) : Except ParseError TokenTree := do
  let r ← tokens.foldlM (Reading.step g) {}
  let expression ← r.finish g
  return .top expression.tree

/-- The tree of a text. -/
def ofText (g : Grammar) (input : String) : Except ParseError TokenTree := do
  let tokens ← tokenize g input
  ofTokens g tokens

end TokenTree

end OperatorGrammar
