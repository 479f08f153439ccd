import OperatorGrammar.Callable
import OperatorGrammar.Table
import OperatorGrammar.Text.Lowercase
import OperatorGrammar.Text.Symbol

/-! # Grammars

A grammar describes a language of expressions: its delimiters, its operators with their roles and
their order, the names it knows, and a few switches.  Names and symbols stand in it in their
canonical case. -/

namespace OperatorGrammar

/-- A pair of delimiters. -/
structure Parenthetical where
  opener : String
  closer : String
deriving DecidableEq, Repr

/-- Where an operator stands: before its operand, behind it, or between operands. -/
inductive Role where
  | preUnary
  | postUnary
  | nary
deriving DecidableEq, Repr

/-- The tables of a language. -/
structure Grammar where
  caseSensitive : Bool
  /-- The delimiters, in the order in which they were declared. -/
  parentheticals : List Parenthetical
  /-- The delimiter behind the name of a function. -/
  argumentOpener : String
  /-- The operator between the arguments of a function. -/
  argumentSeparator : String
  /-- The operator between two operands that have none between them. -/
  implicitOperator : Option String
  constants : Table Value
  preUnary : Table Callable
  postUnary : Table Callable
  nary : Table Callable
  /-- The operators whose repeated uses are one node with many children. -/
  multary : List String
  /-- The operators that group from the right. -/
  rightAssociative : List String
  /-- The operators between operands, from the loosest to the tightest. -/
  order : List String
  /-- The place that an operator has among them. -/
  levels : Table Nat
  /-- At its place stands the operator. -/
  levels_sound : ∀ symbol level, levels.get? symbol = some level → order[level]? = some symbol
  functions : Table Callable
  /-- What is done with the content of a pair of delimiters, by its opener. -/
  enclosures : Table Callable
  variableKinds : Table Kind
  /-- The kind of the variables that are not declared. -/
  defaultKind : Kind
  /-- Whether a name that is not declared is a variable. -/
  freeVariables : Bool
  /-- How deep an expression may be nested, as a 64-bit word. -/
  maxDepth : UInt64
  /-- Every operator symbol, the longest first. -/
  operatorSymbols : List String

/-- The form in which a name is looked up: itself, or its lowercase where case does not count. -/
def canonicalName (caseSensitive : Bool) (name : String) : String :=
  if caseSensitive then name else lowercase name

namespace Grammar

variable (g : Grammar)

/-- The form in which the grammar looks a name up. -/
def canonical (name : String) : String := canonicalName g.caseSensitive name

/-- Whether a text begins with a symbol.  Where case does not count, that of ASCII letters is
ignored. -/
def startsWith (text : List Char) (symbol : String) : Bool :=
  beginsWith g.caseSensitive text symbol.toList

def operator (role : Role) (symbol : String) : Option Callable :=
  match role with
  | .preUnary => g.preUnary.get? symbol
  | .postUnary => g.postUnary.get? symbol
  | .nary => g.nary.get? symbol

/-- Whether repeated uses of a symbol are one node. -/
def isMultary (symbol : String) : Bool := g.multary.contains symbol

/-- Whether a symbol groups from the right. -/
def isRightAssociative (symbol : String) : Bool := g.rightAssociative.contains symbol

/-- The place of a symbol in the order of operations; the loosest has place zero. -/
def precedence (symbol : String) : Option Nat := g.levels.get? symbol

/-- The kind of a variable: the declared one, or the default where undeclared names are allowed. -/
def variableKind (name : String) : Option Kind :=
  match g.variableKinds.get? name with
  | some kind => some kind
  | none => if g.freeVariables then some g.defaultKind else none

/-- Whether two delimiters belong to one pair. -/
def closes (opener closer : String) : Bool :=
  g.parentheticals.any fun pair => pair.opener == opener && pair.closer == closer

/-- The closer of the first pair with an opener; nothing if there is no such pair. -/
def closerOf (opener : String) : String :=
  ((g.parentheticals.find? (·.opener == opener)).map Parenthetical.closer).getD ""

end Grammar

/-! ### The order in which operator symbols are tried -/

/-- Whether a symbol is tried before another: the longer one first, and of two equally long ones
the alphabetically smaller. -/
def triedBefore (s t : String) : Bool :=
  symbolLength t < symbolLength s || (symbolLength s == symbolLength t && decide (s < t))

/-- Puts a symbol into its place in a sorted list, unless it is there. -/
def insertSymbol (s : String) : List String → List String
  | [] => [s]
  | t :: rest =>
    if s = t then t :: rest
    else if triedBefore s t then s :: t :: rest
    else t :: insertSymbol s rest

/-- Some symbols without repetition, in the order in which they are tried. -/
def sortSymbols (symbols : List String) : List String := symbols.foldr insertSymbol []

end OperatorGrammar
