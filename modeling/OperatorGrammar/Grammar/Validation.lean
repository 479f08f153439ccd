import OperatorGrammar.Grammar.Declaration

/-! # Consistency of declarations

`Declaration.fault?` looks for the first thing that is wrong with a declaration, and
`Declaration.build` gives the grammar of one with which nothing is. -/

namespace OperatorGrammar

/-- The parts of a declaration that hold names. -/
inductive NameTable where
  | parentheticals
  | preUnary
  | postUnary
  | nary
  | functions
  | enclosures
  | constants
  | variableKinds
deriving DecidableEq, Repr

def NameTable.text : NameTable → String
  | .parentheticals => "parentheticals"
  | .preUnary => "pre-unary operators"
  | .postUnary => "post-unary operators"
  | .nary => "n-ary operators"
  | .functions => "functions"
  | .enclosures => "enclosures"
  | .constants => "constants"
  | .variableKinds => "variables"

/-- What can be wrong with a declaration. -/
inductive GrammarError where
  | emptySymbol (part : NameTable)
  | unknownArgumentOpener (opener : String)
  | unknownArgumentSeparator (symbol : String)
  | unknownImplicitOperator (symbol : String)
  | unknownEnclosure (opener : String)
  | duplicatePrecedence (symbol : String)
  | associativityConflict (symbol : String)
  | zeroDepth
deriving DecidableEq, Repr

def GrammarError.message : GrammarError → String
  | .emptySymbol part => "Grammar entries must not be empty (" ++ part.text ++ ")."
  | .unknownArgumentOpener opener =>
    "Argument list opener '" ++ opener ++ "' is not a registered parenthetical."
  | .unknownArgumentSeparator symbol =>
    "Argument list separator '" ++ symbol ++ "' is not a registered n-ary operator."
  | .unknownImplicitOperator symbol =>
    "Implicit operator '" ++ symbol ++ "' is not a registered n-ary operator."
  | .unknownEnclosure opener =>
    "Enclosure '" ++ opener ++ "' is not a registered parenthetical opener."
  | .duplicatePrecedence symbol =>
    "Operator '" ++ symbol ++ "' appears more than once in the order of operations."
  | .associativityConflict symbol =>
    "Operator '" ++ symbol ++ "' cannot be both multary and right-associative."
  | .zeroDepth => "Maximum depth must be at least 1."

/-- The first element that has occurred before, among those seen and those that follow. -/
def firstRepeated (seen : List String) : List String → Option String
  | [] => none
  | s :: rest => if s ∈ seen then some s else firstRepeated (s :: seen) rest

namespace Declaration

variable (d : Declaration)

/-- Whether a folded name opens a declared pair. -/
def opens (opener : String) : Bool := d.parentheticals.any fun p => d.fold p.opener == opener

def isNary (symbol : String) : Bool := d.nary.any fun (s, _) => d.fold s == symbol

/-- A depth limit of zero admits no expression. -/
def depthFault? : Option GrammarError := if d.maxDepth = 0 then some .zeroDepth else none

/-- Whether a part holds an empty name. -/
def holdsEmpty : NameTable → Bool
  | .parentheticals => d.parentheticals.any fun p => p.opener == "" || p.closer == ""
  | .preUnary => d.preUnary.any (·.1 == "")
  | .postUnary => d.postUnary.any (·.1 == "")
  | .nary => d.nary.any (·.1 == "")
  | .functions => d.functions.any (·.1 == "")
  | .enclosures => d.enclosures.any (·.1 == "")
  | .constants => d.constants.any (·.1 == "")
  | .variableKinds => d.variableKinds.any (·.1 == "")

/-- The parts in the order in which they are searched for empty names. -/
def searchOrder : List NameTable :=
  [.parentheticals, .preUnary, .postUnary, .nary, .functions, .enclosures, .constants,
    .variableKinds]

/-- An empty name would match everywhere. -/
def emptyNameFault? : Option GrammarError :=
  (searchOrder.find? fun part => d.holdsEmpty part).map .emptySymbol

/-- A multary operator gathers its operands and cannot group them from the right. -/
def associativityFault? : Option GrammarError :=
  ((d.rightAssociative.map d.fold).find? fun s => d.multary.any fun (m, _) => d.fold m == s).map
    .associativityConflict

/-- An operator has one place in the order of operations. -/
def precedenceFault? : Option GrammarError :=
  (firstRepeated [] (d.order.map d.fold)).map .duplicatePrecedence

/-- An argument list begins with an opener. -/
def argumentOpenerFault? : Option GrammarError :=
  let opener := d.fold d.argumentOpener
  if d.opens opener then none else some (.unknownArgumentOpener opener)

/-- Arguments are separated by an operator. -/
def argumentSeparatorFault? : Option GrammarError :=
  let symbol := d.fold d.argumentSeparator
  if d.isNary symbol then none else some (.unknownArgumentSeparator symbol)

/-- What stands between operands unwritten is an operator. -/
def implicitOperatorFault? : Option GrammarError :=
  ((d.implicitOperator.map d.fold).filter fun s => !d.isNary s).map .unknownImplicitOperator

/-- An enclosure belongs to an opener. -/
def enclosureFault? : Option GrammarError :=
  ((d.enclosures.map fun (opener, _) => d.fold opener).find? fun o => !d.opens o).map
    .unknownEnclosure

/-- The first fault of a declaration, in the order of the checks. -/
def fault? : Option GrammarError :=
  d.depthFault? <|> d.emptyNameFault? <|> d.associativityFault? <|> d.precedenceFault? <|>
    d.argumentOpenerFault? <|> d.argumentSeparatorFault? <|> d.implicitOperatorFault? <|>
    d.enclosureFault?

/-- The grammar of a declaration without faults. -/
def build : Except GrammarError Grammar :=
  match d.fault? with
  | some fault => .error fault
  | none => .ok d.assemble

end Declaration

end OperatorGrammar
