import OperatorGrammar.Grammar

/-! # Declarations

A grammar is declared clause by clause.  A `Declaration` keeps what the clauses said, in their
order and in the spelling in which they said it, so that whether case counts may be settled by any
of them; `Declaration.assemble` folds the case of all names and makes the tables, in which the last
entry for a name counts. -/

namespace OperatorGrammar

/-- The nesting that is allowed where no clause says otherwise. -/
def defaultMaxDepth : UInt64 := 256

/-- One statement about a grammar. -/
inductive Clause where
  | caseSensitive (yes : Bool)
  | parenthetical (opener closer : String)
  | argumentList (opener separator : String)
  | implicitOperator (symbol : String)
  | constant (name : String) (value : Value)
  | preUnary (symbol : String) (callable : Callable)
  | postUnary (symbol : String) (callable : Callable)
  | binary (symbol : String) (callable : Callable)
  | multary (symbol : String) (callable : Callable)
  | rightAssociative (symbol : String)
  | order (symbols : List String)
  | function (name : String) (callable : Callable)
  | enclosure (opener : String) (callable : Callable)
  | variableKind (name : String) (kind : Kind)
  | defaultKind (kind : Kind)
  | freeVariables (yes : Bool)
  | maxDepth (limit : UInt64)

/-- What the clauses of a grammar have said. -/
structure Declaration where
  caseSensitive : Bool := true
  parentheticals : List Parenthetical := []
  argumentOpener : String := "("
  argumentSeparator : String := ","
  implicitOperator : Option String := none
  constants : List (String × Value) := []
  preUnary : List (String × Callable) := []
  postUnary : List (String × Callable) := []
  /-- The operators between operands, binary and multary ones as they came. -/
  nary : List (String × Callable) := []
  /-- Those of them that are multary. -/
  multary : List (String × Callable) := []
  /-- Every multary operator stands between operands. -/
  multary_subset : ∀ entry ∈ multary, entry ∈ nary := by simp
  rightAssociative : List String := []
  order : List String := []
  functions : List (String × Callable) := []
  enclosures : List (String × Callable) := []
  variableKinds : List (String × Kind) := []
  defaultKind : Kind := .any
  freeVariables : Bool := true
  maxDepth : UInt64 := defaultMaxDepth

namespace Declaration

/-- The declaration without clauses. -/
def empty : Declaration := {}

instance : Inhabited Declaration := ⟨empty⟩

/-- A declaration with one more clause.  Clauses about names add to those before them; a setting
replaces the one before it. -/
def add (d : Declaration) : Clause → Declaration
  | .caseSensitive yes => { d with caseSensitive := yes }
  | .parenthetical opener closer =>
    { d with parentheticals := d.parentheticals ++ [⟨opener, closer⟩] }
  | .argumentList opener separator =>
    { d with argumentOpener := opener, argumentSeparator := separator }
  | .implicitOperator symbol => { d with implicitOperator := some symbol }
  | .constant name value => { d with constants := d.constants ++ [(name, value)] }
  | .preUnary symbol callable => { d with preUnary := d.preUnary ++ [(symbol, callable)] }
  | .postUnary symbol callable => { d with postUnary := d.postUnary ++ [(symbol, callable)] }
  | .binary symbol callable =>
    { d with
      nary := d.nary ++ [(symbol, callable)]
      multary_subset := fun entry h => List.mem_append_left _ (d.multary_subset entry h) }
  | .multary symbol callable =>
    { d with
      nary := d.nary ++ [(symbol, callable)]
      multary := d.multary ++ [(symbol, callable)]
      multary_subset := fun entry h => List.mem_append.mpr
        ((List.mem_append.mp h).imp_left (d.multary_subset entry)) }
  | .rightAssociative symbol => { d with rightAssociative := d.rightAssociative ++ [symbol] }
  | .order symbols => { d with order := symbols }
  | .function name callable => { d with functions := d.functions ++ [(name, callable)] }
  | .enclosure opener callable => { d with enclosures := d.enclosures ++ [(opener, callable)] }
  | .variableKind name kind => { d with variableKinds := d.variableKinds ++ [(name, kind)] }
  | .defaultKind kind => { d with defaultKind := kind }
  | .freeVariables yes => { d with freeVariables := yes }
  | .maxDepth limit => { d with maxDepth := limit }

/-- A declaration with some more clauses. -/
def addAll (d : Declaration) (clauses : List Clause) : Declaration := clauses.foldl add d

/-- The declaration that some clauses make. -/
def ofClauses (clauses : List Clause) : Declaration := empty.addAll clauses

/-- A name in the case of the grammar. -/
def fold (d : Declaration) (name : String) : String := canonicalName d.caseSensitive name

/-- Entries with their names in the case of the grammar. -/
def foldEntries {α : Type} (d : Declaration) (entries : List (String × α)) : List (String × α) :=
  entries.map fun (name, value) => (d.fold name, value)

/-- The table of some entries, of which the last one for a folded name counts. -/
def table {α : Type} (d : Declaration) (entries : List (String × α)) : Table α :=
  Table.ofList (d.foldEntries entries)

/-- The operators between operands: the table of all of them, with that of the multary ones put over
it. -/
def naryTable (d : Declaration) : Table Callable := (d.table d.nary).extend (d.table d.multary)

/-- The tables of a declaration, whether or not it is consistent. -/
def assemble (d : Declaration) : Grammar where
  caseSensitive := d.caseSensitive
  parentheticals := d.parentheticals.map fun p => ⟨d.fold p.opener, d.fold p.closer⟩
  argumentOpener := d.fold d.argumentOpener
  argumentSeparator := d.fold d.argumentSeparator
  implicitOperator := d.implicitOperator.map d.fold
  constants := d.table d.constants
  preUnary := d.table d.preUnary
  postUnary := d.table d.postUnary
  nary := d.naryTable
  multary := d.multary.map fun (symbol, _) => d.fold symbol
  rightAssociative := d.rightAssociative.map d.fold
  order := d.order.map d.fold
  levels := Table.ofList (d.order.map d.fold).zipIdx
  levels_sound _ _ h := List.mem_zipIdx_iff_getElem?.mp (Table.mem_of_get?_ofList h)
  functions := d.table d.functions
  enclosures := d.table d.enclosures
  variableKinds := d.table d.variableKinds
  defaultKind := d.defaultKind
  freeVariables := d.freeVariables
  maxDepth := d.maxDepth
  operatorSymbols :=
    sortSymbols ((d.table d.preUnary).keys ++ (d.table d.postUnary).keys ++ d.naryTable.keys)

end Declaration

end OperatorGrammar
