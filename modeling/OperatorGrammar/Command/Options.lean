import OperatorGrammar.Grammar.Bundled
import OperatorGrammar.Text.Symbol

/-! # Options of the command line

What a run is asked for: a grammar, what is to be shown of the stages, values for variables and the
source. -/

namespace OperatorGrammar

/-- The bundled grammars. -/
inductive Language where
  | real
  | boolean
  | test
deriving DecidableEq, Repr

/-- The grammar of a language. -/
def Language.grammar : Language → Grammar
  | .real => .real
  | .boolean => .boolean
  | .test => .test

namespace Command

/-- What is to be done. -/
structure Options where
  language : Language := .real
  showTokens : Bool := false
  showTree : Bool := false
  showTerm : Bool := false
  /-- Variables with the texts of their values, in the order in which they are bound. -/
  bindings : List (String × String) := []
  /-- Whether the source is the name of a file that holds the text. -/
  fromFile : Bool := false
  source : String
deriving DecidableEq, Repr

/-- A variable and the text of its value, on either side of the first equals sign; the blanks
around the name do not count, and there has to be a name. -/
def binding? (word : String) : Option (String × String) :=
  let cs := word.toList
  match cs.dropWhile (· != '=') with
  | [] => none
  | _ :: value =>
    let name := trimBlanks (String.ofList (cs.takeWhile (· != '=')))
    if name = "" then none else some (name, String.ofList value)

end Command

end OperatorGrammar
