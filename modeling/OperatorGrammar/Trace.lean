import OperatorGrammar.Term.Evaluation

/-! # All stages of one text

A trace keeps what each stage of an evaluation gave, up to the first one that failed. -/

namespace OperatorGrammar

/-- The tokens, the tree and the term of a text, as far as it has them, and its value. -/
structure Trace where
  tokens : Option (List Token) := none
  tree : Option TokenTree := none
  term : Option Term := none
  result : Except Error Value

namespace Trace

/-- What the stages make of a text. -/
def ofText (g : Grammar) (b : Bindings) (input : String) : Trace :=
  match tokenize g input with
  | .error e => { result := .error (.parse e) }
  | .ok tokens =>
    match TokenTree.ofTokens g tokens with
    | .error e => { tokens := some tokens, result := .error (.parse e) }
    | .ok tree =>
      match Term.ofTree g tree with
      | .error e => { tokens := some tokens, tree := some tree, result := .error (.parse e) }
      | .ok term =>
        { tokens := some tokens
          tree := some tree
          term := some term
          result := (term.evaluate b).mapError .evaluation }

end Trace

end OperatorGrammar
