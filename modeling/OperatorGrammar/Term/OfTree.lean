import OperatorGrammar.Number.Literal
import OperatorGrammar.Term
import OperatorGrammar.TokenTree.OfTokens

/-! # From token trees to terms

Binding gives every node of a token tree its meaning: numbers and constants their value, other
names a kind, operators, functions and enclosures their callable, whose arity has to fit.  The root
and plain groups have no node of their own in the term.  Trees of any shape are bound, also those
that no text has. -/

namespace OperatorGrammar

namespace Grammar

variable (g : Grammar)

/-- The constant of that name, or a variable. -/
def bindIdentifier (name : String) : Except ParseError Term :=
  match g.constants.get? name with
  | some value => .ok (.constant name value)
  | none =>
    match g.variableKind name with
    | some kind => .ok (.free name kind)
    | none => .error (.unknownIdentifier name)

/-- What an operator does in a role. -/
def callableOf (role : Role) (symbol : String) : Except ParseError Callable :=
  match g.operator role symbol with
  | some callable => .ok callable
  | none => .error (.unknownOperator symbol)

/-- What a function does. -/
def callableOfFunction (name : String) : Except ParseError Callable :=
  match g.functions.get? name with
  | some callable => .ok callable
  | none => .error (.unknownIdentifier name)

/-- What the operator or the function at a node does. -/
def callableAt (kind : TokenKind) (name : String) : Except ParseError Callable :=
  match kind with
  | .preUnary => g.callableOf .preUnary name
  | .postUnary => g.callableOf .postUnary name
  | .function => g.callableOfFunction name
  | _ => g.callableOf .nary name

/-- Whether a node is a separator between arguments. -/
def isSeparator (name : String) (kind : TokenKind) : Bool :=
  kind.isInfix && name == g.argumentSeparator

end Grammar

/-- Refuses a number of arguments that the callable does not take. -/
def Callable.checkArity (callable : Callable) (label : String) (count : Nat) :
    Except ParseError Unit :=
  if callable.arity.admits count then .ok ()
  else .error (.arityMismatch label callable.arity count)

namespace Term

/-- The constant that a literal denotes. -/
def ofLiteral (text : String) : Except ParseError Term :=
  match Double.readLiteral? text with
  | some x => .ok (.constant text (.number x))
  | none => .error (.malformedTree text)

mutual

/-- The term of a tree.  A call is refused for its arity before its arguments are bound. -/
def bind (g : Grammar) : TokenTree → Except ParseError Term
  | .node name kind children =>
    match kind with
    | .top =>
      match children with
      | [child] => bind g child
      | [] => .error .emptyExpression
      | _ :: _ :: _ => .error (.malformedTree name)
    | .opening =>
      match children with
      | [] => .error .emptyExpression
      | _ :: _ :: _ => .error (.malformedTree name)
      | [.node name' kind' children'] =>
        match g.enclosures.get? name with
        | none => bind g (.node name' kind' children')
        | some callable =>
          if g.isSeparator name' kind' then do
            callable.checkArity name children'.length
            let arguments ← bindAll g children'
            return call name callable arguments
          else do
            callable.checkArity name 1
            let argument ← bind g (.node name' kind' children')
            return call name callable [argument]
    | .number => if children.isEmpty then ofLiteral name else .error (.malformedTree name)
    | .identifier =>
      if children.isEmpty then g.bindIdentifier name else .error (.malformedTree name)
    | .preUnary | .postUnary | .binary | .multary | .function => do
      let callable ← g.callableAt kind name
      callable.checkArity name children.length
      let arguments ← bindAll g children
      return call name callable arguments
    | .closing => .error (.malformedTree name)

def bindAll (g : Grammar) : List TokenTree → Except ParseError (List Term)
  | [] => .ok []
  | t :: ts => do
    let term ← bind g t
    let terms ← bindAll g ts
    return term :: terms

end

/-- The term of a tree that is at most one level deeper than an expression may be, for its root
adds a level.  The bound is a 64-bit word like the limit, and is zero behind the largest one. -/
def ofTree (g : Grammar) (tree : TokenTree) : Except ParseError Term :=
  if (g.maxDepth + 1).toNat < tree.depth then .error (.nestingTooDeep g.maxDepth)
  else bind g tree

/-- The term of a text. -/
def ofText (g : Grammar) (input : String) : Except ParseError Term := do
  let tree ← TokenTree.ofText g input
  ofTree g tree

end Term

end OperatorGrammar
