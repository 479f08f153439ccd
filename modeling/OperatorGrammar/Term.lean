import OperatorGrammar.Callable
import OperatorGrammar.Text.Bracketed

/-! # Terms

A term is an expression with its meaning: every operator and function stands with the callable that
carries it out.  A term is never changed and can be evaluated any number of times. -/

namespace OperatorGrammar

/-- A constant, a variable, a call with one argument for each child, or a call with all children in
one list. -/
inductive Term where
  | constant (label : String) (value : Value)
  | free (name : String) (kind : Kind)
  | method (label : String) (callable : Callable) (arguments : List Term)
  | vararg (label : String) (callable : Callable) (arguments : List Term)
deriving Inhabited

namespace Term

/-- The name that a node shows. -/
def label : Term → String
  | .constant label _ => label
  | .free name _ => name
  | .method label _ _ => label
  | .vararg label _ _ => label

def children : Term → List Term
  | .constant _ _ => []
  | .free _ _ => []
  | .method _ _ arguments => arguments
  | .vararg _ _ arguments => arguments

/-- The call of a callable, in the form that its arity asks for. -/
def call (label : String) (callable : Callable) (arguments : List Term) : Term :=
  if callable.isVariadic then .vararg label callable arguments
  else .method label callable arguments

mutual

def text : Term → String
  | .constant label _ => label
  | .free name _ => name
  | .method label _ arguments => bracketed label (texts arguments)
  | .vararg label _ arguments => bracketed label (texts arguments)

def texts : List Term → List String
  | [] => []
  | t :: ts => text t :: texts ts

end

theorem texts_eq_map (ts : List Term) : texts ts = ts.map text := by
  induction ts with
  | nil => rfl
  | cons t ts ih => simp [texts, ih]

/-- Puts a name into its place in an ascending list, unless it is there. -/
def insertName (name : String) : List String → List String
  | [] => [name]
  | other :: rest =>
    if name < other then name :: other :: rest
    else if name = other then other :: rest
    else other :: insertName name rest

theorem mem_insertName {name other : String} {names : List String} :
    other ∈ insertName name names ↔ other = name ∨ other ∈ names := by
  induction names with
  | nil => simp [insertName]
  | cons n rest ih =>
    unfold insertName
    split
    · simp
    · split
      · next h => subst h; simp
      · simp [ih, or_left_comm]

mutual

def size : Term → Nat
  | .constant _ _ => 1
  | .free _ _ => 1
  | .method _ _ arguments => 1 + sizes arguments
  | .vararg _ _ arguments => 1 + sizes arguments

def sizes : List Term → Nat
  | [] => 0
  | t :: ts => size t + sizes ts

end

theorem sizes_append (ts us : List Term) : sizes (ts ++ us) = sizes ts + sizes us := by
  induction ts with
  | nil => simp [sizes]
  | cons t ts ih => simp [sizes, ih, Nat.add_assoc]

theorem sizes_reverse (ts : List Term) : sizes ts.reverse = sizes ts := by
  induction ts with
  | nil => rfl
  | cons t ts ih => simp [sizes, sizes_append, ih, Nat.add_comm]

theorem size_eq (t : Term) : t.size = 1 + sizes t.children := by
  cases t <;> simp [size, sizes, children]

/-- The names of variables with that of a node, if it is a variable. -/
def addName (names : List String) : Term → List String
  | .free name _ => insertName name names
  | _ => names

/-- The names of the variables at and below some nodes, added to some names.  The node that was put
down last is looked at next. -/
def collectNames (names : List String) : List Term → List String
  | [] => names
  | t :: work => collectNames (addName names t) (t.children.reverse ++ work)
termination_by work => sizes work
decreasing_by
  rw [sizes_append, sizes_reverse, sizes, size_eq t]
  omega

/-- The names of the variables of a term in ascending order, each one once. -/
def variableNames (t : Term) : List String := collectNames [] [t]

mutual

/-- Equality of terms; callables are compared by name and arity. -/
def beq : Term → Term → Bool
  | .constant label value, .constant label' value' => label == label' && value == value'
  | .free name kind, .free name' kind' => name == name' && kind == kind'
  | .method label callable arguments, .method label' callable' arguments' =>
    label == label' && callable == callable' && beqList arguments arguments'
  | .vararg label callable arguments, .vararg label' callable' arguments' =>
    label == label' && callable == callable' && beqList arguments arguments'
  | _, _ => false

def beqList : List Term → List Term → Bool
  | [], [] => true
  | t :: ts, u :: us => beq t u && beqList ts us
  | _, _ => false

end

instance : BEq Term := ⟨beq⟩

end Term

end OperatorGrammar
