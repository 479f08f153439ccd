import OperatorGrammar.Number.Decimal

/-! # Values

What an expression is worth: a number, a truth value, or a list of values.  Equality is that of
the numbers, so a value that contains one that is not a number differs from itself. -/

namespace OperatorGrammar

/-- What kind of value is meant; `any` admits every value. -/
inductive Kind where
  | number
  | bool
  | list
  | any
deriving DecidableEq, Repr, Inhabited

def Kind.text : Kind → String
  | .number => "a number"
  | .bool => "a boolean"
  | .list => "a list"
  | .any => "any value"

/-- A number, a truth value, or a list of values. -/
inductive Value where
  | number (x : Float)
  | bool (b : Bool)
  | list (elements : List Value)
deriving Inhabited

namespace Value

def kind : Value → Kind
  | .number _ => .number
  | .bool _ => .bool
  | .list _ => .list

/-- The elements of a list; any other value stands for the list of itself alone. -/
def elements : Value → List Value
  | .list vs => vs
  | v => [v]

mutual

/-- Equality of values of one kind; values of two kinds differ. -/
def beq : Value → Value → Bool
  | .number x, .number y => x == y
  | .bool a, .bool b => a == b
  | .list vs, .list ws => beqList vs ws
  | _, _ => false

def beqList : List Value → List Value → Bool
  | [], [] => true
  | v :: vs, w :: ws => beq v w && beqList vs ws
  | _, _ => false

end

instance : BEq Value := ⟨beq⟩

mutual

def text : Value → String
  | .number x => Double.text x
  | .bool true => "true"
  | .bool false => "false"
  | .list vs => "[" ++ ", ".intercalate (texts vs) ++ "]"

def texts : List Value → List String
  | [] => []
  | v :: vs => text v :: texts vs

end

theorem texts_eq_map (vs : List Value) : texts vs = vs.map text := by
  induction vs with
  | nil => rfl
  | cons v vs ih => simp [texts, ih]

end Value

/-- Whether a value is of a kind. -/
def Kind.admits (kind : Kind) (v : Value) : Bool := kind == .any || kind == v.kind

end OperatorGrammar
