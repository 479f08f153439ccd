import OperatorGrammar.Token
import Mathlib.Algebra.BigOperators.Group.List.Basic
import Mathlib.Algebra.Order.Ring.Rat
import Mathlib.Tactic.Ring

/-! # Arithmetic from left to right

The conventional reading of an arithmetic expression is that of a calculator which takes the tokens
from left to right and works with exact numbers.  On each level of groups it adds up terms: `+` and
`-` end a term and begin the next one, `*` and `/` multiply and divide the term so far by the next
number, and signs before a number or a group apply to it alone.  The only operation without a value
is a division by zero.

The laws at the end are those of arithmetic that the calculator owes to its order of operations:
multiplying or dividing a number before or after it has been put into a level makes no difference
(`put_put`), and a sum of terms can be added up apart from what precedes it (`operate_add`). -/

namespace OperatorGrammar

/-- Two numbers under an infix operator; nothing if that divides by zero. -/
def operate (symbol : String) (x y : ℚ) : Option ℚ :=
  match symbol with
  | "+" => some (x + y)
  | "-" => some (x - y)
  | "*" => some (x * y)
  | "/" => if y = 0 then none else some (x / y)
  | _ => some 0

/-- A number behind a sign. -/
def signed (symbol : String) (x : ℚ) : ℚ := if symbol = "-" then -x else x

/-- What a calculator knows of the numbers and operators on one level of groups. -/
structure Level where
  /-- The sum of the terms that have ended. -/
  sum : ℚ := 0
  /-- The term that has not ended, so far. -/
  term : ℚ := 0
  /-- The operator before the next number. -/
  operator : String := "+"
  /-- Whether the signs before the next number change it. -/
  negative : Bool := false

namespace Level

def total (l : Level) : ℚ := l.sum + l.term

/-- Takes a number.  It is multiplied or divided into the term, or it begins a new one. -/
def put (l : Level) (x : ℚ) : Option Level :=
  let y := if l.negative then -x else x
  match l.operator with
  | "*" => some { sum := l.sum, term := l.term * y }
  | "/" => (operate "/" l.term y).map fun quotient => { sum := l.sum, term := quotient }
  | "-" => some { sum := l.total, term := -y }
  | _ => some { sum := l.total, term := y }

/-- Takes an infix operator. -/
def await (l : Level) (symbol : String) : Level := { l with operator := symbol, negative := false }

def sign (l : Level) (symbol : String) : Level :=
  { l with negative := if symbol = "-" then !l.negative else l.negative }

/-- Takes a sign or an infix operator. -/
def press (l : Level) (token : Token) : Level :=
  if token.kind = .preUnary then l.sign token.text else l.await token.text

end Level

/-- A calculator: the innermost level, and those around it. -/
structure Calculator where
  level : Level := {}
  outer : List Level := []

namespace Calculator

/-- Takes one token.  A group is one number on the level around it. -/
def step (literal : String → ℚ) (c : Calculator) (token : Token) : Option Calculator :=
  match token.kind with
  | .number => (c.level.put (literal token.text)).map fun l => { c with level := l }
  | .opening => some { level := {}, outer := c.level :: c.outer }
  | .closing =>
    match c.outer with
    | [] => some c
    | l :: outer => (l.put c.level.total).map fun l => { level := l, outer := outer }
  | _ => some { c with level := c.level.press token }

end Calculator

/-- The value of some tokens, read from left to right. -/
def conventional (literal : String → ℚ) (tokens : List Token) : Option ℚ :=
  (tokens.foldlM (Calculator.step literal) {}).map fun c => c.level.total

/-! ### Laws of arithmetic -/

/-- A sum goes on from a number as it does from zero. -/
theorem operate_add {symbol : String} (h : symbol = "+" ∨ symbol = "-") (c x y : ℚ) :
    operate symbol (c + x) y = (operate symbol x y).map (c + ·) := by
  rcases h with rfl | rfl
  · exact congrArg some (add_assoc c x y)
  · exact congrArg some (add_sub_assoc c x y)

theorem foldlM_operate_plus (x : ℚ) (ys : List ℚ) :
    ys.foldlM (operate "+") x = some (x + ys.sum) := by
  induction ys generalizing x with
  | nil => simp
  | cons y ys ih =>
      rw [List.foldlM_cons, List.sum_cons, ← add_assoc]
      exact ih (x + y)

theorem foldlM_operate_times (x : ℚ) (ys : List ℚ) :
    ys.foldlM (operate "*") x = some (x * ys.prod) := by
  induction ys generalizing x with
  | nil => simp
  | cons y ys ih =>
      rw [List.foldlM_cons, List.prod_cons, ← mul_assoc]
      exact ih (x * y)

namespace Level

theorem put_sign (l : Level) (symbol : String) (x : ℚ) :
    (l.sign symbol).put x = l.put (signed symbol x) := by
  by_cases h : symbol = "-"
  · cases hn : l.negative <;> simp [put, sign, signed, total, h, hn]
  · simp [put, sign, signed, total, h]

/-- The number that begins a term, or goes into it as a factor, is multiplied by a number that does
not depend on it. -/
theorem put_eq_mul {l : Level} (h : l.operator ≠ "/") :
    ∃ sum factor : ℚ, ∀ x, l.put x = some { sum := sum, term := factor * x } := by
  -- The sign before the number goes to the factor.
  let unit : ℚ := if l.negative then -1 else 1
  have hx : ∀ x, (if l.negative then -x else x) = unit * x := by
    intro x
    by_cases hn : l.negative = true
    · simp [unit, hn]
    · simp [unit, hn]
  by_cases htimes : l.operator = "*"
  · refine ⟨l.sum, l.term * unit, fun x => ?_⟩
    simp only [put, htimes, hx, mul_assoc]
  · by_cases hminus : l.operator = "-"
    · refine ⟨l.total, -unit, fun x => ?_⟩
      simp only [put, hminus, hx, neg_mul]
    · refine ⟨l.total, unit, fun x => ?_⟩
      simp only [put, hx]

theorem put_await_times (l : Level) (x : ℚ) :
    (l.await "*").put x = some { sum := l.sum, term := l.term * x } := rfl

theorem put_await_divide (l : Level) (x : ℚ) :
    (l.await "/").put x =
      (operate "/" l.term x).map fun quotient => { sum := l.sum, term := quotient } := rfl

/-- A number is multiplied or divided before it goes into a term, or afterwards. -/
theorem put_put {l : Level} (h : l.operator ≠ "/") {symbol : String}
    (hs : symbol = "*" ∨ symbol = "/") (x y : ℚ) :
    (l.put x >>= fun l' => (l'.await symbol).put y) = operate symbol x y >>= l.put := by
  obtain ⟨sum, factor, hp⟩ := put_eq_mul h
  rw [hp, Option.bind_eq_bind, Option.bind_some]
  rcases hs with rfl | rfl
  · rw [put_await_times]
    change _ = l.put (x * y)
    rw [hp, mul_assoc]
  · rw [put_await_divide]
    by_cases hy : y = 0
    · simp [operate, hy]
    · simp only [operate, if_neg hy, Option.map_some, Option.bind_eq_bind, Option.bind_some, hp,
        mul_div_assoc]

/-- The first number of a level without terms to come is added. -/
theorem put_map_total {l : Level} (plus : l.operator = "+") (positive : l.negative = false)
    (x : ℚ) : (l.put x).map total = some (l.total + x) := by
  simp [put, plus, positive, total]

theorem put_await_minus (l : Level) (x : ℚ) :
    ((l.await "-").put x).map total = operate "-" l.total x := by
  simp [put, await, total, operate, sub_eq_add_neg]

end Level

end OperatorGrammar
