import OperatorGrammar.Proofs.Signature
import OperatorGrammar.Proofs.Value

/-! # Aggregates see one sequence of values

Sums, products, means and extremes take any number of arguments, and of an argument that is a list
its elements.  `Cut arguments vs` says that the arguments are the values `vs` in their order, some
of them together in lists, of which any may be empty.  However values that are no lists are cut, the
aggregates read the same numbers (`Cut.numbers_eq`), unless there is a first value that is no number
(`exists_first_not_number`).  So an aggregate gives what it gives for the values themselves
(`Aggregate.call_of_cut`). -/

namespace OperatorGrammar

variable {arguments vs : List Value}

/-! ### Values as arguments -/

/-- How values are cut into arguments: each argument is the next value, or a list of the next
few. -/
inductive Cut : (arguments vs : List Value) → Prop
  | nil : Cut [] []
  | single {arguments vs : List Value} (v : Value) : Cut arguments vs →
      Cut (v :: arguments) (v :: vs)
  | list {arguments vs : List Value} (part : List Value) : Cut arguments vs →
      Cut (.list part :: arguments) (part ++ vs)

theorem Value.elements_of_isScalar {v : Value} (h : v.isScalar = true) : v.elements = [v] := by
  cases v with
  | number x => rfl
  | bool p => rfl
  | list part => cases h

/-- Looking into the lists undoes the cuts. -/
theorem Cut.flatMap_elements (cut : Cut arguments vs) (scalar : ∀ v ∈ vs, v.isScalar = true) :
    arguments.flatMap Value.elements = vs := by
  induction cut with
  | nil => rfl
  | single v _ ih =>
      rw [List.forall_mem_cons] at scalar
      rw [List.flatMap_cons, Value.elements_of_isScalar scalar.1, ih scalar.2]
      rfl
  | list part _ ih =>
      rw [List.forall_mem_append] at scalar
      rw [List.flatMap_cons, ih scalar.2]
      rfl

theorem Cut.numbers_eq (cut : Cut arguments vs) (scalar : ∀ v ∈ vs, v.isScalar = true) :
    Operation.numbers arguments = vs.mapM Value.asNumber := by
  rw [Operation.numbers, cut.flatMap_elements scalar]

theorem Cut.refl (vs : List Value) : Cut vs vs := by
  induction vs with
  | nil => exact Cut.nil
  | cons v vs ih => exact ih.single v

/-! ### The first value that is no number -/

/-- A value that is no number is refused for its kind. -/
theorem Value.asNumber_eq_error {v : Value} (h : v.kind ≠ .number) :
    v.asNumber = .error (.expectedNumber v.kind) := by
  cases v with
  | number x => exact absurd rfl h
  | bool p => rfl
  | list part => rfl

theorem mapM_asNumber_eq_error (xs : List Float) {v : Value} (h : v.kind ≠ .number)
    (later : List Value) :
    (xs.map Value.number ++ v :: later).mapM Value.asNumber = .error (.expectedNumber v.kind) := by
  induction xs with
  | nil =>
      rw [List.map_nil, List.nil_append, List.mapM_cons, Value.asNumber_eq_error h]
      rfl
  | cons x xs ih =>
      rw [List.map_cons, List.cons_append, List.mapM_cons, ih]
      rfl

/-- Values are all numbers, or there is a first one that is none. -/
theorem exists_first_not_number (vs : List Value) :
    (∃ xs : List Float, vs = xs.map .number) ∨
      ∃ (xs : List Float) (v : Value) (later : List Value),
        vs = xs.map .number ++ v :: later ∧ v.kind ≠ .number := by
  induction vs with
  | nil => exact Or.inl ⟨[], rfl⟩
  | cons v vs ih =>
      cases v with
      | number x =>
          rcases ih with ⟨xs, rfl⟩ | ⟨xs, v, later, rfl, hv⟩
          · exact Or.inl ⟨x :: xs, rfl⟩
          · exact Or.inr ⟨x :: xs, v, later, rfl, hv⟩
      | bool p => exact Or.inr ⟨[], .bool p, vs, rfl, by simp [Value.kind]⟩
      | list part => exact Or.inr ⟨[], .list part, vs, rfl, by simp [Value.kind]⟩

/-! ### Aggregates -/

/-- The callables that look into lists. -/
inductive Aggregate where
  | add
  | multiply
  | sum
  | mean
  | min
  | max
deriving DecidableEq, Repr

namespace Aggregate

def name : Aggregate → String
  | add => "add"
  | multiply => "multiply"
  | sum => "sum"
  | mean => "mean"
  | min => "min"
  | max => "max"

def callable : Aggregate → Callable
  | add => .add
  | multiply => .multiply
  | sum => ⟨"sum", .variadic Operation.add⟩
  | mean => ⟨"mean", .variadic Operation.mean⟩
  | min => ⟨"min", .variadic Operation.minimum⟩
  | max => ⟨"max", .variadic Operation.maximum⟩

/-- The operators and functions of the bundled grammars have these implementations by these
names. -/
theorem find?_name (a : Aggregate) :
    (Callable.operators ++ Callable.functions).find? (·.name == a.name) = some a.callable := by
  cases a <;> rfl

/-- What some numbers come to: without a number there are a sum and a product, but neither a mean
nor an extreme. -/
def fold? : Aggregate → List Float → Option Float
  | add, xs | sum, xs => some (Operation.total xs)
  | multiply, xs => some (xs.foldl (· * ·) 1.0)
  | mean, [] | min, [] | max, [] => none
  | mean, x :: xs => some (Operation.total (x :: xs) / Float.ofNat (x :: xs).length)
  | min, x :: xs => some (xs.foldl Double.minimum x)
  | max, x :: xs => some (xs.foldl Double.maximum x)

/-- The outcome for some numbers. -/
def ofNumbers (a : Aggregate) (xs : List Float) : Outcome :=
  match a.fold? xs with
  | some x => .ok (.number x)
  | none => .error (.invalidArgument (.noNumbers a.name))

theorem call_eq (a : Aggregate) (arguments : List Value) :
    a.callable.call arguments = Operation.numbers arguments >>= a.ofNumbers := by
  have next (f : List Float → Outcome) (h : ∀ xs, f xs = a.ofNumbers xs) :
      Operation.numbers arguments >>= f = Operation.numbers arguments >>= a.ofNumbers :=
    congrArg _ (funext h)
  cases a with
  | add | sum | multiply => rfl
  | mean | min | max =>
      refine next _ fun xs => ?_
      cases xs <;> rfl

/-- **An aggregate sees one sequence of values.**  However values that are no lists are cut into
arguments, an aggregate gives what it gives for the values themselves: if all of them are numbers,
what these come to, or that there is none; and else that the first one that is no number is none. -/
theorem call_of_cut (a : Aggregate) (cut : Cut arguments vs)
    (scalar : ∀ v ∈ vs, v.isScalar = true) :
    a.callable.call arguments = a.callable.call vs ∧
      ((∃ xs : List Float, vs = xs.map .number ∧ a.callable.call arguments = a.ofNumbers xs) ∨
        ∃ (xs : List Float) (v : Value) (later : List Value),
          vs = xs.map .number ++ v :: later ∧ v.kind ≠ .number ∧
            a.callable.call arguments = .error (.expectedNumber v.kind)) := by
  rw [call_eq, call_eq, cut.numbers_eq scalar, (Cut.refl vs).numbers_eq scalar]
  refine ⟨rfl, ?_⟩
  rcases exists_first_not_number vs with ⟨xs, rfl⟩ | ⟨xs, v, later, rfl, hv⟩
  · refine Or.inl ⟨xs, rfl, ?_⟩
    rw [← (Cut.refl _).numbers_eq scalar, numbers_map]
    rfl
  · refine Or.inr ⟨xs, v, later, rfl, hv, ?_⟩
    rw [mapM_asNumber_eq_error xs hv later]
    rfl

/-- A mean over a list, an empty list and a number, and a minimum that meets a truth value inside a
list. -/
theorem call_of_cut_sample :
    Cut [.list [.number 1.0, .number 2.0], .list [], .number 6.0]
        [.number 1.0, .number 2.0, .number 6.0] ∧
      (∀ v ∈ [Value.number 1.0, .number 2.0, .number 6.0], v.isScalar = true) ∧
      mean.callable.call [.list [.number 1.0, .number 2.0], .list [], .number 6.0] =
        .ok (.number (Operation.total [1.0, 2.0, 6.0] / Float.ofNat 3)) ∧
      min.callable.call [.number 1.0, .list [.number 2.0, .bool true], .bool false] =
        .error (.expectedNumber .bool) := by
  have cut : Cut [.list [.number 1.0, .number 2.0], .list [], .number 6.0]
      [.number 1.0, .number 2.0, .number 6.0] := .list [_, _] (.list [] (.single _ .nil))
  have scalar : ∀ v ∈ [Value.number 1.0, .number 2.0, .number 6.0], v.isScalar = true := by
    simp [Value.isScalar]
  have mixed : Cut [.number 1.0, .list [.number 2.0, .bool true], .bool false]
      [.number 1.0, .number 2.0, .bool true, .bool false] :=
    .single _ (.list [_, _] (.single _ .nil))
  refine ⟨cut, scalar, (call_of_cut mean cut scalar).1.trans rfl, ?_⟩
  exact (call_of_cut min mixed (by simp [Value.isScalar])).1.trans rfl

end Aggregate

end OperatorGrammar
