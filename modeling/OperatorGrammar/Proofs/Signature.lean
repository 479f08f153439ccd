import OperatorGrammar.Proofs.Term.Truth

/-! # Signatures of the symbols of real arithmetic

A value has one of two sorts, number or truth value, or is a list and has none.  `signature?` says
for every symbol of real arithmetic which sorts its operands may have and what comes of them; the
symbols that make lists have no signature.  A callable fits a signature if, called on as many values
of these sorts as it takes, it gives a value of the resulting sort or fails for an arithmetical
reason (`Signature.Fits`).  Every callable of real arithmetic fits the signature of its symbol
(`fitsSymbol_of_mem_callEntries`), whatever it computes. -/

namespace OperatorGrammar

/-! ### Sorts -/

/-- The sorts of expressions. -/
inductive ValueSort where
  | num
  | bool
deriving DecidableEq, Repr

/-- Whether a value is of a sort; a list is of none. -/
inductive Value.HasSort : Value → ValueSort → Prop
  | number (x : Float) : HasSort (.number x) .num
  | bool (p : Bool) : HasSort (.bool p) .bool

/-- Whether an evaluation fails because a result is not defined, and not for the kind, the number or
the want of an argument. -/
def EvaluationError.IsArithmetic : EvaluationError → Prop
  | .divisionByZero | .invalidArgument _ => True
  | _ => False

/-- Whether an outcome is a value of a sort or an arithmetical failure. -/
inductive Outcome.Sound (s : ValueSort) : Outcome → Prop
  | value {v : Value} (h : v.HasSort s) : Sound s (.ok v)
  | failure {e : EvaluationError} (h : e.IsArithmetic) : Sound s (.error e)

/-- What a symbol makes of the sorts of its operands. -/
inductive Signature where
  /-- Any number of operands of one sort. -/
  | uniform (operands result : ValueSort)
  /-- Operands of any sorts. -/
  | comparison
  /-- A condition and two operands of one sort. -/
  | choice
deriving DecidableEq, Repr

/-- The sort of the result, if the operands have sorts as the signature asks for. -/
def Signature.result? : Signature → List ValueSort → Option ValueSort
  | .uniform operands result, sorts => if ∀ s ∈ sorts, s = operands then some result else none
  | .comparison, _ => some .bool
  | .choice, [.bool, yes, no] => if yes = no then some yes else none
  | .choice, _ => none

def arithmeticSymbols : List String := ["+", "-", "*", "/", "%", "^", "!", "|"]

/-- The functions of numbers: all that are known by name but the choice. -/
def arithmeticFunctions : List String := (Callable.functions.map Callable.name).filter (· != "if")

/-- The signature of a symbol of real arithmetic.  The comma and the opening bracket, which make
lists, have none. -/
def signature? (symbol : String) : Option Signature :=
  if symbol ∈ arithmeticSymbols ∨ symbol ∈ arithmeticFunctions then some (.uniform .num .num)
  else if symbol ∈ ["<", "<=", ">", ">=", "~="] then some (.uniform .num .bool)
  else if symbol ∈ ["and", "or", "not"] then some (.uniform .bool .bool)
  else if symbol ∈ ["==", "!="] then some .comparison
  else if symbol = "if" then some .choice
  else none

/-! ### Values of one sort -/

variable {v : Value} {vs : List Value} {s operands result : ValueSort} {name : String}

theorem Value.HasSort.exists_number (h : v.HasSort .num) : ∃ x, v = .number x := by
  cases h with
  | number x => exact ⟨x, rfl⟩

theorem Value.HasSort.exists_bool (h : v.HasSort .bool) : ∃ p, v = .bool p := by
  cases h with
  | bool p => exact ⟨p, rfl⟩

theorem exists_numbers (h : ∀ v ∈ vs, v.HasSort .num) :
    ∃ xs : List Float, vs = xs.map Value.number := by
  induction vs with
  | nil => exact ⟨[], rfl⟩
  | cons v vs ih =>
      rw [List.forall_mem_cons] at h
      obtain ⟨x, rfl⟩ := h.1.exists_number
      obtain ⟨xs, rfl⟩ := ih h.2
      exact ⟨x :: xs, rfl⟩

theorem exists_bools (h : ∀ v ∈ vs, v.HasSort .bool) :
    ∃ ps : List Bool, vs = ps.map Value.bool := by
  induction vs with
  | nil => exact ⟨[], rfl⟩
  | cons v vs ih =>
      rw [List.forall_mem_cons] at h
      obtain ⟨p, rfl⟩ := h.1.exists_bool
      obtain ⟨ps, rfl⟩ := ih h.2
      exact ⟨p :: ps, rfl⟩

theorem numbers_map (xs : List Float) : Operation.numbers (xs.map .number) = .ok xs := by
  have flat : (xs.map Value.number).flatMap Value.elements = xs.map Value.number := by
    rw [List.flatMap_map, List.map_eq_flatMap]
    rfl
  unfold Operation.numbers
  rw [flat, mapM_eq_ok, List.forall₂_map_left_iff, List.forall₂_same]
  exact fun _ _ => rfl

/-! ### Callables that fit a signature -/

/-- Whether a callable gives what the signature promises for as many operands as it takes. -/
def Signature.Fits (signature : Signature) (callable : Callable) : Prop :=
  ∀ vs sorts s, List.Forall₂ Value.HasSort vs sorts → signature.result? sorts = some s →
    callable.arity.admits vs.length = true → Outcome.Sound s (callable.call vs)

theorem Signature.uniform_fits {callable : Callable}
    (h : ∀ vs, (∀ v ∈ vs, v.HasSort operands) → callable.arity.admits vs.length = true →
      Outcome.Sound result (callable.call vs)) :
    (Signature.uniform operands result).Fits callable := by
  intro vs sorts s hvs hs
  rw [result?] at hs
  split at hs
  · next uniform =>
    obtain rfl := Option.some.inj hs
    refine h vs fun v hv => ?_
    obtain ⟨sort, hsort, hv⟩ := exists_mem_of_forall₂ hvs.flip hv
    rwa [uniform sort hsort] at hv
  · cases hs

theorem fits_of_number {run : Value → Outcome}
    (h : ∀ x : Float, Outcome.Sound result (run (.number x))) :
    (Signature.uniform .num result).Fits ⟨name, .unary run⟩ := by
  refine Signature.uniform_fits fun vs hvs admits => ?_
  obtain ⟨v, rfl⟩ := List.length_eq_one_iff.mp (eq_of_beq admits)
  obtain ⟨x, rfl⟩ := (hvs v List.mem_cons_self).exists_number
  exact h x

theorem fits_of_numbers {run : Value → Value → Outcome}
    (h : ∀ x y : Float, Outcome.Sound result (run (.number x) (.number y))) :
    (Signature.uniform .num result).Fits ⟨name, .binary run⟩ := by
  refine Signature.uniform_fits fun vs hvs admits => ?_
  obtain ⟨v, w, rfl⟩ := List.length_eq_two.mp (eq_of_beq admits)
  obtain ⟨x, rfl⟩ := (hvs v (by simp)).exists_number
  obtain ⟨y, rfl⟩ := (hvs w (by simp)).exists_number
  exact h x y

/-- An operation that goes on from the numbers among its arguments. -/
theorem fits_of_allNumbers {run : List Value → Outcome} (next : List Float → Outcome)
    (hrun : ∀ vs, run vs = Operation.numbers vs >>= next)
    (h : ∀ xs, Outcome.Sound result (next xs)) :
    (Signature.uniform .num result).Fits ⟨name, .variadic run⟩ := by
  refine Signature.uniform_fits fun vs hvs _ => ?_
  obtain ⟨xs, rfl⟩ := exists_numbers hvs
  show Outcome.Sound result (run (xs.map .number))
  rw [hrun, numbers_map]
  exact h xs

theorem fits_of_someNumbers {run : List Value → Outcome} (next : List Float → Outcome)
    (hrun : ∀ vs, run vs = Operation.numbers vs >>= next) (hnil : Outcome.Sound result (next []))
    (hcons : ∀ x xs, Outcome.Sound result (next (x :: xs))) :
    (Signature.uniform .num result).Fits ⟨name, .variadic run⟩ := by
  refine fits_of_allNumbers next hrun fun xs => ?_
  cases xs with
  | nil => exact hnil
  | cons x xs => exact hcons x xs

/-! ### Arithmetic -/

open Operation

theorem sound_realResult (x y : Float) : Outcome.Sound .num (realResult name x y) := by
  unfold realResult
  split
  · exact .value (.number _)
  · exact .failure trivial

theorem fits_real (f : Float → Float) :
    (Signature.uniform .num .num).Fits (Callable.real name f) :=
  fits_of_number fun x => sound_realResult x (f x)

theorem fits_add : (Signature.uniform .num .num).Fits ⟨name, .variadic Operation.add⟩ :=
  fits_of_allNumbers _ (fun _ => rfl) fun _ => .value (.number _)

theorem fits_multiply : (Signature.uniform .num .num).Fits .multiply :=
  fits_of_allNumbers _ (fun _ => rfl) fun _ => .value (.number _)

theorem fits_mean : (Signature.uniform .num .num).Fits ⟨name, .variadic Operation.mean⟩ :=
  fits_of_someNumbers _ (fun _ => rfl) (.failure trivial) fun _ _ => .value (.number _)

theorem fits_extreme (function : String) (pick : Float → Float → Float) :
    (Signature.uniform .num .num).Fits ⟨name, .variadic (extreme function pick)⟩ :=
  fits_of_someNumbers _ (fun _ => rfl) (.failure trivial) fun _ _ => .value (.number _)

theorem sound_unlessZero (x y : Float) :
    Outcome.Sound .num (if y == 0.0 then .error .divisionByZero else .ok (.number x)) := by
  split
  · exact .failure trivial
  · exact .value (.number _)

theorem fits_divide : (Signature.uniform .num .num).Fits .divide :=
  fits_of_numbers fun x y => sound_unlessZero (x / y) y

theorem fits_remainder : (Signature.uniform .num .num).Fits .remainder :=
  fits_of_numbers fun x y => sound_unlessZero (Double.remainder x y) y

theorem fits_power : (Signature.uniform .num .num).Fits .power := by
  refine fits_of_numbers fun x y => ?_
  show Outcome.Sound .num (if x == 0.0 && y < 0.0 then .error .divisionByZero
    else if (Double.power x y).isFinite then .ok (.number (Double.power x y))
    else .error (.invalidArgument (.powerNotReal x y)))
  split
  · exact .failure trivial
  · split
    · exact .value (.number _)
    · exact .failure trivial

theorem fits_logarithm : (Signature.uniform .num .num).Fits ⟨name, .binary logarithm⟩ := by
  refine fits_of_numbers fun x y => ?_
  show Outcome.Sound .num (if y <= 0.0 then .error (.invalidArgument (.logarithmBase y))
    else if y.log == 0.0 then .error .divisionByZero else realResult "log" x (x.log / y.log))
  split
  · exact .failure trivial
  · split
    · exact .failure trivial
    · exact sound_realResult _ _

theorem fits_factorial : (Signature.uniform .num .num).Fits .factorial := by
  refine fits_of_number fun x => ?_
  show Outcome.Sound .num (Operation.factorial (.number x))
  unfold Operation.factorial
  show Outcome.Sound .num (if x < 0.0 then _ else _)
  split
  · exact .failure trivial
  · split
    · exact .value (.number _)
    · exact .failure trivial

/-! ### Truth values -/

theorem fits_order {run : Value → Value → Outcome} {compare : Float → Float → Bool}
    (h : ∀ x y, run (.number x) (.number y) = .ok (.bool (compare x y))) :
    (Signature.uniform .num .bool).Fits ⟨name, .binary run⟩ := by
  refine fits_of_numbers fun x y => ?_
  rw [h]
  exact .value (.bool _)

theorem fits_comparison (compare : Value → Value → Bool) :
    Signature.comparison.Fits ⟨name, .binary fun v w => .ok (.bool (compare v w))⟩ := by
  intro vs sorts s _ hs admits
  obtain rfl := Option.some.inj hs
  obtain ⟨v, w, rfl⟩ := List.length_eq_two.mp (eq_of_beq admits)
  exact .value (.bool _)

theorem fits_disjunction : (Signature.uniform .bool .bool).Fits .disjunction := by
  refine Signature.uniform_fits fun vs hvs _ => ?_
  obtain ⟨ps, rfl⟩ := exists_bools hvs
  rw [call_disjunction]
  exact .value (.bool _)

theorem fits_conjunction : (Signature.uniform .bool .bool).Fits .conjunction := by
  refine Signature.uniform_fits fun vs hvs _ => ?_
  obtain ⟨ps, rfl⟩ := exists_bools hvs
  rw [call_conjunction]
  exact .value (.bool _)

theorem fits_negation : (Signature.uniform .bool .bool).Fits .negation := by
  refine Signature.uniform_fits fun vs hvs admits => ?_
  obtain ⟨v, rfl⟩ := List.length_eq_one_iff.mp (eq_of_beq admits)
  obtain ⟨p, rfl⟩ := (hvs v List.mem_cons_self).exists_bool
  exact .value (.bool _)

/-- A choice between two values of one sort is a value of this sort. -/
theorem fits_choice : Signature.choice.Fits .choice := by
  intro vs sorts s hvs hs _
  obtain ⟨yes, rfl, rfl⟩ : ∃ yes, sorts = [.bool, yes, yes] ∧ yes = s := by
    unfold Signature.result? at hs
    split at hs
    · next h => cases h
    · next h => cases h
    · next yes no _ =>
      split at hs
      · next same => exact ⟨yes, by rw [same], Option.some.inj hs⟩
      · cases hs
    · cases hs
  obtain ⟨_, _, hcondition, hbranches, rfl⟩ := List.forall₂_cons_right_iff.mp hvs
  obtain ⟨_, _, hyes, hrest, rfl⟩ := List.forall₂_cons_right_iff.mp hbranches
  obtain ⟨_, _, hno, hnil, rfl⟩ := List.forall₂_cons_right_iff.mp hrest
  obtain rfl := List.forall₂_nil_right_iff.mp hnil
  obtain ⟨p, rfl⟩ := hcondition.exists_bool
  cases p with
  | true => exact .value hyes
  | false => exact .value hno

/-! ### The symbols of real arithmetic -/

/-- Whether a callable fits the signature that a symbol has, if it has one. -/
def FitsSymbol (entry : String × Callable) : Prop :=
  ∀ signature, signature? entry.1 = some signature → signature.Fits entry.2

theorem fitsSymbol {symbol : String} {callable : Callable} {signature : Signature}
    (fits : signature.Fits callable) (h : signature? symbol = some signature) :
    FitsSymbol (symbol, callable) := by
  intro other hother
  obtain rfl := Option.some.inj (h.symm.trans hother)
  exact fits

theorem fitsSymbol_of_none {symbol : String} {callable : Callable} (h : signature? symbol = none) :
    FitsSymbol (symbol, callable) := by
  intro other hother
  rw [h] at hother
  cases hother

theorem fitsSymbol_of_mem_functions :
    ∀ callable ∈ Callable.functions, FitsSymbol (callable.name, callable) := by
  have real (name : String) (f : Float → Float)
      (h : signature? name = some (.uniform .num .num)) : FitsSymbol (name, .real name f) :=
    fitsSymbol (fits_real f) h
  unfold Callable.functions
  simp only [List.forall_mem_cons, List.not_mem_nil, false_imp_iff, implies_true, and_true]
  exact ⟨real _ _ rfl, real _ _ rfl, real _ _ rfl, real _ _ rfl, real _ _ rfl, real _ _ rfl,
    real _ _ rfl, real _ _ rfl, real _ _ rfl, real _ _ rfl, real _ _ rfl,
    fitsSymbol fits_logarithm rfl,
    real _ _ rfl, real _ _ rfl, real _ _ rfl, real _ _ rfl, real _ _ rfl,
    fitsSymbol (fits_of_number fun _ => .value (.number _)) rfl,
    real _ _ rfl, real _ _ rfl,
    fitsSymbol (fits_of_numbers fun _ _ => .value (.number _)) rfl,
    fitsSymbol (fits_extreme _ _) rfl, fitsSymbol (fits_extreme _ _) rfl,
    fitsSymbol fits_add rfl, fitsSymbol fits_mean rfl,
    fitsSymbol fits_choice rfl⟩

theorem fitsSymbol_of_mem_operators :
    ∀ entry ∈ Grammar.real.preUnary.entries ++ Grammar.real.postUnary.entries ++
      Grammar.real.nary.entries, FitsSymbol entry := by
  have operators : Grammar.real.preUnary.entries ++ Grammar.real.postUnary.entries ++
      Grammar.real.nary.entries =
        [("not", .negation), ("-", .negate), ("+", .identity), ("!", .factorial),
          (",", .list), ("or", .disjunction), ("and", .conjunction), ("+", .add),
          ("*", .multiply), ("^", .power), ("%", .remainder), ("/", .divide), ("-", .subtract),
          (">=", .greaterEqual), (">", .greater), ("<=", .lessEqual), ("<", .less),
          ("~=", .approxEqual), ("!=", .notEqual), ("==", .equal)] := rfl
  have negate : (Signature.uniform .num .num).Fits .negate :=
    fits_of_number fun _ => .value (.number _)
  have identity : (Signature.uniform .num .num).Fits .identity :=
    fits_of_number fun _ => .value (.number _)
  have subtract : (Signature.uniform .num .num).Fits .subtract :=
    fits_of_numbers fun _ _ => .value (.number _)
  rw [operators]
  simp only [List.forall_mem_cons, List.not_mem_nil, false_imp_iff, implies_true, and_true]
  exact ⟨fitsSymbol fits_negation rfl, fitsSymbol negate rfl, fitsSymbol identity rfl,
    fitsSymbol fits_factorial rfl, fitsSymbol_of_none rfl, fitsSymbol fits_disjunction rfl,
    fitsSymbol fits_conjunction rfl, fitsSymbol fits_add rfl, fitsSymbol fits_multiply rfl,
    fitsSymbol fits_power rfl, fitsSymbol fits_remainder rfl, fitsSymbol fits_divide rfl,
    fitsSymbol subtract rfl,
    fitsSymbol (fits_order fun _ _ => rfl) rfl, fitsSymbol (fits_order fun _ _ => rfl) rfl,
    fitsSymbol (fits_order fun _ _ => rfl) rfl, fitsSymbol (fits_order fun _ _ => rfl) rfl,
    fitsSymbol (fits_order fun _ _ => rfl) rfl,
    fitsSymbol (fits_comparison (· != ·)) rfl, fitsSymbol (fits_comparison (· == ·)) rfl⟩

/-- **Every callable of real arithmetic fits the signature of its symbol.** -/
theorem fitsSymbol_of_mem_callEntries : ∀ entry ∈ Grammar.real.callEntries, FitsSymbol entry := by
  have functions : Grammar.real.functions.entries =
      (Callable.functions.map fun c => (c.name, c)).reverse := rfl
  have enclosures : Grammar.real.enclosures.entries = [("[", .list), ("|", .absolute)] := rfl
  unfold Grammar.callEntries
  rw [functions, enclosures]
  refine List.forall_mem_append.mpr ⟨List.forall_mem_append.mpr
    ⟨fitsSymbol_of_mem_operators, ?_⟩, ?_⟩
  · simp only [List.mem_reverse, List.forall_mem_map]
    exact fitsSymbol_of_mem_functions
  · simp only [List.forall_mem_cons, List.not_mem_nil, false_imp_iff, implies_true, and_true]
    exact ⟨fitsSymbol_of_none rfl, fitsSymbol (fits_real _) rfl⟩

end OperatorGrammar
