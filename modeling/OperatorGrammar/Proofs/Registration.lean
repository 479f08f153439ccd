import OperatorGrammar.Proofs.Consistency

/-! # What was registered last counts

The clauses of a grammar register names, and case may matter or not, as the last clause about it
says (`caseRule`).  For every name a table of the grammar holds what the last clause has registered
for it whose name folds to it (`lastRegistered`), however the clauses are mixed: the lists of a
declaration are those of its clauses (`Collects.read_ofClauses`), and a table keeps the last value
of a folded name (`get?_table`).  Operators between operands are registered in one list, binary and
multary ones mixed.  The table of the multary ones is put over that of the whole list, and so a
binary operator counts only where no multary one has its symbol, whichever was registered first
(`lastRegistered_nary`, `build_lastRegistered`). -/

namespace OperatorGrammar

variable {α : Type}

/-! ### The last value of a name -/

/-- The value of the last entry whose name is folded to a name. -/
def lastValue (fold : String → String) (entries : List (String × α)) (name : String) : Option α :=
  ((entries.filter fun entry => fold entry.1 == name).getLast?).map Prod.snd

section lastValue

variable {fold : String → String} {name : String}

theorem lastValue_append (entries later : List (String × α)) :
    lastValue fold (entries ++ later) name =
      (lastValue fold later name).or (lastValue fold entries name) := by
  unfold lastValue
  rw [List.filter_append, List.getLast?_append, Option.map_or]

theorem lastValue_singleton (entry : String × α) :
    lastValue fold [entry] name = if fold entry.1 = name then some entry.2 else none := by
  by_cases h : fold entry.1 = name
  · simp [lastValue, h]
  · simp [lastValue, h]

theorem lastValue_eq_none {entries : List (String × α)} :
    lastValue fold entries name = none ↔ ∀ entry ∈ entries, fold entry.1 ≠ name := by
  unfold lastValue
  rw [Option.map_eq_none_iff, List.getLast?_eq_none_iff, List.filter_eq_nil_iff]
  simp only [beq_iff_eq, ne_eq]

theorem lastValue_map (entries : List (String × α)) :
    lastValue id (entries.map fun entry => (fold entry.1, entry.2)) name =
      lastValue fold entries name := by
  unfold lastValue
  rw [List.filter_map, List.getLast?_map, Option.map_map]
  rfl

end lastValue

namespace Table

/-- Entries that are inserted one after another replace each other, and what was there. -/
theorem get?_insertAll (t : Table α) (entries : List (String × α)) (name : String) :
    (t.insertAll entries).get? name = (lastValue id entries name).or (t.get? name) := by
  induction entries generalizing t with
  | nil => rfl
  | cons entry entries ih =>
      have hcons : t.insertAll (entry :: entries) =
        (t.insert entry.1 entry.2).insertAll entries := rfl
      rw [hcons, ih, get?_insert, ← List.singleton_append, lastValue_append, lastValue_singleton,
        id_eq, Option.or_assoc]
      congr 1
      by_cases h : entry.1 = name
      · rw [if_pos h.symm, if_pos h, Option.some_or]
      · rw [if_neg (Ne.symm h), if_neg h, Option.none_or]

end Table

/-! ### What clauses register -/

namespace Clause

/-- Whether case matters, if the clause says so. -/
def caseSensitive? : Clause → Option Bool
  | .caseSensitive yes => some yes
  | _ => none

def constant? : Clause → Option (String × Value)
  | .constant name value => some (name, value)
  | _ => none

def preUnary? : Clause → Option (String × Callable)
  | .preUnary symbol callable => some (symbol, callable)
  | _ => none

def postUnary? : Clause → Option (String × Callable)
  | .postUnary symbol callable => some (symbol, callable)
  | _ => none

def binary? : Clause → Option (String × Callable)
  | .binary symbol callable => some (symbol, callable)
  | _ => none

/-- The operator between operands that a clause registers, be it binary or multary. -/
def nary? : Clause → Option (String × Callable)
  | .binary symbol callable | .multary symbol callable => some (symbol, callable)
  | _ => none

def multary? : Clause → Option (String × Callable)
  | .multary symbol callable => some (symbol, callable)
  | _ => none

def function? : Clause → Option (String × Callable)
  | .function name callable => some (name, callable)
  | _ => none

def enclosure? : Clause → Option (String × Callable)
  | .enclosure opener callable => some (opener, callable)
  | _ => none

def variableKind? : Clause → Option (String × Kind)
  | .variableKind name kind => some (name, kind)
  | _ => none

end Clause

/-- Whether case matters after some clauses: as the last clause about it says, and if there is none,
it does. -/
def caseRule (clauses : List Clause) : Bool :=
  ((clauses.filterMap Clause.caseSensitive?).getLast?).getD true

/-- What the last clause registers for a name, of the clauses whose name is folded to it. -/
def lastRegistered (item? : Clause → Option (String × α)) (clauses : List Clause)
    (name : String) : Option α :=
  lastValue (canonicalName (caseRule clauses)) (clauses.filterMap item?) name

namespace Declaration

variable {d : Declaration} {clauses : List Clause} {name : String}

/-- Whether a list of a declaration begins empty and grows by what each clause registers. -/
structure Collects {β : Type} (read : Declaration → List β) (item? : Clause → Option β) :
    Prop where
  start : read empty = []
  step : ∀ d clause, read (d.add clause) = read d ++ (item? clause).toList

/-- Such a list holds what all clauses have registered. -/
theorem Collects.read_ofClauses {β : Type} {read : Declaration → List β}
    {item? : Clause → Option β} (h : Collects read item?) (clauses : List Clause) :
    read (ofClauses clauses) = clauses.filterMap item? := by
  have grows (d : Declaration) : read (d.addAll clauses) = read d ++ clauses.filterMap item? := by
    induction clauses generalizing d with
    | nil => simp [addAll]
    | cons clause clauses ih =>
        have hcons : d.addAll (clause :: clauses) = (d.add clause).addAll clauses := rfl
        rw [hcons, ih, h.step, List.append_assoc]
        cases he : item? clause <;> simp [he]
  rw [ofClauses, grows, h.start, List.nil_append]

theorem collects_constants : Collects constants Clause.constant? :=
  ⟨rfl, fun d clause => by cases clause <;> simp [add, Clause.constant?]⟩

theorem collects_preUnary : Collects preUnary Clause.preUnary? :=
  ⟨rfl, fun d clause => by cases clause <;> simp [add, Clause.preUnary?]⟩

theorem collects_postUnary : Collects postUnary Clause.postUnary? :=
  ⟨rfl, fun d clause => by cases clause <;> simp [add, Clause.postUnary?]⟩

theorem collects_nary : Collects nary Clause.nary? :=
  ⟨rfl, fun d clause => by cases clause <;> simp [add, Clause.nary?]⟩

theorem collects_multary : Collects multary Clause.multary? :=
  ⟨rfl, fun d clause => by cases clause <;> simp [add, Clause.multary?]⟩

theorem collects_functions : Collects functions Clause.function? :=
  ⟨rfl, fun d clause => by cases clause <;> simp [add, Clause.function?]⟩

theorem collects_enclosures : Collects enclosures Clause.enclosure? :=
  ⟨rfl, fun d clause => by cases clause <;> simp [add, Clause.enclosure?]⟩

theorem collects_variableKinds : Collects variableKinds Clause.variableKind? :=
  ⟨rfl, fun d clause => by cases clause <;> simp [add, Clause.variableKind?]⟩

/-- Whether case matters is settled by the last clause about it, wherever it stands. -/
theorem caseSensitive_addAll (d : Declaration) (clauses : List Clause) :
    (d.addAll clauses).caseSensitive =
      ((clauses.filterMap Clause.caseSensitive?).getLast?).getD d.caseSensitive := by
  induction clauses generalizing d with
  | nil => rfl
  | cons clause clauses ih =>
      have hcons : d.addAll (clause :: clauses) = (d.add clause).addAll clauses := rfl
      rw [hcons, ih]
      cases clause with
      | caseSensitive yes =>
          simp [Clause.caseSensitive?, add, List.getLast?_cons]
      | _ => rfl

theorem fold_ofClauses (clauses : List Clause) :
    (ofClauses clauses).fold = canonicalName (caseRule clauses) := by
  funext name
  rw [fold, ofClauses, caseSensitive_addAll]
  rfl

/-! ### What the tables hold -/

/-- A table holds the last value of every folded name. -/
theorem get?_table (entries : List (String × α)) :
    (d.table entries).get? name = lastValue d.fold entries name := by
  unfold table Table.ofList
  rw [Table.get?_insertAll, Table.get?_empty, Option.or_none]
  exact lastValue_map entries

/-- The table of what clauses have registered holds for every name what was registered last. -/
theorem Collects.get?_table {read : Declaration → List (String × α)}
    {item? : Clause → Option (String × α)} (h : Collects read item?) (clauses : List Clause)
    (name : String) :
    ((ofClauses clauses).table (read (ofClauses clauses))).get? name =
      lastRegistered item? clauses name := by
  rw [Declaration.get?_table, h.read_ofClauses, fold_ofClauses]
  rfl

/-- Among the clauses about operators between operands the multary ones stand anywhere.  If none of
them is about a symbol, the last clause about it is the last binary one. -/
theorem lastRegistered_nary {clauses : List Clause} {symbol : String}
    (none : lastRegistered Clause.multary? clauses symbol = none) :
    lastRegistered Clause.nary? clauses symbol = lastRegistered Clause.binary? clauses symbol := by
  unfold lastRegistered at none ⊢
  generalize canonicalName (caseRule clauses) = fold at none ⊢
  rw [lastValue_eq_none] at none
  unfold lastValue
  congr 2
  induction clauses with
  | nil => rfl
  | cons clause clauses ih =>
      cases clause with
      | binary s callable =>
          have := ih none
          simp only [List.filterMap_cons, Clause.nary?, Clause.binary?, List.filter_cons, this]
      | multary s callable =>
          rw [List.filterMap_cons, Clause.multary?, List.forall_mem_cons] at none
          have other : (fold s == symbol) = false := beq_eq_false_iff_ne.mpr none.1
          simp only [List.filterMap_cons, Clause.nary?, Clause.binary?, List.filter_cons, other,
            Bool.false_eq_true, if_false, ih none.2]
      | _ => exact ih none

/-- The table of the multary operators has been put over that of all operators between operands, in
which they are mixed with the binary ones. -/
theorem get?_nary_ofClauses (clauses : List Clause) (symbol : String) :
    (ofClauses clauses).assemble.nary.get? symbol =
      (lastRegistered Clause.multary? clauses symbol).or
        (lastRegistered Clause.binary? clauses symbol) := by
  show (ofClauses clauses).naryTable.get? symbol = _
  rw [naryTable, Table.get?_extend, collects_multary.get?_table, collects_nary.get?_table]
  cases h : lastRegistered Clause.multary? clauses symbol with
  | none => rw [lastRegistered_nary h]
  | some callable => rfl

theorem isMultary_ofClauses (clauses : List Clause) (symbol : String) :
    (ofClauses clauses).assemble.isMultary symbol = true ↔
      ∃ entry ∈ clauses.filterMap Clause.multary?,
        canonicalName (caseRule clauses) entry.1 = symbol := by
  rw [isMultary_assemble, collects_multary.read_ofClauses, fold_ofClauses]

/-- **What was registered last counts, and multary operators come last.**  In the grammar of some
clauses, case matters as the last clause about it says.  For every name, the constant, the function,
the enclosure, the operators before and behind an operand and the kind of a variable are those of
the last clause that registers one under a name that is folded to it.  An operator is multary
exactly if some clause registers it as multary; between operands stands what was registered last for
a multary operator, and if nothing was, what was registered last for a binary one. -/
theorem build_lastRegistered {clauses : List Clause} {g : Grammar}
    (h : (ofClauses clauses).build = .ok g) :
    g.caseSensitive = caseRule clauses ∧ ∀ name,
      g.constants.get? name = lastRegistered Clause.constant? clauses name ∧
      g.functions.get? name = lastRegistered Clause.function? clauses name ∧
      g.enclosures.get? name = lastRegistered Clause.enclosure? clauses name ∧
      g.operator .preUnary name = lastRegistered Clause.preUnary? clauses name ∧
      g.operator .postUnary name = lastRegistered Clause.postUnary? clauses name ∧
      g.variableKinds.get? name = lastRegistered Clause.variableKind? clauses name ∧
      (g.isMultary name = true ↔ ∃ entry ∈ clauses.filterMap Clause.multary?,
        canonicalName (caseRule clauses) entry.1 = name) ∧
      g.operator .nary name = (lastRegistered Clause.multary? clauses name).or
        (lastRegistered Clause.binary? clauses name) := by
  obtain ⟨-, rfl⟩ := build_eq_ok.mp h
  refine ⟨caseSensitive_addAll empty clauses, fun name => ?_⟩
  exact ⟨collects_constants.get?_table clauses name, collects_functions.get?_table clauses name,
    collects_enclosures.get?_table clauses name, collects_preUnary.get?_table clauses name,
    collects_postUnary.get?_table clauses name, collects_variableKinds.get?_table clauses name,
    isMultary_ofClauses clauses name, get?_nary_ofClauses clauses name⟩

/-- A sum that is registered as multary before it is registered as binary, and two spellings of a
constant which a later clause makes one. -/
theorem build_lastRegistered_sample :
    ∃ (clauses : List Clause) (g : Grammar), (ofClauses clauses).build = .ok g ∧
      caseRule clauses = false ∧ g.operator .nary "+" = some .add ∧ g.isMultary "+" = true ∧
      g.constants.get? "yes" = some (.bool true) ∧ g.constants.get? "Yes" = none := by
  let clauses : List Clause := [.parenthetical "(" ")", .multary "," .list, .multary "+" .add,
    .constant "YES" (.bool false), .constant "Yes" (.bool true), .binary "+" .subtract,
    .caseSensitive false]
  have hd : (ofClauses clauses).build = .ok (ofClauses clauses).assemble :=
    build_eq_ok.mpr ⟨by decide +kernel, rfl⟩
  obtain ⟨hcase, last⟩ := build_lastRegistered hd
  obtain ⟨-, -, -, -, -, -, multary, nary⟩ := last "+"
  refine ⟨clauses, _, hd, rfl, nary, multary.mpr ⟨("+", .add), ?_, rfl⟩, (last "yes").1,
    (last "Yes").1⟩
  simp [clauses, Clause.multary?]

end Declaration

end OperatorGrammar
