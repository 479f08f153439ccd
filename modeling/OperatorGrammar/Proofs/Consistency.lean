import OperatorGrammar.Grammar.Bundled
import OperatorGrammar.Proofs.Guarantees

/-! # Which declarations are built

Each check of a declaration finds nothing exactly if a plain condition on what was declared holds
(`depthFault?_eq_none` and its siblings); together they are `Declaration.Consistent`.  The checks
look at the lists of what was declared and fold each name where they compare it, and the tables of
the grammar are made apart from them.  That the two agree is what `build_consistent` says: exactly
the consistent declarations are built, and the tables of a grammar that was built fit each other. -/

namespace OperatorGrammar

/-! ### Repetitions -/

theorem firstRepeated_eq_none {seen symbols : List String} :
    firstRepeated seen symbols = none ↔ symbols.Nodup ∧ ∀ s ∈ symbols, s ∉ seen := by
  induction symbols generalizing seen with
  | nil => simp [firstRepeated]
  | cons s rest ih =>
      unfold firstRepeated
      by_cases hs : s ∈ seen
      · simp [hs]
      · rw [if_neg hs, ih, List.nodup_cons, List.forall_mem_cons]
        constructor
        · rintro ⟨hnodup, hrest⟩
          have apart : s ∉ rest := fun h => hrest s h List.mem_cons_self
          exact ⟨⟨apart, hnodup⟩, hs, fun t ht => List.not_mem_of_not_mem_cons (hrest t ht)⟩
        · rintro ⟨⟨apart, hnodup⟩, -, hrest⟩
          refine ⟨hnodup, fun t ht => List.not_mem_cons_of_ne_of_not_mem ?_ (hrest t ht)⟩
          rintro rfl
          exact apart ht

theorem get?_zipIdx_of_nodup {symbols : List String} (h : symbols.Nodup) {symbol : String}
    {level : Nat} :
    (Table.ofList symbols.zipIdx).get? symbol = some level ↔ symbols[level]? = some symbol := by
  have distinct : (symbols.zipIdx.map Prod.fst).Nodup := by rwa [List.zipIdx_map_fst]
  rw [Table.get?_ofList_of_nodup distinct, Table.lookup_eq_some_iff_of_nodup distinct,
    List.mem_zipIdx_iff_getElem?]

namespace Declaration

variable (d : Declaration)

/-! ### Consistent declarations -/

/-- The delimiters, operators, functions, enclosures, constants and variables of a declaration. -/
def names : List String :=
  d.parentheticals.map Parenthetical.opener ++ d.parentheticals.map Parenthetical.closer ++
    d.preUnary.map Prod.fst ++ d.postUnary.map Prod.fst ++ d.nary.map Prod.fst ++
    d.functions.map Prod.fst ++ d.enclosures.map Prod.fst ++ d.constants.map Prod.fst ++
    d.variableKinds.map Prod.fst

/-- Whether two names are one to the grammar. -/
def SameName (name other : String) : Prop := d.fold name = d.fold other

def DeclaresOpener (name : String) : Prop := ∃ p ∈ d.parentheticals, d.SameName p.opener name

/-- Whether a name was declared as a binary or a multary operator. -/
def DeclaresBetween (name : String) : Prop := ∃ entry ∈ d.nary, d.SameName entry.1 name

/-- A declaration whose parts fit each other. -/
structure Consistent : Prop where
  /-- An expression may have a level. -/
  deep : 1 ≤ d.maxDepth.toNat
  /-- Nothing has an empty name. -/
  named : ∀ name ∈ d.names, name ≠ ""
  /-- No multary operator groups from the right. -/
  gathers : ∀ entry ∈ d.multary, ∀ symbol ∈ d.rightAssociative, ¬ d.SameName entry.1 symbol
  /-- The order of operations repeats no operator. -/
  ordered : d.order.Pairwise fun symbol other => ¬ d.SameName symbol other
  /-- Argument lists and enclosures begin with an opener. -/
  argumentOpener : d.DeclaresOpener d.argumentOpener
  enclosures : ∀ entry ∈ d.enclosures, d.DeclaresOpener entry.1
  /-- Between arguments, and between operands that have nothing between them, stands an operator. -/
  separator : d.DeclaresBetween d.argumentSeparator
  implicit : ∀ symbol, d.implicitOperator = some symbol → d.DeclaresBetween symbol

/-! ### What each check looks for -/

variable {d}

theorem opens_eq_true {name : String} : d.opens (d.fold name) = true ↔ d.DeclaresOpener name := by
  unfold opens
  rw [List.any_eq_true]
  simp only [beq_iff_eq]
  rfl

theorem isNary_eq_true {name : String} :
    d.isNary (d.fold name) = true ↔ d.DeclaresBetween name := by
  unfold isNary
  rw [List.any_eq_true]
  simp only [beq_iff_eq]
  rfl

theorem depthFault?_eq_none : d.depthFault? = none ↔ 1 ≤ d.maxDepth.toNat := by
  have hzero : d.maxDepth = 0 ↔ d.maxDepth.toNat = 0 := UInt64.toNat_inj.symm
  rw [Nat.one_le_iff_ne_zero, Ne, ← hzero]
  unfold depthFault?
  split
  · next h => simp [h]
  · next h => simp [h]

theorem emptyNameFault?_eq_none : d.emptyNameFault? = none ↔ ∀ name ∈ d.names, name ≠ "" := by
  unfold emptyNameFault?
  rw [Option.map_eq_none_iff, List.find?_eq_none]
  simp only [searchOrder, List.forall_mem_cons, List.not_mem_nil, false_imp_iff, implies_true,
    and_true, holdsEmpty, names, List.forall_mem_append, List.forall_mem_map]
  simp only [Bool.not_eq_true, List.any_eq_false, Bool.or_eq_true, beq_iff_eq, not_or, ne_eq,
    forall_and]
  simp only [and_assoc]

theorem associativityFault?_eq_none :
    d.associativityFault? = none ↔
      ∀ entry ∈ d.multary, ∀ symbol ∈ d.rightAssociative, ¬ d.SameName entry.1 symbol := by
  unfold associativityFault? SameName
  rw [Option.map_eq_none_iff, List.find?_eq_none]
  simp only [List.forall_mem_map, List.any_eq_true, beq_iff_eq, not_exists, not_and]
  exact ⟨fun h entry he symbol hs => h symbol hs entry he,
    fun h symbol hs entry he => h entry he symbol hs⟩

theorem precedenceFault?_eq_none :
    d.precedenceFault? = none ↔
      d.order.Pairwise fun symbol other => ¬ d.SameName symbol other := by
  unfold precedenceFault? SameName
  rw [Option.map_eq_none_iff, firstRepeated_eq_none]
  simp only [List.not_mem_nil, not_false_eq_true, implies_true, and_true]
  exact List.pairwise_map

theorem argumentOpenerFault?_eq_none :
    d.argumentOpenerFault? = none ↔ d.DeclaresOpener d.argumentOpener := by
  rw [← opens_eq_true]
  simp [argumentOpenerFault?]

theorem argumentSeparatorFault?_eq_none :
    d.argumentSeparatorFault? = none ↔ d.DeclaresBetween d.argumentSeparator := by
  rw [← isNary_eq_true]
  simp [argumentSeparatorFault?]

theorem implicitOperatorFault?_eq_none :
    d.implicitOperatorFault? = none ↔
      ∀ symbol, d.implicitOperator = some symbol → d.DeclaresBetween symbol := by
  unfold implicitOperatorFault?
  rw [Option.map_eq_none_iff, Option.filter_eq_none_iff]
  cases d.implicitOperator with
  | none => simp
  | some symbol => simp [← isNary_eq_true]

theorem enclosureFault?_eq_none :
    d.enclosureFault? = none ↔ ∀ entry ∈ d.enclosures, d.DeclaresOpener entry.1 := by
  unfold enclosureFault?
  rw [Option.map_eq_none_iff, List.find?_eq_none]
  simp only [List.forall_mem_map, Bool.not_eq_true', Bool.not_eq_false, opens_eq_true]

/-- The checks find nothing in consistent declarations, and only in them. -/
theorem fault?_eq_none_iff : d.fault? = none ↔ d.Consistent := by
  rw [fault?_eq_none, depthFault?_eq_none, emptyNameFault?_eq_none, associativityFault?_eq_none,
    precedenceFault?_eq_none, argumentOpenerFault?_eq_none, argumentSeparatorFault?_eq_none,
    implicitOperatorFault?_eq_none, enclosureFault?_eq_none]
  constructor
  · rintro ⟨deep, named, gathers, ordered, argumentOpener, separator, implicit, enclosures⟩
    exact ⟨deep, named, gathers, ordered, argumentOpener, enclosures, separator, implicit⟩
  · rintro ⟨deep, named, gathers, ordered, argumentOpener, enclosures, separator, implicit⟩
    exact ⟨deep, named, gathers, ordered, argumentOpener, separator, implicit, enclosures⟩

/-! ### What the tables hold -/

theorem contains_nary_fold {name : String} :
    d.assemble.nary.contains (d.fold name) = true ↔ d.DeclaresBetween name :=
  contains_naryTable

theorem isMultary_assemble {symbol : String} :
    d.assemble.isMultary symbol = true ↔ ∃ entry ∈ d.multary, d.fold entry.1 = symbol := by
  unfold Grammar.isMultary
  rw [List.contains_iff_mem]
  exact List.mem_map

theorem isRightAssociative_assemble {symbol : String} :
    d.assemble.isRightAssociative symbol = true ↔
      ∃ other ∈ d.rightAssociative, d.fold other = symbol := by
  unfold Grammar.isRightAssociative
  rw [List.contains_iff_mem]
  exact List.mem_map

theorem Consistent.precedence (h : d.Consistent) (symbol : String) (level : Nat) :
    d.assemble.precedence symbol = some level ↔ d.assemble.order[level]? = some symbol :=
  get?_zipIdx_of_nodup (List.pairwise_map.mpr h.ordered)

theorem Consistent.of_isMultary (h : d.Consistent) {symbol : String}
    (hm : d.assemble.isMultary symbol = true) :
    d.assemble.nary.contains symbol = true ∧ d.assemble.isRightAssociative symbol = false := by
  obtain ⟨entry, hentry, rfl⟩ := isMultary_assemble.mp hm
  refine ⟨contains_nary_fold.mpr ⟨entry, d.multary_subset entry hentry, rfl⟩, ?_⟩
  rw [Bool.eq_false_iff, Ne, isRightAssociative_assemble]
  rintro ⟨other, hother, hsame⟩
  exact h.gathers entry hentry other hother hsame.symm

theorem Consistent.of_implicitOperator (h : d.Consistent) {symbol : String}
    (hi : d.assemble.implicitOperator = some symbol) :
    d.assemble.nary.contains symbol = true := by
  obtain ⟨name, hname, rfl⟩ := Option.map_eq_some_iff.mp hi
  exact contains_nary_fold.mpr (h.implicit name hname)

/-- In a grammar that was built the level of an operator is its place in the order of operations. -/
theorem build_precedence {g : Grammar} (h : d.build = .ok g) (symbol : String) (level : Nat) :
    g.precedence symbol = some level ↔ g.order[level]? = some symbol := by
  obtain ⟨hfault, rfl⟩ := build_eq_ok.mp h
  exact (fault?_eq_none_iff.mp hfault).precedence symbol level

/-- **The checks are exact, and what passes them fits together.**  A declaration is built exactly if
it is consistent.  In the grammar the precedence of an operator is its place in the order of
operations, a multary operator stands between operands and does not group from the right, and the
separator of arguments and the implicit operator stand between operands. -/
theorem build_consistent (d : Declaration) :
    ((∃ g, d.build = .ok g) ↔ d.Consistent) ∧
      ∀ g, d.build = .ok g →
        (∀ symbol level, g.precedence symbol = some level ↔ g.order[level]? = some symbol) ∧
        (∀ symbol, g.isMultary symbol = true →
          g.nary.contains symbol = true ∧ g.isRightAssociative symbol = false) ∧
        g.nary.contains g.argumentSeparator = true ∧
        ∀ symbol, g.implicitOperator = some symbol → g.nary.contains symbol = true := by
  constructor
  · rw [← fault?_eq_none_iff]
    constructor
    · rintro ⟨g, hg⟩
      exact (build_eq_ok.mp hg).1
    · intro h
      exact ⟨d.assemble, build_eq_ok.mpr ⟨h, rfl⟩⟩
  · intro g hg
    obtain ⟨hfault, rfl⟩ := build_eq_ok.mp hg
    have consistent := fault?_eq_none_iff.mp hfault
    exact ⟨build_precedence hg, fun symbol => consistent.of_isMultary,
      contains_nary_fold.mpr consistent.separator, fun symbol => consistent.of_implicitOperator⟩

/-- Real arithmetic is built, and its tightest operator has the last place. -/
theorem build_consistent_sample :
    Declaration.real.build = .ok Grammar.real ∧ Declaration.real.Consistent ∧
      Grammar.real.precedence "^" = some 15 ∧ Grammar.real.nary.contains "," = true := by
  have hd : Declaration.real.build = .ok Grammar.real := build_eq_ok.mpr ⟨by decide +kernel, rfl⟩
  obtain ⟨hbuilt, htables⟩ := build_consistent Declaration.real
  obtain ⟨hprecedence, -, hseparator, -⟩ := htables _ hd
  exact ⟨hd, hbuilt.mp ⟨_, hd⟩, (hprecedence "^" 15).mpr (by decide +kernel), hseparator⟩

end Declaration

end OperatorGrammar
