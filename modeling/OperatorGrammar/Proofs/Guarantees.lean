import OperatorGrammar.Grammar.Validation

/-! # What a grammar that was built guarantees

A declaration is built exactly if none of its checks finds a fault (`build_eq_ok`,
`fault?_eq_none`); each check that has found none is a fact about the tables of the grammar. -/

namespace OperatorGrammar

namespace Declaration

variable {d : Declaration} {g : Grammar}

theorem build_eq_ok : d.build = .ok g ↔ d.fault? = none ∧ d.assemble = g := by
  unfold build
  split
  · next fault h => simp [h]
  · next h => simp [h]

theorem fault?_eq_none :
    d.fault? = none ↔
      d.depthFault? = none ∧ d.emptyNameFault? = none ∧ d.associativityFault? = none ∧
        d.precedenceFault? = none ∧ d.argumentOpenerFault? = none ∧
        d.argumentSeparatorFault? = none ∧ d.implicitOperatorFault? = none ∧
        d.enclosureFault? = none := by
  simp only [fault?, Option.orElse_eq_orElse, Option.orElse_eq_or, Option.or_eq_none_iff]

theorem holdsEmpty_eq_false (h : d.emptyNameFault? = none) (part : NameTable) :
    d.holdsEmpty part = false := by
  unfold emptyNameFault? at h
  rw [Option.map_eq_none_iff, List.find?_eq_none] at h
  have hpart : part ∈ searchOrder := by cases part <;> decide
  simpa using h part hpart

end Declaration

namespace Grammar

variable {g : Grammar}

/-- Whether a text is the opener of a pair of delimiters. -/
def IsOpener (g : Grammar) (opener : String) : Prop :=
  ∃ pair ∈ g.parentheticals, pair.opener = opener

instance (opener : String) : Decidable (g.IsOpener opener) :=
  inferInstanceAs (Decidable (∃ pair ∈ g.parentheticals, _ = _))

/-- The first closer of an opener closes it. -/
theorem closes_closerOf {opener : String} (h : g.IsOpener opener) :
    g.closes opener (g.closerOf opener) = true := by
  obtain ⟨pair, hp, ho⟩ := h
  unfold closerOf closes
  cases hf : g.parentheticals.find? (·.opener == opener) with
  | none =>
      have := List.find?_eq_none.mp hf pair hp
      simp [ho] at this
  | some first =>
      have hmem := List.mem_of_find?_eq_some hf
      have hopener := List.find?_some hf
      refine List.any_eq_true.mpr ⟨first, hmem, ?_⟩
      simpa using hopener

theorem isOpener_argumentOpener {d : Declaration} (h : d.build = .ok g) :
    g.IsOpener g.argumentOpener := by
  obtain ⟨hf, rfl⟩ := Declaration.build_eq_ok.mp h
  obtain ⟨-, -, -, -, ho, -⟩ := Declaration.fault?_eq_none.mp hf
  have hopens : d.opens (d.fold d.argumentOpener) = true := by
    simpa [Declaration.argumentOpenerFault?] using ho
  obtain ⟨pair, hp, he⟩ := List.any_eq_true.mp hopens
  exact ⟨_, List.mem_map_of_mem hp, eq_of_beq he⟩

end Grammar

/-! ### What the tables hold -/

namespace Declaration

variable {d : Declaration} {symbol : String}

theorem contains_table {α : Type} {entries : List (String × α)} :
    (d.table entries).contains symbol = true ↔ ∃ entry ∈ entries, d.fold entry.1 = symbol := by
  unfold table foldEntries
  rw [Table.contains_ofList, List.map_map, List.mem_map]
  rfl

theorem contains_naryTable :
    d.naryTable.contains symbol = true ↔ ∃ entry ∈ d.nary, d.fold entry.1 = symbol := by
  rw [naryTable, Table.contains_extend, contains_table, contains_table, or_iff_left_iff_imp]
  rintro ⟨entry, hentry, h⟩
  exact ⟨entry, d.multary_subset entry hentry, h⟩

/-- The operators that were registered, in any role and as they were written. -/
def operatorNames (d : Declaration) : List String :=
  (d.preUnary ++ d.postUnary ++ d.nary).map Prod.fst

theorem mem_operatorKeys :
    symbol ∈ (d.table d.preUnary).keys ++ (d.table d.postUnary).keys ++ d.naryTable.keys ↔
      symbol ∈ d.operatorNames.map d.fold := by
  rw [operatorNames, List.map_map, List.mem_map]
  simp only [List.mem_append, Table.mem_keys, contains_table, contains_naryTable, or_and_right,
    exists_or, Function.comp_apply]

end Declaration

/-! ### Symbols are not empty -/

theorem lowercaseChar_ne_nil (c : Char) : lowercaseChar c ≠ [] := by
  unfold lowercaseChar
  split
  · exact List.cons_ne_nil _ _
  · split
    · exact List.cons_ne_nil _ _
    · split <;> exact List.cons_ne_nil _ _

theorem lowercaseAfter_eq_nil {before cs : List Char} :
    lowercaseAfter before cs = [] ↔ cs = [] := by
  cases cs with
  | nil => simp [lowercaseAfter]
  | cons c rest =>
      simp only [lowercaseAfter, List.append_eq_nil_iff, reduceCtorEq, iff_false, not_and]
      intro h
      split at h
      · cases h
      · exact absurd h (lowercaseChar_ne_nil c)

theorem canonicalName_eq_empty {cs : Bool} {name : String} :
    canonicalName cs name = "" ↔ name = "" := by
  unfold canonicalName
  split
  · rfl
  · rw [lowercase, String.ofList_eq_empty_iff, lowercaseAfter_eq_nil, String.toList_eq_nil_iff]

theorem mem_insertSymbol {s t : String} {symbols : List String} :
    s ∈ insertSymbol t symbols ↔ s = t ∨ s ∈ symbols := by
  induction symbols with
  | nil => simp [insertSymbol]
  | cons u rest ih =>
      unfold insertSymbol
      split
      · next h => simp [h]
      · split
        · simp
        · simp only [List.mem_cons, ih]
          exact or_left_comm

theorem mem_sortSymbols {s : String} {symbols : List String} :
    s ∈ sortSymbols symbols ↔ s ∈ symbols := by
  induction symbols with
  | nil => rfl
  | cons t rest ih =>
      show s ∈ insertSymbol t (sortSymbols rest) ↔ _
      rw [mem_insertSymbol, ih, List.mem_cons]

namespace Grammar

/-- No delimiter and no operator symbol is empty. -/
structure NoEmptySymbol (g : Grammar) : Prop where
  delimiter : ∀ pair ∈ g.parentheticals, pair.opener ≠ "" ∧ pair.closer ≠ ""
  operator : ∀ symbol ∈ g.operatorSymbols, symbol ≠ ""

theorem noEmptySymbol {d : Declaration} (h : d.build = .ok g) : g.NoEmptySymbol := by
  obtain ⟨hf, rfl⟩ := Declaration.build_eq_ok.mp h
  have hempty := Declaration.holdsEmpty_eq_false (Declaration.fault?_eq_none.mp hf).2.1
  constructor
  · intro pair hpair
    obtain ⟨p, hp, rfl⟩ := List.mem_map.mp hpair
    have hd := List.any_eq_false.mp (hempty .parentheticals) p hp
    simp only [Bool.or_eq_true, beq_iff_eq, not_or] at hd
    exact ⟨mt canonicalName_eq_empty.mp hd.1, mt canonicalName_eq_empty.mp hd.2⟩
  · intro symbol hsymbol
    have hkeys := Declaration.mem_operatorKeys.mp (mem_sortSymbols.mp hsymbol)
    obtain ⟨_, hnames, rfl⟩ := List.mem_map.mp hkeys
    obtain ⟨⟨name, callable⟩, hmem, rfl⟩ := List.mem_map.mp hnames
    have hname : name ≠ "" := by
      rcases List.mem_append.mp hmem with hmem | hmem
      · rcases List.mem_append.mp hmem with hmem | hmem
        · simpa using List.any_eq_false.mp (hempty .preUnary) _ hmem
        · simpa using List.any_eq_false.mp (hempty .postUnary) _ hmem
      · simpa using List.any_eq_false.mp (hempty .nary) _ hmem
    exact mt canonicalName_eq_empty.mp hname

end Grammar

end OperatorGrammar
