import OperatorGrammar.Proofs.Consistency
import OperatorGrammar.Proofs.Scan.Match

/-! # The longest operator is taken

Operator symbols are sorted by their length, and the first one is taken that begins a text and does
not cut a name in two.  No other such symbol is longer, as they are sorted; and none is as long: two
symbols of one length that begin the same text differ at most in the case of letters, and in the
symbols of a grammar it has been folded (`InCase.eq_of_beginsWith`).  So the symbol that is taken is
told by the set of operators alone, whatever order they were registered or enumerated in
(`Declaration.build_longestMatch`). -/

namespace OperatorGrammar

/-! ### Folded symbols -/

/-- Whether a symbol is written in the case of a grammar: in lowercase, where case does not
count. -/
def InCase (caseSensitive : Bool) (symbol : List Char) : Prop :=
  caseSensitive = false → ∀ c ∈ symbol, c.toLower = c

theorem CaseRun.lower_of_mem : ∀ run ∈ caseRuns, 90 < run.lower := by decide +kernel

theorem toLower_ofNat {n : Nat} (h : 90 < n) : (Char.ofNat n).toLower = Char.ofNat n := by
  by_cases hn : n.isValidChar
  · have htoNat : (Char.ofNatAux n hn).toNat = n := rfl
    rw [Char.ofNat, dif_pos hn]
    exact (toLower_eq_or _).resolve_right (by omega)
  · rw [Char.ofNat, dif_neg hn]
    rfl

theorem toLower_of_mem_lowercaseChar {c d : Char} (h : d ∈ lowercaseChar c) : d.toLower = d := by
  unfold lowercaseChar at h
  split at h
  · rw [List.mem_singleton.mp h, toLower_toLower]
  · next ascii =>
    split at h
    · have dotted : 'i'.toLower = 'i' ∧ '\u0307'.toLower = '\u0307' := by decide
      rw [List.mem_cons, List.mem_singleton] at h
      rcases h with rfl | rfl
      · exact dotted.1
      · exact dotted.2
    · split at h
      · next run hrun =>
        have hlower := CaseRun.lower_of_mem run (List.mem_of_find?_eq_some hrun)
        rw [List.mem_singleton.mp h]
        exact toLower_ofNat (by omega)
      · rw [List.mem_singleton.mp h]
        exact (toLower_eq_or c).resolve_right (by omega)

theorem toLower_of_mem_lowercaseAfter {before cs : List Char} {d : Char}
    (h : d ∈ lowercaseAfter before cs) : d.toLower = d := by
  induction cs generalizing before with
  | nil => cases h
  | cons c cs ih =>
      unfold lowercaseAfter at h
      rcases List.mem_append.mp h with h | h
      · split at h
        · have sigma : 'ς'.toLower = 'ς' ∧ 'σ'.toLower = 'σ' := by decide
          rw [List.mem_singleton.mp h]
          split
          · exact sigma.1
          · exact sigma.2
        · exact toLower_of_mem_lowercaseChar h
      · exact ih h

theorem inCase_canonicalName (caseSensitive : Bool) (name : String) :
    InCase caseSensitive (canonicalName caseSensitive name).toList := by
  rintro rfl c hc
  rw [canonicalName, if_neg Bool.false_ne_true, lowercase, String.toList_ofList] at hc
  exact toLower_of_mem_lowercaseAfter hc

namespace InCase

variable {cs : Bool} {c d : Char} {text a b : List Char}

theorem head (h : InCase cs (c :: a)) : cs = false → c.toLower = c :=
  fun hcs => h hcs c List.mem_cons_self

theorem tail (h : InCase cs (c :: a)) : InCase cs a :=
  fun hcs d hd => h hcs d (List.mem_cons_of_mem c hd)

theorem eq_of_sameChar (hc : InCase cs (c :: a)) (hd : InCase cs (d :: b))
    (h : sameChar cs c d = true) : c = d := by
  unfold sameChar at h
  cases cs with
  | true => simpa using h
  | false =>
      have h : c.toLower = d.toLower := by simpa using h
      rwa [hc.head rfl, hd.head rfl] at h

theorem isPrefix_of_beginsWith (ha : InCase cs a) (hb : InCase cs b)
    (h : beginsWith cs a b = true) : b <+: a := by
  induction b generalizing a with
  | nil => exact List.nil_prefix
  | cons d b ih =>
      cases a with
      | nil => cases h
      | cons c a =>
          rw [beginsWith, Bool.and_eq_true] at h
          rw [ha.eq_of_sameChar hb h.1, List.prefix_cons_inj]
          exact ih ha.tail hb.tail h.2

/-- Two folded symbols of one length at the front of a text are one symbol. -/
theorem eq_of_beginsWith (ha : InCase cs a) (hb : InCase cs b) (hta : beginsWith cs text a = true)
    (htb : beginsWith cs text b = true) (h : byteLength a = byteLength b) : a = b := by
  have hba := beginsWith_of_byteLength_le hta htb (Nat.le_of_eq h.symm)
  have hab := beginsWith_of_byteLength_le htb hta (Nat.le_of_eq h)
  have hprefix := hb.isPrefix_of_beginsWith ha hab
  exact hprefix.eq_of_length_le (ha.isPrefix_of_beginsWith hb hba).length_le

end InCase

/-! ### The first of the sorted symbols -/

/-- Whether longer symbols stand before shorter ones. -/
def LongestFirst (symbols : List String) : Prop :=
  symbols.Pairwise fun s t => symbolLength t ≤ symbolLength s

theorem length_le_of_triedBefore {s t : String} (h : triedBefore s t = true) :
    symbolLength t ≤ symbolLength s := by
  simp only [triedBefore, Bool.or_eq_true, Bool.and_eq_true, decide_eq_true_eq, beq_iff_eq] at h
  omega

theorem length_le_of_not_triedBefore {s t : String} (h : ¬ triedBefore s t = true) :
    symbolLength s ≤ symbolLength t := by
  simp only [triedBefore, Bool.or_eq_true, decide_eq_true_eq, not_or] at h
  omega

theorem longestFirst_insertSymbol {symbols : List String} (h : LongestFirst symbols) (s : String) :
    LongestFirst (insertSymbol s symbols) := by
  induction symbols with
  | nil => exact List.pairwise_singleton _ _
  | cons t rest ih =>
      obtain ⟨hrest, hsorted⟩ := List.pairwise_cons.mp h
      unfold insertSymbol
      split
      · exact h
      · split
        · next htried =>
          have hst := length_le_of_triedBefore htried
          refine List.pairwise_cons.mpr ⟨List.forall_mem_cons.mpr ⟨hst, fun u hu => ?_⟩, h⟩
          exact Nat.le_trans (hrest u hu) hst
        · next htried =>
          refine List.pairwise_cons.mpr ⟨fun u hu => ?_, ih hsorted⟩
          rcases mem_insertSymbol.mp hu with rfl | hu
          · exact length_le_of_not_triedBefore htried
          · exact hrest u hu

theorem longestFirst_sortSymbols (symbols : List String) : LongestFirst (sortSymbols symbols) := by
  induction symbols with
  | nil => exact List.Pairwise.nil
  | cons s rest ih => exact longestFirst_insertSymbol ih s

namespace LongestFirst

variable {symbols : List String} {p : String → Bool} {s t : String} (sorted : LongestFirst symbols)
  (apart : ∀ s ∈ symbols, ∀ t ∈ symbols, p s = true → p t = true →
    symbolLength s = symbolLength t → s = t)

include sorted apart

/-- Where no two symbols with a property have one length, the first one is longer than the
others. -/
theorem lt_of_find?_eq_some (h : symbols.find? p = some s) (ht : t ∈ symbols ∧ p t = true)
    (hne : t ≠ s) : symbolLength t < symbolLength s := by
  obtain ⟨hps, before, after, rfl, hbefore⟩ := List.find?_eq_some_iff_append.mp h
  obtain ⟨-, hsorted, -⟩ := List.pairwise_append.mp sorted
  have hmem : t ∈ before ∨ t = s ∨ t ∈ after := by simpa using ht.1
  rcases hmem with hmem | rfl | hmem
  · have := hbefore t hmem
    simp [ht.2] at this
  · exact absurd rfl hne
  · refine Nat.lt_of_le_of_ne ((List.pairwise_cons.mp hsorted).1 t hmem) fun heq => hne ?_
    exact apart t ht.1 s (by simp) ht.2 hps heq

theorem find?_eq_some_iff :
    symbols.find? p = some s ↔ (s ∈ symbols ∧ p s = true) ∧
      ∀ t, t ∈ symbols ∧ p t = true → t ≠ s → symbolLength t < symbolLength s := by
  constructor
  · intro h
    exact ⟨⟨List.mem_of_find?_eq_some h, List.find?_some h⟩,
      fun t => sorted.lt_of_find?_eq_some apart h⟩
  · rintro ⟨⟨hs, hps⟩, longest⟩
    obtain ⟨t, ht⟩ := Option.isSome_iff_exists.mp (List.find?_isSome.mpr ⟨s, hs, hps⟩)
    by_cases hts : t = s
    · rw [ht, hts]
    · have hlt := longest t ⟨List.mem_of_find?_eq_some ht, List.find?_some ht⟩ hts
      have hgt := sorted.lt_of_find?_eq_some apart ht ⟨hs, hps⟩ (Ne.symm hts)
      omega

end LongestFirst

/-! ### The operator at the front of a text -/

namespace Grammar

variable {g g' : Grammar} {text : List Char} {s : String}

/-- Whether a symbol is an operator, in whichever role. -/
def IsOperator (g : Grammar) (s : String) : Prop := ∃ role, (g.operator role s).isSome = true

/-- Whether an operator stands at the front of a text and does not cut a name in two there. -/
def OperatorBegins (g : Grammar) (text : List Char) (s : String) : Prop :=
  g.IsOperator s ∧ g.startsWith text s = true ∧ splitsWord text s = false

/-- Whether the list that is searched holds the operators, folded and the longest first. -/
structure SortsOperators (g : Grammar) : Prop where
  sorted : LongestFirst g.operatorSymbols
  mem_iff : ∀ s, s ∈ g.operatorSymbols ↔ g.IsOperator s
  inCase : ∀ s, g.IsOperator s → InCase g.caseSensitive s.toList

theorem SortsOperators.operatorAt?_eq_some_iff (h : g.SortsOperators) :
    g.operatorAt? text = some s ↔ g.OperatorBegins text s ∧
      ∀ other, g.OperatorBegins text other → other ≠ s → symbolLength other < symbolLength s := by
  have begins (s : String) : g.OperatorBegins text s ↔
      s ∈ g.operatorSymbols ∧ (g.startsWith text s && !splitsWord text s) = true := by
    rw [OperatorBegins, h.mem_iff, Bool.and_eq_true, Bool.not_eq_true']
  simp only [begins]
  refine h.sorted.find?_eq_some_iff fun s hs t ht hps hpt hlen => ?_
  obtain ⟨hs, hts, -⟩ := (begins s).mpr ⟨hs, hps⟩
  obtain ⟨ht, htt, -⟩ := (begins t).mpr ⟨ht, hpt⟩
  exact String.toList_inj.mp ((h.inCase s hs).eq_of_beginsWith (h.inCase t ht) hts htt hlen)

/-- The operator that is taken depends on the set of the operators and the case rule alone. -/
theorem SortsOperators.operatorAt?_congr (h : g.SortsOperators) (h' : g'.SortsOperators)
    (case : g'.caseSensitive = g.caseSensitive) (same : ∀ s, g'.IsOperator s ↔ g.IsOperator s)
    (text : List Char) : g'.operatorAt? text = g.operatorAt? text := by
  have begins (s : String) : g'.OperatorBegins text s ↔ g.OperatorBegins text s := by
    rw [OperatorBegins, OperatorBegins, same, startsWith, startsWith, case]
  refine Option.ext fun s => ?_
  rw [h'.operatorAt?_eq_some_iff, h.operatorAt?_eq_some_iff]
  simp only [begins]

theorem SortsOperators.resorted (h : g.SortsOperators) {symbols : List String}
    (enumerates : ∀ s, s ∈ symbols ↔ g.IsOperator s) :
    SortsOperators { g with operatorSymbols := sortSymbols symbols } :=
  ⟨longestFirst_sortSymbols symbols, fun s => mem_sortSymbols.trans (enumerates s), h.inCase⟩

end Grammar

namespace Declaration

variable {d : Declaration} {g : Grammar}

theorem isOperator_assemble {s : String} :
    d.assemble.IsOperator s ↔ s ∈ d.operatorNames.map d.fold := by
  have role : d.assemble.IsOperator s ↔ ((d.table d.preUnary).contains s = true ∨
      (d.table d.postUnary).contains s = true) ∨ d.naryTable.contains s = true := by
    constructor
    · rintro ⟨_ | _ | _, h⟩
      · exact Or.inl (Or.inl h)
      · exact Or.inl (Or.inr h)
      · exact Or.inr h
    · rintro ((h | h) | h)
      · exact ⟨.preUnary, h⟩
      · exact ⟨.postUnary, h⟩
      · exact ⟨.nary, h⟩
  rw [role, ← mem_operatorKeys, List.mem_append, List.mem_append, Table.mem_keys, Table.mem_keys,
    Table.mem_keys]

theorem sortsOperators_assemble (d : Declaration) : d.assemble.SortsOperators where
  sorted := longestFirst_sortSymbols _
  mem_iff s := by rw [isOperator_assemble, ← mem_operatorKeys]; exact mem_sortSymbols
  inCase s hs := by
    obtain ⟨name, -, rfl⟩ := List.mem_map.mp (isOperator_assemble.mp hs)
    exact inCase_canonicalName d.caseSensitive name

/-- **The longest operator is taken, whatever the order of registration.**  At the front of a text
a symbol is taken exactly if it is an operator that begins the text and does not cut a name in two,
and every other such operator is shorter.  The operators are the symbols that were registered in
some role, folded to the case of the grammar.  In whichever order they are enumerated before they
are sorted, the same one is taken, and so it is by every grammar with the same rule of case in which
the same symbols were registered, in any order and as often as one likes. -/
theorem build_longestMatch (h : d.build = .ok g) (text : List Char) :
    (∀ s, g.operatorAt? text = some s ↔ g.OperatorBegins text s ∧
      ∀ other, g.OperatorBegins text other → other ≠ s → symbolLength other < symbolLength s) ∧
    (∀ s, g.IsOperator s ↔ ∃ name ∈ d.operatorNames, d.fold name = s) ∧
    (∀ symbols : List String, (∀ s, s ∈ symbols ↔ g.IsOperator s) →
      { g with operatorSymbols := sortSymbols symbols }.operatorAt? text = g.operatorAt? text) ∧
    ∀ (d' : Declaration) (g' : Grammar), d'.build = .ok g' → d'.caseSensitive = d.caseSensitive →
      (∀ name, name ∈ d'.operatorNames ↔ name ∈ d.operatorNames) →
      g'.operatorAt? text = g.operatorAt? text := by
  obtain ⟨-, rfl⟩ := build_eq_ok.mp h
  have sorts := sortsOperators_assemble d
  refine ⟨fun s => sorts.operatorAt?_eq_some_iff, fun s => isOperator_assemble.trans List.mem_map,
    fun symbols enumerates => ?_, fun d' g' h' case names => ?_⟩
  · exact sorts.operatorAt?_congr (sorts.resorted enumerates) rfl (fun s => Iff.rfl) text
  · obtain ⟨-, rfl⟩ := build_eq_ok.mp h'
    refine sorts.operatorAt?_congr (sortsOperators_assemble d') case (fun s => ?_) text
    have hfold : d'.fold = d.fold := funext fun name => by rw [fold, fold, case]
    rw [isOperator_assemble, isOperator_assemble, List.mem_map, List.mem_map, hfold]
    simp only [names]

/-- In boolean algebra `!=` is taken although `!` begins the same text, also if the operators
between operands are registered the other way round. -/
theorem build_longestMatch_sample :
    Declaration.boolean.build = .ok Grammar.boolean ∧
      Grammar.boolean.operatorAt? "!= B".toList = some "!=" ∧
      Grammar.boolean.OperatorBegins "!= B".toList "!" ∧ symbolLength "!" < symbolLength "!=" ∧
      ∃ (d' : Declaration) (g' : Grammar), d'.build = .ok g' ∧
        d'.nary = Declaration.boolean.nary.reverse ∧
        g'.operatorAt? "!= B".toList = some "!=" := by
  have hd : Declaration.boolean.build = .ok Grammar.boolean :=
    build_eq_ok.mpr ⟨by decide +kernel, rfl⟩
  let d' : Declaration :=
    { Declaration.boolean with
      nary := Declaration.boolean.nary.reverse
      multary_subset := fun entry h =>
        List.mem_reverse.mpr (Declaration.boolean.multary_subset entry h) }
  have hd' : d'.build = .ok d'.assemble := build_eq_ok.mpr ⟨by decide +kernel, rfl⟩
  obtain ⟨longest, -, -, registered⟩ := build_longestMatch hd "!= B".toList
  have found : Grammar.boolean.operatorAt? "!= B".toList = some "!=" := by decide +kernel
  have begins : Grammar.boolean.OperatorBegins "!= B".toList "!" :=
    ⟨⟨.preUnary, by decide +kernel⟩, by decide +kernel, by decide +kernel⟩
  have shorter := ((longest "!=").mp found).2 "!" begins (by decide)
  refine ⟨hd, found, begins, shorter, d', _, hd', rfl, ?_⟩
  rw [registered d' _ hd' rfl (fun name => ?_), found]
  simp [d', operatorNames]

end Declaration

end OperatorGrammar
