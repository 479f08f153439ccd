import OperatorGrammar.Proofs.Bundled
import OperatorGrammar.Proofs.Depth.Limit
import OperatorGrammar.Proofs.Origin
import OperatorGrammar.Proofs.Scan.Backed
import OperatorGrammar.Proofs.Term.Faults

/-! # Which trees of the bundled languages are bound

The nodes of a tree that is built from a text have roles that the grammar backs (`backs_of_ofText`)
and children as the order of operations demands.  In a grammar whose tables fit the roles
(`Grammar.Furnished`) such nodes can be at fault only as literals, functions or enclosures
(`Grammar.Furnished.bindable`).  The bundled grammars are of this kind, and of their enclosures only
the bars of real arithmetic do not take every number of arguments (`Term.ofTree_bundled`). -/

namespace OperatorGrammar

variable {g : Grammar} {input : String} {tree expression n : TokenTree} {name : String}
  {callable : Callable}

/-! ### The nodes of trees of texts -/

theorem ofText_eq_top (h : TokenTree.ofText g input = .ok tree) :
    ∃ expression, tree = .top expression := by
  obtain ⟨tokens, -, h⟩ := bind_eq_ok.mp h
  obtain ⟨row, m, -, -, rfl⟩ := ofTokens_eq_ok.mp h
  exact ⟨m.tree, rfl⟩

theorem respectsOrder_of_ofText (h : TokenTree.ofText g input = .ok (.top expression)) :
    ∀ n ∈ expression.nodes, g.RespectsOrder n := by
  obtain ⟨tokens, -, h⟩ := bind_eq_ok.mp h
  obtain ⟨row, m, hreads, hbuilt, htop⟩ := ofTokens_eq_ok.mp h
  rw [TokenTree.top_injective htop]
  exact (Grammar.buildExpression_ordered (Grammar.orderedRow_of_reads hreads) hbuilt).1

/-- The role of every node of a text is backed. -/
theorem backs_of_ofText (h : TokenTree.ofText g input = .ok (.top expression)) :
    ∀ n ∈ expression.nodes, g.Backs n.kind n.name := by
  obtain ⟨tokens, htokens, h⟩ := bind_eq_ok.mp h
  intro n hn
  obtain ⟨token, hmem, hname, hkind⟩ := exists_token_of_mem_nodes h n hn
  have backs := Scan.backed_of_tokenize htokens token hmem
  rw [hname] at backs
  rcases hkind with hkind | ⟨htoken, hnode⟩
  · rwa [hkind] at backs
  · exact (Grammar.backs_of_isInfix hnode).mpr ((Grammar.backs_of_isInfix htoken).mp backs)

/-! ### Grammars whose tables fit the roles -/

namespace Grammar

/-- The arity of the callable of a name in a table. -/
def arityIn (table : Table Callable) (name : String) : Option Arity :=
  (table.get? name).map Callable.arity

/-- Every name is at least a variable, an operator before or behind its operand takes one argument,
and one between its operands takes two, or any number if it is multary. -/
structure Furnished (g : Grammar) : Prop where
  free : g.freeVariables = true
  preUnary : ∀ s ∈ g.preUnary.keys, arityIn g.preUnary s = some (.exactly 1)
  postUnary : ∀ s ∈ g.postUnary.keys, arityIn g.postUnary s = some (.exactly 1)
  between : ∀ s ∈ g.betweenSymbols,
    arityIn g.nary s = some (if g.isMultary s then .any else .exactly 2)

instance (g : Grammar) : Decidable g.Furnished :=
  decidable_of_iff
    (g.freeVariables = true ∧
      (∀ s ∈ g.preUnary.keys, arityIn g.preUnary s = some (.exactly 1)) ∧
      (∀ s ∈ g.postUnary.keys, arityIn g.postUnary s = some (.exactly 1)) ∧
      ∀ s ∈ g.betweenSymbols, arityIn g.nary s = some (if g.isMultary s then .any else .exactly 2))
    ⟨fun ⟨hf, hpre, hpost, hb⟩ => ⟨hf, hpre, hpost, hb⟩,
      fun ⟨hf, hpre, hpost, hb⟩ => ⟨hf, hpre, hpost, hb⟩⟩

theorem furnished_of_bundled : ∀ g ∈ bundled, g.Furnished := by decide +kernel

theorem bindIdentifier_of_freeVariables (h : g.freeVariables = true) (name : String) :
    ∃ t, g.bindIdentifier name = .ok t := by
  unfold bindIdentifier
  cases g.constants.get? name with
  | some value => exact ⟨_, rfl⟩
  | none =>
      unfold variableKind
      cases g.variableKinds.get? name with
      | some kind => exact ⟨_, rfl⟩
      | none => exact ⟨_, by rw [if_pos h]⟩

/-- In a furnished grammar a node whose role is backed can only be at fault as `Fault` says. -/
theorem Furnished.bindable (furnished : g.Furnished) (ordered : g.RespectsOrder n)
    (backs : g.Backs n.kind n.name) : g.Bindable n := by
  have admits {table : Table Callable} {name : String} {arity : Arity}
      (h : arityIn table name = some arity) :
      ∃ callable, table.get? name = some callable ∧ callable.arity = arity :=
    Option.map_eq_some_iff.mp h
  obtain ⟨name, kind, children⟩ := n
  cases kind with
  | number => exact ordered
  | identifier => exact ⟨ordered, bindIdentifier_of_freeVariables furnished.free name⟩
  | preUnary =>
      obtain ⟨callable, found, harity⟩ :=
        admits (furnished.preUnary name (Table.mem_keys.mpr backs))
      exact ⟨callable, callableOf_eq_ok.mpr found, by simp [harity, Arity.admits, ordered.1]⟩
  | postUnary =>
      obtain ⟨callable, found, harity⟩ :=
        admits (furnished.postUnary name (Table.mem_keys.mpr backs))
      exact ⟨callable, callableOf_eq_ok.mpr found, by simp [harity, Arity.admits, ordered.1]⟩
  | binary | multary =>
      obtain ⟨callable, found, harity⟩ :=
        admits (furnished.between name (IsBetween.mem_betweenSymbols backs))
      refine ⟨callable, callableOf_eq_ok.mpr found, ?_⟩
      by_cases hm : g.isMultary name = true
      · simp [harity, hm, Arity.admits]
      · obtain ⟨left, right, rfl, -⟩ := (operandsOrdered_of_not_isMultary hm).mp ordered
        simp [harity, hm, Arity.admits]
  | function =>
      obtain ⟨callable, found⟩ := (g.functions.contains_iff name).mp backs
      exact ⟨callable, callableOfFunction_eq_ok.mpr found⟩
  | opening => exact ordered
  | closing | top => exact ordered

/-! ### Faults in the bundled languages -/

/-- Only the bars of real arithmetic enclose one argument; every other enclosure takes any number
of them. -/
theorem enclosure_of_bundled (hg : g ∈ bundled) (found : g.enclosures.get? name = some callable) :
    callable.arity = .any ∨ g = real ∧ name = "|" ∧ callable.arity = .exactly 1 := by
  have hname : name ∈ g.enclosures.keys :=
    Table.mem_keys.mpr ((Table.contains_iff _ _).mpr ⟨callable, found⟩)
  have harity : arityIn g.enclosures name = some callable.arity := by simp [arityIn, found]
  simp only [bundled, List.mem_cons, List.not_mem_nil, or_false] at hg
  rcases hg with rfl | rfl | rfl
  · have arities : ∀ s ∈ real.enclosures.keys, arityIn real.enclosures s = some .any ∨
        s = "|" ∧ arityIn real.enclosures s = some (.exactly 1) := by decide +kernel
    rcases arities name hname with h | ⟨hbar, h⟩
    · exact Or.inl (Option.some.inj (harity.symm.trans h))
    · exact Or.inr ⟨rfl, hbar, Option.some.inj (harity.symm.trans h)⟩
  · have arities : ∀ s ∈ boolean.enclosures.keys,
        arityIn boolean.enclosures s = some .any := by decide +kernel
    exact Or.inl (Option.some.inj (harity.symm.trans (arities name hname)))
  · have arities : ∀ s ∈ test.enclosures.keys,
        arityIn test.enclosures s = some .any := by decide +kernel
    exact Or.inl (Option.some.inj (harity.symm.trans (arities name hname)))

theorem exists_bars : ∃ callable, real.enclosures.get? "|" = some callable ∧
    callable.arity = .exactly 1 := by
  have h : arityIn real.enclosures "|" = some (.exactly 1) := by decide +kernel
  exact Option.map_eq_some_iff.mp h

theorem readLiteral?_eq_none {text : String} :
    Double.readLiteral? text = none ↔
      ¬ ∃ x, Double.read? text = some x ∧ x.isFinite = true := by
  unfold Double.readLiteral?
  cases Double.read? text with
  | none => simp
  | some x => simp [Option.filter]

theorem length_contents {content : TokenTree} (ordered : g.RespectsOrder content) :
    (g.contents content).length = 1 ↔ g.isSeparator content.name content.kind = false := by
  obtain ⟨name, kind, children⟩ := content
  rw [contents]
  by_cases hs : g.isSeparator name kind = true
  · have hi : kind.isInfix = true := (Bool.and_eq_true_iff.mp hs).1
    have two := ((respectsOrder_of_isInfix hi).mp ordered).two_le_length
    rw [if_pos hs]
    exact iff_of_false (by omega) fun h => Bool.noConfusion (hs.symm.trans h)
  · rw [if_neg hs]
    exact iff_of_true rfl (Bool.eq_false_iff.mpr hs)

theorem contents_of_isSeparator {content : TokenTree}
    (h : g.isSeparator content.name content.kind = true) :
    g.contents content = content.children := by
  obtain ⟨name, kind, children⟩ := content
  exact if_pos h

theorem not_fault_iff (hg : g ∈ bundled) (ordered : g.RespectsOrder n)
    (below : ∀ c ∈ n.children, g.RespectsOrder c) (backs : g.Backs n.kind n.name) :
    (∀ e, ¬ g.Fault n e) ↔
      (n.kind = .number → ∃ x, Double.read? n.name = some x ∧ x.isFinite = true) ∧
      (n.kind = .function → ∃ callable, g.functions.get? n.name = some callable ∧
        callable.arity.admits n.children.length = true) ∧
      (g = real → n.kind = .opening → n.name = "|" →
        ∀ c ∈ n.children, g.isSeparator c.name c.kind = false) := by
  constructor
  · intro sound
    obtain ⟨name, kind, children⟩ := n
    refine ⟨?_, ?_, ?_⟩
    · rintro rfl
      obtain rfl : children = [] := ordered
      by_contra infinite
      exact sound _ (Fault.literal (readLiteral?_eq_none.mpr infinite))
    · rintro rfl
      obtain ⟨callable, found⟩ := (g.functions.contains_iff name).mp backs
      refine ⟨callable, found, ?_⟩
      by_contra refused
      exact sound _ (Fault.function found (Bool.eq_false_iff.mpr refused))
    · rintro rfl rfl rfl
      obtain ⟨content, rfl⟩ := List.length_eq_one_iff.mp ordered
      obtain ⟨callable, found, harity⟩ := exists_bars
      have hcontent : real.RespectsOrder content := below content List.mem_cons_self
      refine List.forall_mem_singleton.mpr ((length_contents hcontent).mp ?_)
      by_contra other
      refine sound _ (Fault.enclosure found ?_)
      rw [harity]
      exact beq_false_of_ne other
  · rintro ⟨number, function, bars⟩ e fault
    cases fault with
    | literal refused => exact readLiteral?_eq_none.mp refused (number rfl)
    | function found refused =>
        obtain ⟨callable, found', admits⟩ := function rfl
        obtain rfl := Option.some.inj (found.symm.trans found')
        exact absurd admits (Bool.eq_false_iff.mp refused)
    | @enclosure name content callable found refused =>
        rcases enclosure_of_bundled hg found with harity | ⟨rfl, rfl, harity⟩
        · rw [harity] at refused
          cases refused
        · have alone := (length_contents (below content List.mem_cons_self)).mpr
            (bars rfl rfl rfl content List.mem_cons_self)
          rw [harity, alone] at refused
          cases refused

theorem Fault.of_bundled {e : ParseError} (fault : g.Fault n e) (hg : g ∈ bundled)
    (below : ∀ c ∈ n.children, g.RespectsOrder c) :
    (n.kind = .number ∧ e = .malformedTree n.name) ∨
      (n.kind = .function ∧ ∃ callable, g.functions.get? n.name = some callable ∧
        callable.arity.admits n.children.length = false ∧
        e = .arityMismatch n.name callable.arity n.children.length) ∨
      (g = real ∧ n.kind = .opening ∧ n.name = "|" ∧
        ∃ c ∈ n.children, g.isSeparator c.name c.kind = true ∧
          e = .arityMismatch "|" (.exactly 1) c.children.length) := by
  cases fault with
  | literal refused => exact Or.inl ⟨rfl, rfl⟩
  | function found refused => exact Or.inr (Or.inl ⟨rfl, _, found, refused, rfl⟩)
  | @enclosure name content callable found refused =>
      rcases enclosure_of_bundled hg found with harity | ⟨rfl, rfl, harity⟩
      · rw [harity] at refused
        cases refused
      · rw [harity] at refused ⊢
        have hcontent := below content List.mem_cons_self
        have separated : real.isSeparator content.name content.kind = true := by
          rw [← Bool.not_eq_false]
          intro alone
          rw [(length_contents hcontent).mpr alone] at refused
          cases refused
        refine Or.inr (Or.inr ⟨rfl, rfl, rfl, content, List.mem_cons_self, separated, ?_⟩)
        rw [contents_of_isSeparator separated]

end Grammar

theorem exists_read_of_backs (h : g.Backs .number name) : ∃ x, Double.read? name = some x := by
  obtain ⟨cs, hcs, rfl⟩ := h
  obtain ⟨n, k, hread⟩ := hcs.read?
  exact ⟨_, Option.map_eq_some_iff.mpr ⟨_, hread, rfl⟩⟩

theorem forall_mem_nodes_top {P : TokenTree → Prop} (htop : P (.top expression)) :
    (∀ n ∈ (TokenTree.top expression).nodes, P n) ↔ ∀ n ∈ expression.nodes, P n := by
  refine TokenTree.forall_mem_nodes.trans ?_
  rw [List.forall_mem_singleton]
  exact and_iff_right htop

theorem maxDepth_of_bundled : ∀ g ∈ Grammar.bundled,
    0 < g.maxDepth.toNat ∧ (g.maxDepth + 1).toNat = g.maxDepth.toNat + 1 := by
  decide +kernel

/-- Trees of texts of the bundled languages are never too deep for binding. -/
theorem ofTree_eq_bind (hg : g ∈ Grammar.bundled)
    (h : TokenTree.ofText g input = .ok (.top expression)) :
    Term.ofTree g (.top expression) = Term.bind g expression := by
  obtain ⟨pos, hlimit⟩ := maxDepth_of_bundled g hg
  have hdepth := TokenTree.depth_le_of_ofText pos h
  unfold Term.ofTree
  rw [hlimit, if_neg (by omega)]
  exact Term.bind_root _ _

namespace Term

/-- **Binding the texts of the bundled languages.**  The tree of a text is bound exactly if every
number is finite, every function has a number of arguments that it takes, and in real arithmetic no
bars stand around separated arguments.  Every number spells one; and whenever a tree is not bound,
the error is that for a number that is not finite, for a function, or for bars. -/
theorem ofTree_bundled (hg : g ∈ Grammar.bundled) (h : TokenTree.ofText g input = .ok tree) :
    ((∃ t, ofTree g tree = .ok t) ↔
      (∀ n ∈ tree.nodes, n.kind = .number →
        ∃ x, Double.read? n.name = some x ∧ x.isFinite = true) ∧
      (∀ n ∈ tree.nodes, n.kind = .function →
        ∃ callable, g.functions.get? n.name = some callable ∧
          callable.arity.admits n.children.length = true) ∧
      (g = Grammar.real → ∀ n ∈ tree.nodes, n.kind = .opening → n.name = "|" →
        ∀ c ∈ n.children, g.isSeparator c.name c.kind = false)) ∧
    (∀ n ∈ tree.nodes, n.kind = .number → ∃ x, Double.read? n.name = some x) ∧
    ∀ e, ofTree g tree = .error e → ∃ n ∈ tree.nodes,
      (n.kind = .number ∧ e = .malformedTree n.name) ∨
      (n.kind = .function ∧ ∃ callable, g.functions.get? n.name = some callable ∧
        callable.arity.admits n.children.length = false ∧
        e = .arityMismatch n.name callable.arity n.children.length) ∨
      (g = Grammar.real ∧ n.kind = .opening ∧ n.name = "|" ∧
        ∃ c ∈ n.children, g.isSeparator c.name c.kind = true ∧
          e = .arityMismatch "|" (.exactly 1) c.children.length) := by
  obtain ⟨expression, rfl⟩ := ofText_eq_top h
  have ordered := respectsOrder_of_ofText h
  have backs := backs_of_ofText h
  have below (n : TokenTree) (hn : n ∈ expression.nodes) :
      ∀ c ∈ n.children, g.RespectsOrder c := fun c hc =>
    ordered c (TokenTree.mem_nodes_of_mem_children hn hc)
  have bindable (n : TokenTree) (hn : n ∈ expression.nodes) : g.Bindable n :=
    (Grammar.furnished_of_bundled g hg).bindable (ordered n hn) (backs n hn)
  have hsub : expression.nodes ⊆ (TokenTree.top expression).nodes :=
    TokenTree.nodes_subset_of_mem List.mem_cons_self
  rw [ofTree_eq_bind hg h]
  refine ⟨?_, ?_, ?_⟩
  · calc (∃ t, bind g expression = .ok t)
        ↔ ∀ n ∈ expression.nodes, ∀ e, ¬ g.Fault n e := exists_bind_iff bindable
      _ ↔ _ := forall₂_congr fun n hn =>
          Grammar.not_fault_iff hg (ordered n hn) (below n hn) (backs n hn)
      _ ↔ _ := ?_
    constructor
    · intro sound
      refine ⟨?_, ?_, fun hreal => ?_⟩
      · exact (forall_mem_nodes_top nofun).mpr fun n hn => (sound n hn).1
      · exact (forall_mem_nodes_top nofun).mpr fun n hn => (sound n hn).2.1
      · exact (forall_mem_nodes_top nofun).mpr fun n hn => (sound n hn).2.2 hreal
    · rintro ⟨number, function, bars⟩ n hn
      exact ⟨number n (hsub hn), function n (hsub hn), fun hreal => bars hreal n (hsub hn)⟩
  · exact (forall_mem_nodes_top nofun).mpr fun n hn hk => exists_read_of_backs (hk ▸ backs n hn)
  · intro e he
    obtain ⟨n, hn, fault⟩ := exists_fault_of_bind bindable he
    exact ⟨n, hsub hn, fault.of_bundled hg (below n hn)⟩

/-- Bars around two arguments are not bound. -/
theorem ofTree_bundled_sample :
    Grammar.real ∈ Grammar.bundled ∧
      ∃ tree, TokenTree.ofText Grammar.real "sin(x) + |1, 2|" = .ok tree ∧
        ¬ ∃ t, ofTree Grammar.real tree = .ok t := by
  have hmem : Grammar.real ∈ Grammar.bundled := by simp [Grammar.bundled]
  have htree : TokenTree.ofText Grammar.real "sin(x) + |1, 2|" = .ok (.top
      (.node "+" .multary [
        .node "sin" .function [.leaf "x" .identifier],
        .node "|" .opening [
          .node "," .multary [.leaf "1" .number, .leaf "2" .number]]])) := by decide +kernel
  refine ⟨hmem, _, htree, ?_⟩
  rw [(ofTree_bundled hmem htree).1]
  rintro ⟨-, -, bars⟩
  have alone := bars rfl (.node "|" .opening
    [.node "," .multary [.leaf "1" .number, .leaf "2" .number]])
    (by simp [TokenTree.nodes, TokenTree.nodesOfAll, TokenTree.top]) rfl rfl _ List.mem_cons_self
  revert alone
  decide +kernel

end Term

end OperatorGrammar
