import OperatorGrammar.Proofs.Outcome
import OperatorGrammar.Proofs.TokenTree.Nodes
import OperatorGrammar.Term.OfTree

/-! # What binding a tree comes to

Operators, functions and enclosures are bound alike: a callable is found, the number of trees that
it is called on is checked, and these trees are bound one after another.  `Grammar.Calls` says which
callable a node calls and on which trees, and `bind_eq_bindCall` that binding is such a call for all
of these nodes.  The trees of a call are lower than its node (`Calls.height_lt`), although those of
an enclosure may stand two levels below it, so that properties of terms are proved along the calls
of their trees (`bind_induction`). -/

namespace OperatorGrammar

/-- Whether a node stands for what its operator or function does with the trees below it. -/
def TokenKind.isApplied : TokenKind → Bool
  | .preUnary | .postUnary | .binary | .multary | .function => true
  | _ => false

namespace Grammar

variable (g : Grammar)

/-- The trees that an enclosure is applied to: the operands of a separator at the root of its
content, or the content alone. -/
def contents : TokenTree → List TokenTree
  | .node name kind children =>
    if g.isSeparator name kind then children else [.node name kind children]

/-- What a node calls, and the trees that it calls it on. -/
inductive Calls : TokenTree → Callable → List TokenTree → Prop
  | applied {name : String} {kind : TokenKind} {children : List TokenTree} {callable : Callable}
      (applied : kind.isApplied = true) (found : g.callableAt kind name = .ok callable) :
      Calls (.node name kind children) callable children
  | enclosed {name : String} {content : TokenTree} {callable : Callable}
      (found : g.enclosures.get? name = some callable) :
      Calls (.node name .opening [content]) callable (g.contents content)

variable {g}

theorem callableOf_eq_ok {role : Role} {symbol : String} {callable : Callable} :
    g.callableOf role symbol = .ok callable ↔ g.operator role symbol = some callable := by
  unfold callableOf
  cases g.operator role symbol with
  | none => simp
  | some c => simp

theorem callableOfFunction_eq_ok {name : String} {callable : Callable} :
    g.callableOfFunction name = .ok callable ↔ g.functions.get? name = some callable := by
  unfold callableOfFunction
  cases g.functions.get? name with
  | none => simp
  | some c => simp

/-- The entries of the tables in which callables are found. -/
def callEntries (g : Grammar) : List (String × Callable) :=
  g.preUnary.entries ++ g.postUnary.entries ++ g.nary.entries ++ g.functions.entries ++
    g.enclosures.entries

theorem Calls.mem_callEntries {tree : TokenTree} {callable : Callable} {trees : List TokenTree}
    (h : g.Calls tree callable trees) : (tree.name, callable) ∈ g.callEntries := by
  unfold callEntries
  simp only [List.mem_append]
  cases h with
  | enclosed found => exact Or.inr (Table.mem_entries_of_get? found)
  | @applied name kind _ _ applied found =>
      cases kind with
      | preUnary =>
          have hmem := Table.mem_entries_of_get? (callableOf_eq_ok.mp found)
          exact Or.inl (Or.inl (Or.inl (Or.inl hmem)))
      | postUnary =>
          have hmem := Table.mem_entries_of_get? (callableOf_eq_ok.mp found)
          exact Or.inl (Or.inl (Or.inl (Or.inr hmem)))
      | binary | multary =>
          have hmem := Table.mem_entries_of_get? (callableOf_eq_ok.mp found)
          exact Or.inl (Or.inl (Or.inr hmem))
      | function =>
          have hmem := Table.mem_entries_of_get? (callableOfFunction_eq_ok.mp found)
          exact Or.inl (Or.inr hmem)
      | opening | closing | number | identifier | top => cases applied

/-- A call goes down in the tree. -/
theorem Calls.height_lt {tree t : TokenTree} {callable : Callable} {trees : List TokenTree}
    (h : g.Calls tree callable trees) (ht : t ∈ trees) : t.height < tree.height := by
  cases h with
  | applied => exact TokenTree.height_lt_of_mem ht
  | @enclosed name content =>
      have hcontent : content.height < (TokenTree.node name .opening [content]).height :=
        TokenTree.height_lt_of_mem List.mem_cons_self
      obtain ⟨name', kind', children'⟩ := content
      rw [contents] at ht
      by_cases hs : g.isSeparator name' kind' = true
      · rw [if_pos hs] at ht
        exact Nat.lt_trans (TokenTree.height_lt_of_mem ht) hcontent
      · rw [if_neg hs] at ht
        rwa [List.mem_singleton.mp ht]

end Grammar

/-- What holds of a tree whenever it holds of all lower trees holds of every tree. -/
@[elab_as_elim]
theorem TokenTree.height_induction {P : TokenTree → Prop}
    (lower : ∀ t : TokenTree, (∀ u : TokenTree, u.height < t.height → P u) → P t)
    (t : TokenTree) : P t :=
  lower t fun u _ => height_induction lower u
termination_by t.height

namespace Term

variable {g : Grammar} {tree : TokenTree} {trees : List TokenTree} {callable : Callable}
  {label : String} {t : Term} {e : ParseError}

theorem bindAll_eq_mapM (trees : List TokenTree) : bindAll g trees = trees.mapM (bind g) := by
  induction trees with
  | nil => rfl
  | cons tree trees ih => rw [bindAll, List.mapM_cons, ih]

/-- The call of a callable on the terms of some trees. -/
def bindCall (g : Grammar) (label : String) (callable : Callable) (trees : List TokenTree) :
    Except ParseError Term := do
  callable.checkArity label trees.length
  let arguments ← trees.mapM (bind g)
  return call label callable arguments

/-- Binding a node that calls something is this call. -/
theorem bind_eq_bindCall (h : g.Calls tree callable trees) :
    bind g tree = bindCall g tree.name callable trees := by
  unfold bindCall
  cases h with
  | @applied name kind _ _ applied found =>
      cases kind with
      | preUnary | postUnary | binary | multary | function =>
          simp only [bind, found, bindAll_eq_mapM, TokenTree.name]
          rfl
      | _ => cases applied
  | @enclosed name content _ found =>
      obtain ⟨name', kind', children'⟩ := content
      simp only [bind, found, TokenTree.name, Grammar.contents]
      split
      · rw [bindAll_eq_mapM]
      · simp only [List.mapM_cons, List.mapM_nil, List.length_singleton, bind_assoc, pure_bind]

theorem checkArity_eq_ok {count : Nat} :
    callable.checkArity label count = .ok () ↔ callable.arity.admits count = true := by
  unfold Callable.checkArity
  split
  · next h => simp [h]
  · next h => simp [h]

theorem checkArity_eq_error {count : Nat} :
    callable.checkArity label count = .error e ↔
      callable.arity.admits count = false ∧ e = .arityMismatch label callable.arity count := by
  unfold Callable.checkArity
  split
  · next h => simp [h]
  · next h => simp [h, eq_comm]

theorem bindCall_eq_ok :
    bindCall g label callable trees = .ok t ↔
      callable.arity.admits trees.length = true ∧
        ∃ arguments, List.Forall₂ (fun tree a => bind g tree = .ok a) trees arguments ∧
          t = call label callable arguments := by
  unfold bindCall
  simp only [bind_eq_ok, mapM_eq_ok, pure_eq_ok, eq_comm (b := t)]
  exact ⟨fun ⟨_, hcheck, h⟩ => ⟨checkArity_eq_ok.mp hcheck, h⟩,
    fun ⟨hadmits, h⟩ => ⟨(), checkArity_eq_ok.mpr hadmits, h⟩⟩

theorem bindCall_eq_error (h : bindCall g label callable trees = .error e) :
    (callable.arity.admits trees.length = false ∧
        e = .arityMismatch label callable.arity trees.length) ∨
      ∃ tree ∈ trees, bind g tree = .error e := by
  rcases bind_eq_error.mp h with h | ⟨_, -, h⟩
  · exact Or.inl (checkArity_eq_error.mp h)
  · rcases bind_eq_error.mp h with h | ⟨_, -, h⟩
    · exact Or.inr (mapM_eq_error h)
    · cases h

/-! ### The other nodes -/

theorem bind_root (name : String) (child : TokenTree) :
    bind g (.node name .top [child]) = bind g child := by
  simp only [bind]

theorem bind_group {name : String} (h : g.enclosures.get? name = none) (child : TokenTree) :
    bind g (.node name .opening [child]) = bind g child := by
  obtain ⟨name', kind', children'⟩ := child
  simp only [bind, h]

theorem bind_number (name : String) : bind g (.leaf name .number) = ofLiteral name := by
  simp [TokenTree.leaf, bind]

theorem bind_identifier (name : String) :
    bind g (.leaf name .identifier) = g.bindIdentifier name := by
  simp [TokenTree.leaf, bind]

theorem ofLiteral_eq_ok {name : String} :
    ofLiteral name = .ok t ↔
      ∃ x, Double.readLiteral? name = some x ∧ t = .constant name (.number x) := by
  unfold ofLiteral
  cases Double.readLiteral? name with
  | none => simp
  | some x => simp [eq_comm]

theorem ofLiteral_eq_error {name : String} :
    ofLiteral name = .error e ↔
      Double.readLiteral? name = none ∧ e = .malformedTree name := by
  unfold ofLiteral
  cases Double.readLiteral? name with
  | none => simp [eq_comm]
  | some x => simp

theorem bindIdentifier_eq_ok {name : String} :
    g.bindIdentifier name = .ok t ↔
      (∃ value, g.constants.get? name = some value ∧ t = .constant name value) ∨
        ∃ kind, g.constants.get? name = none ∧ g.variableKind name = some kind ∧
          t = .free name kind := by
  unfold Grammar.bindIdentifier
  cases g.constants.get? name with
  | some value => simp [eq_comm]
  | none =>
      cases g.variableKind name with
      | none => simp
      | some kind => simp [eq_comm]

/-- **What a tree is bound to**, node by node: a property that each kind of node hands on from the
trees it is bound through holds of every tree and its term. -/
@[elab_as_elim]
theorem bind_induction {P : TokenTree → Term → Prop}
    (root : ∀ name child t, bind g child = .ok t → P child t → P (.node name .top [child]) t)
    (group : ∀ name child t, g.enclosures.get? name = none → bind g child = .ok t → P child t →
      P (.node name .opening [child]) t)
    (literal : ∀ name x, Double.readLiteral? name = some x →
      P (.leaf name .number) (.constant name (.number x)))
    (constant : ∀ name value, g.constants.get? name = some value →
      P (.leaf name .identifier) (.constant name value))
    (free : ∀ name kind, g.constants.get? name = none → g.variableKind name = some kind →
      P (.leaf name .identifier) (.free name kind))
    (called : ∀ tree callable trees arguments, g.Calls tree callable trees →
      callable.arity.admits trees.length = true →
      List.Forall₂ (fun tree a => bind g tree = .ok a ∧ P tree a) trees arguments →
      P tree (call tree.name callable arguments))
    {tree : TokenTree} {t : Term} (h : bind g tree = .ok t) : P tree t := by
  induction tree using TokenTree.height_induction generalizing t with
  | lower tree ih =>
      have byCall {callable : Callable} {trees : List TokenTree}
          (hcalls : g.Calls tree callable trees) : P tree t := by
        rw [bind_eq_bindCall hcalls] at h
        obtain ⟨hadmits, arguments, harguments, rfl⟩ := bindCall_eq_ok.mp h
        refine called tree callable trees arguments hcalls hadmits ?_
        exact forall₂_and_mem harguments fun u a hu ha => ⟨ha, ih u (hcalls.height_lt hu) ha⟩
      obtain ⟨name, kind, children⟩ := tree
      have byContent {child : TokenTree} (hc : children = [child]) (hb : bind g child = .ok t) :
          P child t := by
        subst hc
        exact ih child (TokenTree.height_lt_of_mem List.mem_cons_self) hb
      cases kind with
      | top =>
          match children with
          | [] => cases h
          | [child] =>
              rw [bind_root] at h
              exact root name child t h (byContent rfl h)
          | _ :: _ :: _ => cases h
      | opening =>
          match children with
          | [] => cases h
          | _ :: _ :: _ => cases h
          | [child] =>
              cases he : g.enclosures.get? name with
              | some callable => exact byCall (Grammar.Calls.enclosed he)
              | none =>
                  rw [bind_group he] at h
                  exact group name child t he h (byContent rfl h)
      | number =>
          match children with
          | [] =>
              obtain ⟨x, hx, rfl⟩ := ofLiteral_eq_ok.mp ((bind_number name).symm.trans h)
              exact literal name x hx
          | _ :: _ => cases h
      | identifier =>
          match children with
          | [] =>
              rcases bindIdentifier_eq_ok.mp ((bind_identifier name).symm.trans h) with
                ⟨value, hv, rfl⟩ | ⟨kind, hn, hk, rfl⟩
              · exact constant name value hv
              · exact free name kind hn hk
          | _ :: _ => cases h
      | preUnary | postUnary | binary | multary | function =>
          have happlied := h
          simp only [bind] at happlied
          obtain ⟨callable, hc, -⟩ := bind_eq_ok.mp happlied
          exact byCall (Grammar.Calls.applied rfl hc)
      | closing => cases h

theorem ofTree_eq_ok :
    ofTree g tree = .ok t ↔ tree.depth ≤ (g.maxDepth + 1).toNat ∧ bind g tree = .ok t := by
  unfold ofTree
  split
  · next h => simp only [reduceCtorEq, Nat.not_le.mpr h, false_and]
  · next h => simp only [Nat.le_of_not_lt h, true_and]

end Term

end OperatorGrammar
