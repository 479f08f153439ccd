import OperatorGrammar.Proofs.Term.Binding

/-! # The faults for which a tree is not bound

A node is at fault (`Grammar.Fault`) if it is a literal past the largest number, a function with a
number of arguments that it does not take, or an enclosure around a number of trees that it does not
take.  Binding meets every such node, and if nothing else is wrong with any node
(`Grammar.Bindable`), it fails for nothing else (`exists_bind_iff`, `exists_fault_of_bind`). -/

namespace OperatorGrammar

namespace Grammar

variable (g : Grammar)

/-- The faults of nodes, with the errors in which they are reported. -/
inductive Fault : TokenTree → ParseError → Prop
  | literal {name : String} (refused : Double.readLiteral? name = none) :
      Fault (.leaf name .number) (.malformedTree name)
  | function {name : String} {children : List TokenTree} {callable : Callable}
      (found : g.functions.get? name = some callable)
      (refused : callable.arity.admits children.length = false) :
      Fault (.node name .function children)
        (.arityMismatch name callable.arity children.length)
  | enclosure {name : String} {content : TokenTree} {callable : Callable}
      (found : g.enclosures.get? name = some callable)
      (refused : callable.arity.admits (g.contents content).length = false) :
      Fault (.node name .opening [content])
        (.arityMismatch name callable.arity (g.contents content).length)

/-- Whether a node can have no other fault than these: a name means something, an operator is there
for the number of its operands, a function is there, and a group has one content. -/
def Bindable : TokenTree → Prop
  | .node name kind children =>
    match kind with
    | .number => children = []
    | .identifier => children = [] ∧ ∃ t, g.bindIdentifier name = .ok t
    | .preUnary | .postUnary | .binary | .multary =>
      ∃ callable, g.callableAt kind name = .ok callable ∧
        callable.arity.admits children.length = true
    | .function => ∃ callable, g.callableAt kind name = .ok callable
    | .opening => children.length = 1
    | .closing | .top => False

variable {g} {tree content n : TokenTree} {callable : Callable} {trees : List TokenTree}

theorem Calls.nodes_subset (h : g.Calls tree callable trees) {t : TokenTree} (ht : t ∈ trees) :
    t.nodes ⊆ tree.nodes := by
  cases h with
  | applied => exact TokenTree.nodes_subset_of_mem ht
  | @enclosed name content =>
      have hcontent : content.nodes ⊆ (TokenTree.node name .opening [content]).nodes :=
        TokenTree.nodes_subset_of_mem List.mem_cons_self
      obtain ⟨name', kind', children'⟩ := content
      rw [contents] at ht
      split at ht
      · exact List.Subset.trans (TokenTree.nodes_subset_of_mem ht) hcontent
      · rwa [List.mem_singleton.mp ht]

theorem Fault.not_isInfix {e : ParseError} (h : g.Fault n e) : n.kind.isInfix = false := by
  cases h with
  | literal | function | enclosure => rfl

end Grammar

namespace Term

open Grammar

variable {g : Grammar} {tree n : TokenTree} {t : Term} {e : ParseError}

/-- Binding fails only for the fault of a node. -/
theorem exists_fault_of_bind (hb : ∀ n ∈ tree.nodes, g.Bindable n) (h : bind g tree = .error e) :
    ∃ n ∈ tree.nodes, g.Fault n e := by
  induction tree using TokenTree.height_induction with
  | lower tree ih =>
      -- A call fails for its own arity, or below.
      have byCall {callable : Callable} {trees : List TokenTree}
          (hcalls : g.Calls tree callable trees)
          (own : callable.arity.admits trees.length = false →
            e = .arityMismatch tree.name callable.arity trees.length → g.Fault tree e) :
          ∃ n ∈ tree.nodes, g.Fault n e := by
        rw [bind_eq_bindCall hcalls] at h
        rcases bindCall_eq_error h with ⟨refused, he⟩ | ⟨u, hu, he⟩
        · exact ⟨tree, tree.mem_nodes_self, own refused he⟩
        · have hsub := hcalls.nodes_subset hu
          obtain ⟨n, hn, fault⟩ :=
            ih u (hcalls.height_lt hu) (fun n hn => hb n (hsub hn)) he
          exact ⟨n, hsub hn, fault⟩
      obtain ⟨name, kind, children⟩ := tree
      have hself := (TokenTree.forall_mem_nodes.mp hb).1
      cases kind with
      | number =>
          obtain rfl : children = [] := hself
          rw [show bind g (.node name .number []) = ofLiteral name from bind_number name] at h
          obtain ⟨refused, rfl⟩ := ofLiteral_eq_error.mp h
          exact ⟨_, TokenTree.mem_nodes_self _, Fault.literal refused⟩
      | identifier =>
          obtain ⟨rfl, t, ht⟩ := hself
          rw [show bind g (.node name .identifier []) = g.bindIdentifier name from
            bind_identifier name, ht] at h
          cases h
      | preUnary | postUnary | binary | multary =>
          obtain ⟨callable, found, admits⟩ := hself
          refine byCall (Calls.applied rfl found) fun refused _ => ?_
          rw [admits] at refused
          cases refused
      | function =>
          obtain ⟨callable, found⟩ := hself
          refine byCall (Calls.applied rfl found) fun refused he => ?_
          rw [he]
          exact Fault.function (callableOfFunction_eq_ok.mp found) refused
      | opening =>
          obtain ⟨content, rfl⟩ := List.length_eq_one_iff.mp hself
          cases hc : g.enclosures.get? name with
          | some callable =>
              refine byCall (Calls.enclosed hc) fun refused he => ?_
              rw [he]
              exact Fault.enclosure hc refused
          | none =>
              have hsub : content.nodes ⊆ (TokenTree.node name .opening [content]).nodes :=
                TokenTree.nodes_subset_of_mem List.mem_cons_self
              rw [bind_group hc] at h
              obtain ⟨n, hn, fault⟩ := ih content
                (TokenTree.height_lt_of_mem List.mem_cons_self) (fun n hn => hb n (hsub hn)) h
              exact ⟨n, hsub hn, fault⟩
      | closing | top => exact absurd hself id

theorem not_fault_of_bind (h : bind g tree = .ok t) : ∀ n ∈ tree.nodes, ∀ e, ¬ g.Fault n e := by
  refine bind_induction (P := fun tree _ => ∀ n ∈ tree.nodes, ∀ e, ¬ g.Fault n e)
    ?_ ?_ ?_ ?_ ?_ ?_ h
  · intro name child t _ ih
    refine TokenTree.forall_mem_nodes.mpr ⟨fun e fault => ?_, by simpa using ih⟩
    cases fault
  · intro name child t hn _ ih
    refine TokenTree.forall_mem_nodes.mpr ⟨fun e fault => ?_, by simpa using ih⟩
    cases fault with
    | enclosure found =>
        rw [hn] at found
        cases found
  · intro name x hx
    refine TokenTree.forall_mem_nodes.mpr ⟨fun e fault => ?_, by simp⟩
    cases fault with
    | literal refused =>
        rw [hx] at refused
        cases refused
  · intro name value _
    refine TokenTree.forall_mem_nodes.mpr ⟨fun e fault => ?_, by simp⟩
    cases fault
  · intro name kind _ _
    refine TokenTree.forall_mem_nodes.mpr ⟨fun e fault => ?_, by simp⟩
    cases fault
  · intro tree callable trees arguments hcalls admits harguments
    have below (u : TokenTree) (hu : u ∈ trees) : ∀ n ∈ u.nodes, ∀ e, ¬ g.Fault n e := by
      obtain ⟨_, -, -, hnodes⟩ := exists_mem_of_forall₂ harguments.flip hu
      exact hnodes
    cases hcalls with
    | @applied name kind _ _ applied found =>
        refine TokenTree.forall_mem_nodes.mpr ⟨fun e fault => ?_, below⟩
        cases fault with
        | literal | enclosure => cases applied
        | function found' refused =>
            rw [callableOfFunction_eq_ok.mp found, Option.some.injEq] at found'
            rw [← found', admits] at refused
            cases refused
    | @enclosed name content _ found =>
        refine TokenTree.forall_mem_nodes.mpr ⟨fun e fault => ?_, ?_⟩
        · cases fault with
          | enclosure found' refused =>
              rw [found, Option.some.injEq] at found'
              rw [← found', admits] at refused
              cases refused
        · obtain ⟨name', kind', children'⟩ := content
          rw [List.forall_mem_singleton]
          rw [contents] at below
          split at below
          · next hs =>
            -- The separator is passed over, but it cannot be at fault.
            refine TokenTree.forall_mem_nodes.mpr ⟨fun e fault => ?_, below⟩
            have hi : kind'.isInfix = true := (Bool.and_eq_true_iff.mp hs).1
            exact absurd hi (Bool.eq_false_iff.mp fault.not_isInfix)
          · exact List.forall_mem_singleton.mp below

/-- **A tree is bound exactly if none of its nodes is at fault**, if nothing else can be wrong with
them. -/
theorem exists_bind_iff (hb : ∀ n ∈ tree.nodes, g.Bindable n) :
    (∃ t, bind g tree = .ok t) ↔ ∀ n ∈ tree.nodes, ∀ e, ¬ g.Fault n e := by
  constructor
  · rintro ⟨t, h⟩
    exact not_fault_of_bind h
  · intro sound
    cases h : bind g tree with
    | ok t => exact ⟨t, rfl⟩
    | error e =>
        obtain ⟨n, hn, fault⟩ := exists_fault_of_bind hb h
        exact absurd fault (sound n hn e)

end Term

end OperatorGrammar
