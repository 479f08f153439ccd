import OperatorGrammar.Grammar.Bundled
import OperatorGrammar.Proofs.Depth.Limit
import OperatorGrammar.Proofs.Term.Binding

/-! # What binding makes of the depth limit

Binding compares the depth of a tree, with its root, with the limit and one level more.  Reading has
already kept the tree within that (`exists_of_ofTokens`), and nothing behind the comparison is about
depth (`bind_ne_nestingTooDeep`), so binding refuses no tree of tokens for its depth as long as the
limit has a successor among the machine words.  The successor of the largest word is zero, and under
that limit every tree is too deep (`ofTree_of_largest`).  Both together are
`ofTree_nestingTooDeep_iff`. -/

namespace OperatorGrammar

theorem toNat_succ_eq_iff (w : UInt64) :
    (w + 1).toNat = w.toNat + 1 ↔ w.toNat + 1 ≠ UInt64.size := by
  have below := w.toNat_lt_size
  rw [UInt64.toNat_add, UInt64.toNat_one]
  unfold UInt64.size at *
  omega

theorem toNat_succ_of_largest {w : UInt64} (h : w.toNat + 1 = UInt64.size) : (w + 1).toNat = 0 := by
  rw [UInt64.toNat_add, UInt64.toNat_one]
  unfold UInt64.size at h
  omega

namespace Term

variable {g : Grammar} {tree : TokenTree} {tokens : List Token} {limit : UInt64}

/-! ### Binding does not look at depth -/

theorem callableAt_ne_nestingTooDeep {kind : TokenKind} {name : String} :
    g.callableAt kind name ≠ .error (.nestingTooDeep limit) := by
  have operator : ∀ role, g.callableOf role name ≠ .error (.nestingTooDeep limit) := by
    intro role
    unfold Grammar.callableOf
    cases g.operator role name <;> simp
  have function : g.callableOfFunction name ≠ .error (.nestingTooDeep limit) := by
    unfold Grammar.callableOfFunction
    cases g.functions.get? name <;> simp
  cases kind with
  | function => exact function
  | preUnary | postUnary | binary | multary | number | identifier | opening | closing | top =>
      exact operator _

theorem bindIdentifier_ne_nestingTooDeep {name : String} :
    g.bindIdentifier name ≠ .error (.nestingTooDeep limit) := by
  unfold Grammar.bindIdentifier
  cases g.constants.get? name with
  | some value => simp
  | none => cases g.variableKind name <;> simp

theorem bind_ne_nestingTooDeep (tree : TokenTree) :
    bind g tree ≠ .error (.nestingTooDeep limit) := by
  induction tree using TokenTree.height_induction with
  | lower tree ih =>
      intro h
      -- A call fails for the number of its arguments or as one of them does.
      have byCall {callable : Callable} {trees : List TokenTree}
          (calls : g.Calls tree callable trees) : False := by
        rw [bind_eq_bindCall calls] at h
        rcases bindCall_eq_error h with ⟨-, h⟩ | ⟨child, hchild, h⟩
        · cases h
        · exact ih child (calls.height_lt hchild) h
      obtain ⟨name, kind, children⟩ := tree
      have byContent {child : TokenTree} (hc : children = [child]) :
          bind g child ≠ .error (.nestingTooDeep limit) := by
        subst hc
        exact ih child (TokenTree.height_lt_of_mem List.mem_cons_self)
      cases kind with
      | top =>
          match children with
          | [] | _ :: _ :: _ => cases h
          | [child] =>
              rw [bind_root] at h
              exact byContent rfl h
      | opening =>
          match children with
          | [] | _ :: _ :: _ => cases h
          | [child] =>
              cases he : g.enclosures.get? name with
              | some callable => exact byCall (Grammar.Calls.enclosed he)
              | none =>
                  rw [bind_group he] at h
                  exact byContent rfl h
      | number =>
          match children with
          | [] => cases (ofLiteral_eq_error.mp ((bind_number name).symm.trans h)).2
          | _ :: _ => cases h
      | identifier =>
          match children with
          | [] => exact bindIdentifier_ne_nestingTooDeep ((bind_identifier name).symm.trans h)
          | _ :: _ => cases h
      | preUnary | postUnary | binary | multary | function =>
          have found := h
          simp only [bind] at found
          rcases bind_eq_error.mp found with found | ⟨callable, found, -⟩
          · exact callableAt_ne_nestingTooDeep found
          · exact byCall (Grammar.Calls.applied rfl found)
      | closing => cases h

/-! ### The comparison -/

/-- A tree of tokens is bound without regard to its depth where the limit has a successor. -/
theorem ofTree_eq_bind_of_ofTokens (pos : 0 < g.maxDepth.toNat)
    (room : g.maxDepth.toNat + 1 ≠ UInt64.size) (h : TokenTree.ofTokens g tokens = .ok tree) :
    ofTree g tree = bind g tree := by
  obtain ⟨_, _, -, -, within, depth⟩ := exists_of_ofTokens pos h
  have bound := (toNat_succ_eq_iff g.maxDepth).mpr room
  unfold ofTree
  rw [if_neg]
  omega

/-- Under the largest limit the bound is zero, and no tree is bound. -/
theorem ofTree_of_largest (largest : g.maxDepth.toNat + 1 = UInt64.size) (tree : TokenTree) :
    ofTree g tree = .error (.nestingTooDeep g.maxDepth) := by
  unfold ofTree
  rw [if_pos]
  rw [toNat_succ_of_largest largest, TokenTree.depth_eq_height]
  exact tree.height_pos

/-- **Binding refuses no tree of tokens for its depth, unless the limit is the largest word.**
Then, and only then, the bound that depths are compared with is not one more than the limit. -/
theorem ofTree_nestingTooDeep_iff {d : Declaration} (hd : d.build = .ok g)
    (h : TokenTree.ofTokens g tokens = .ok tree) :
    ((∃ limit, ofTree g tree = .error (.nestingTooDeep limit)) ↔
      g.maxDepth.toNat + 1 = UInt64.size) ∧
    ((g.maxDepth + 1).toNat = g.maxDepth.toNat + 1 ↔ g.maxDepth.toNat + 1 ≠ UInt64.size) := by
  refine ⟨⟨?_, ?_⟩, toNat_succ_eq_iff g.maxDepth⟩
  · rintro ⟨limit, hdeep⟩
    by_contra room
    rw [ofTree_eq_bind_of_ofTokens (Declaration.maxDepth_pos hd) room h] at hdeep
    exact bind_ne_nestingTooDeep tree hdeep
  · intro largest
    exact ⟨g.maxDepth, ofTree_of_largest largest tree⟩

/-- A sum whose tree is just as deep as its grammar allows. -/
theorem ofTree_nestingTooDeep_iff_sample :
    let d := Declaration.test.add (.maxDepth 2)
    let tokens : List Token := [⟨"1", .number, 0⟩, ⟨"+", .multary, 1⟩, ⟨"x", .identifier, 2⟩]
    ∃ g tree, d.build = .ok g ∧ TokenTree.ofTokens g tokens = .ok tree ∧
      tree.depth = (g.maxDepth + 1).toNat ∧
      ¬ ∃ limit, ofTree g tree = .error (.nestingTooDeep limit) := by
  intro d tokens
  have hd : d.build = .ok d.assemble := Declaration.build_eq_ok.mpr ⟨by decide +kernel, rfl⟩
  have ht : TokenTree.ofTokens d.assemble tokens =
      .ok (.top (.node "+" .multary [.leaf "1" .number, .leaf "x" .identifier])) := by
    decide +kernel
  refine ⟨d.assemble, _, hd, ht, by decide +kernel, ?_⟩
  rw [(ofTree_nestingTooDeep_iff hd ht).1]
  decide +kernel

/-- Under the largest limit a single number is refused. -/
theorem nestingTooDeep_of_largest :
    let d := Declaration.test.add (.maxDepth 18446744073709551615)
    ∃ g tree, d.build = .ok g ∧
      TokenTree.ofTokens g [⟨"1", .number, 0⟩] = .ok tree ∧
      ofTree g tree = .error (.nestingTooDeep g.maxDepth) ∧
      (g.maxDepth + 1).toNat ≠ g.maxDepth.toNat + 1 := by
  intro d
  have hd : d.build = .ok d.assemble := Declaration.build_eq_ok.mpr ⟨by decide +kernel, rfl⟩
  have ht : TokenTree.ofTokens d.assemble [⟨"1", .number, 0⟩] = .ok (.top (.leaf "1" .number)) := by
    decide +kernel
  have largest : d.assemble.maxDepth.toNat + 1 = UInt64.size := by decide +kernel
  exact ⟨d.assemble, _, hd, ht, ofTree_of_largest largest _, by decide +kernel⟩

end Term

end OperatorGrammar
