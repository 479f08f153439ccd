import OperatorGrammar.Proofs.Depth.Limit
import OperatorGrammar.Proofs.Row.Levels

/-! # No depth that is kept is wrong

Reading tokens keeps a depth with every operand, and makes each further one from those of its
operands alone.  None of them ever differs from the depth of its tree (`Measured.Exact`): not those
of the operands in the rows that are open (`Grammar.measures_of_holds`), not those that a call of
`wrap` gives while a row is built, be it in the middle of a chain of operators that is too deep in
the end (`Grammar.Wraps`).  Only the arguments of a call may be taken for deeper than they are.
The deepest of them is not, and so the call is right again. -/

namespace OperatorGrammar

open Item Reading

/-- An operand that carries the depth of its tree. -/
def Measured.Exact (m : Measured) : Prop := m.depth = m.tree.depth

theorem Grammar.Measures.exact_depth {g : Grammar} {m : Measured} (h : g.Measures m) : m.Exact := by
  rw [Measured.Exact, TokenTree.depth_eq_height]
  exact h.exact

theorem TokenTree.heightOfAll_eq_foldr (ts : List TokenTree) :
    heightOfAll ts = (ts.map depth).foldr max 0 := by
  induction ts with
  | nil => rfl
  | cons t ts ih => rw [heightOfAll, ih, List.map_cons, List.foldr_cons, depth_eq_height]

theorem Measured.depth_le_of_mem_arguments {content a : Measured} {separator : String}
    (exact : content.depth = content.tree.height) (h : a ∈ content.arguments separator) :
    a.tree.depth ≤ a.depth := by
  rw [TokenTree.depth_eq_height]
  unfold arguments at h
  split at h
  · obtain ⟨t, ht, rfl⟩ := List.mem_map.mp h
    obtain ⟨⟨name, kind, children⟩, depth⟩ := content
    have hle : t.height ≤ TokenTree.heightOfAll children := TokenTree.height_le_heightOfAll ht
    have hdepth : depth = 1 + TokenTree.heightOfAll children := exact
    show t.height ≤ depth - 1
    omega
  · rw [List.mem_singleton.mp h]
    exact exact.ge

namespace Grammar

variable {g : Grammar} {row : List Item} {m : Measured}

/-! ### Nodes that are made on the way -/

/-- What calls of `wrap` give while a row is built, also where a later call fails: the nodes within
a piece; the nodes over the operands of the loosest operator, of which there may be one for every
few that stand next to one another; the nodes of the first suffixes and of the innermost prefixes of
an operand. -/
inductive Wraps (g : Grammar) : List Item → Measured → Prop
  | within {operator : Token} {row piece : List Item} {m : Measured} :
      g.Asks operator row piece → Wraps g piece m → Wraps g row m
  | joined {operator : Token} {row : List Item} {operands part : List Measured} {m : Measured}
      (loosest : g.loosest row = .ok (some operator))
      (built : List.Forall₂ (fun piece x => g.buildPiece operator.text piece = .ok x)
        (splitAtSymbol operator.text row) operands)
      (next : part <:+: operands) (two : 2 ≤ part.length) :
      g.combine operator part = .ok m → Wraps g row m
  | suffixed {row rest : List Item} {prefixes suffixes first : List Token} {operand m : Measured}
      (plain : g.loosest row = .ok none)
      (taken : takeOperand [] row = .ok (prefixes, operand, rest))
      (found : takeSuffixes rest = .ok suffixes) (part : first <+: suffixes) (some : first ≠ []) :
      g.applyUnary .postUnary first operand = .ok m → Wraps g row m
  | prefixed {row rest : List Item} {prefixes suffixes first : List Token}
      {operand inner m : Measured} (plain : g.loosest row = .ok none)
      (taken : takeOperand [] row = .ok (prefixes, operand, rest))
      (found : takeSuffixes rest = .ok suffixes)
      (built : g.applyUnary .postUnary suffixes operand = .ok inner)
      (part : first <+: prefixes) (some : first ≠ []) :
      g.applyUnary .preUnary first inner = .ok m → Wraps g row m

theorem operand_mem_of_takeOperand {prefixes taken : List Token} {rest : List Item}
    (h : takeOperand prefixes row = .ok (taken, m, rest)) : .operand m ∈ row := by
  obtain ⟨tokens, -, rfl, -⟩ := takeOperand_eq_ok.mp h
  simp

theorem Wraps.measures (h : g.Wraps row m) (hr : g.MeasuredRow row) : g.Measures m := by
  induction h with
  | within asks _ ih => exact ih (hr.piece asks.mem)
  | joined _ built next _ h =>
      refine (combine_eq_ok.mp h).measures fun x hx => ?_
      obtain ⟨piece, hp, hb⟩ := exists_mem_of_forall₂ built (next.subset hx)
      exact buildExpression_measures (buildPiece_eq_ok.mp hb).2 (hr.piece hp)
  | suffixed _ taken _ _ _ h =>
      exact applyUnary_measures h (hr _ (operand_mem_of_takeOperand taken))
  | prefixed _ taken _ built _ _ h =>
      have hinner := applyUnary_measures built (hr _ (operand_mem_of_takeOperand taken))
      exact applyUnary_measures h hinner

/-- The tree of a row is the last node that is made, unless it is an operand that stands alone. -/
theorem operand_or_wraps_of_buildExpression (h : g.buildExpression row = .ok m) :
    row = [.operand m] ∨ g.Wraps row m := by
  cases hl : g.loosest row with
  | error e =>
      rw [buildExpression_of_loosest_error hl] at h
      cases h
  | ok found =>
      cases found with
      | none =>
          rw [buildExpression_of_loosest_none hl] at h
          obtain ⟨⟨prefixes, operand, rest⟩, taken, h⟩ := bind_eq_ok.mp h
          obtain ⟨suffixes, found, h⟩ := bind_eq_ok.mp h
          obtain ⟨inner, built, h⟩ := bind_eq_ok.mp h
          by_cases hp : prefixes = []
          · subst hp
            obtain rfl : inner = m := Except.ok.inj h
            by_cases hs : suffixes = []
            · subst hs
              obtain rfl : operand = inner := Except.ok.inj built
              obtain ⟨tokens, -, rfl, htokens⟩ := takeOperand_eq_ok.mp taken
              obtain rfl : tokens = [] := by simpa using htokens
              obtain ⟨rfl, -⟩ := takeSuffixes_eq_ok.mp found
              exact Or.inl rfl
            · exact Or.inr (.suffixed hl taken found (List.prefix_refl _) hs built)
          · exact Or.inr (.prefixed hl taken found built (List.prefix_refl _) hp h)
      | some operator =>
          rw [buildExpression_of_loosest_some hl] at h
          obtain ⟨operands, hp, h⟩ := bind_eq_ok.mp h
          have built := mapM_eq_ok.mp hp
          have two : 2 ≤ operands.length :=
            built.length_eq ▸ two_le_length_splitAtSymbol (loosest_eq_some hl).1
          exact Or.inr (.joined hl built (List.infix_refl _) two h)

end Grammar

/-! ### The states of reading -/

variable {g : Grammar} {tokens : List Token} {r : Reading} {m content : Measured}

/-- An operand is in one of the rows of a state. -/
def Reading.Holds (r : Reading) (m : Measured) : Prop :=
  .operand m ∈ r.items ∨ ∃ frame ∈ r.frames, .operand m ∈ frame.before

theorem Stands.exists_reads {items : List Item} {frames : List Frame}
    (h : Stands g tokens items frames) : ∃ n inner, Reads g n inner items.reverse := by
  cases h with
  | outermost h => exact ⟨_, _, h⟩
  | inside _ _ _ h => exact ⟨_, _, h⟩

theorem Stands.measuredRow (pos : 0 < g.maxDepth.toNat) {items : List Item} {frames : List Frame}
    (h : Stands g tokens items frames) :
    g.MeasuredRow items ∧ ∀ frame ∈ frames, g.MeasuredRow frame.before := by
  have innermost {items : List Item} {n : Nat} {tokens : List Token}
      (h : Reads g n tokens items.reverse) : g.MeasuredRow items :=
    fun m hm => Grammar.measuredRow_of_reads pos h m (List.mem_reverse.mpr hm)
  induction h with
  | outermost h => exact ⟨innermost h, by simp⟩
  | inside _ _ _ h ih => exact ⟨innermost h, List.forall_mem_cons.mpr ih⟩

theorem exists_stands_of_step (h : tokens.foldlM (step g) {} = .ok r) :
    ∃ before, Stands g before r.items r.frames := by
  have hf := foldlM_step_follows h
  unfold Follows at hf
  split at hf
  · exact ⟨_, hf⟩
  · obtain ⟨before, -, -, -, hs⟩ := hf
    exact ⟨before, hs⟩

theorem measures_of_holds (pos : 0 < g.maxDepth.toNat) (hr : tokens.foldlM (step g) {} = .ok r)
    (h : r.Holds m) : g.Measures m := by
  obtain ⟨before, hs⟩ := exists_stands_of_step hr
  rcases h with h | ⟨frame, hframe, h⟩
  · exact (hs.measuredRow pos).1 m h
  · exact (hs.measuredRow pos).2 frame hframe m h

/-- The depths that a state has, and those that are made when its innermost row ends, are those of
the trees; but for the arguments of a call, which are no deeper than they are taken for, and of
which the deepest is as deep. -/
structure Reading.TracksDepths (g : Grammar) (r : Reading) : Prop where
  held : ∀ m, r.Holds m → m.Exact
  wrapped : ∀ m, g.Wraps r.items.reverse m → m.Exact
  built : ∀ m, g.buildExpression r.items.reverse = .ok m → m.Exact
  closed : ∀ frame ∈ r.frames.head?, ∀ m,
    close g frame.enclosing r.items.reverse = .ok m → m.Exact
  arguments : ∀ content, g.buildExpression r.items.reverse = .ok content →
    ∀ a ∈ content.arguments g.argumentSeparator, a.tree.depth ≤ a.depth
  deepest : ∀ content, g.buildExpression r.items.reverse = .ok content →
    ((content.arguments g.argumentSeparator).map Measured.depth).foldr max 0 =
      ((content.arguments g.argumentSeparator).map fun a => a.tree.depth).foldr max 0
  called : ∀ content, g.buildExpression r.items.reverse = .ok content → ∀ name kind m,
    g.wrap name kind (content.arguments g.argumentSeparator) = .ok m → m.Exact

theorem deepest_arguments_eq_foldr (ordered : g.Ordered content.tree)
    (exact : content.depth = content.tree.height) :
    ((content.arguments g.argumentSeparator).map Measured.depth).foldr max 0 =
      ((content.arguments g.argumentSeparator).map fun a => a.tree.depth).foldr max 0 := by
  have h := Grammar.deepest_arguments_eq ordered exact
  rw [TokenTree.heightOfAll_eq_foldr, List.map_map] at h
  exact h

theorem wrap_arguments_exact (ordered : g.Ordered content.tree)
    (exact : content.depth = content.tree.height) {name : String} {kind : TokenKind}
    (h : g.wrap name kind (content.arguments g.argumentSeparator) = .ok m) : m.Exact := by
  obtain ⟨-, rfl⟩ := Grammar.wrap_eq_ok.mp h
  rw [Measured.Exact, TokenTree.depth_eq_height]
  show 1 + Measured.deepest _ = TokenTree.height _
  rw [TokenTree.height, Grammar.deepest_arguments_eq ordered exact]

/-- **The depths that are kept are right.**  The depth of a tree, which is found with a list of the
nodes that are left, is its height by recursion; and every state that tokens lead to keeps the
depths of its trees. -/
theorem depths_tracked :
    (∀ t : TokenTree, t.depth = t.height) ∧
    ∀ (d : Declaration) (g : Grammar) (tokens : List Token) (r : Reading), d.build = .ok g →
      tokens.foldlM (step g) {} = .ok r → r.TracksDepths g := by
  refine ⟨TokenTree.depth_eq_height, fun d g tokens r hd hr => ?_⟩
  have pos := Declaration.maxDepth_pos hd
  obtain ⟨before, hs⟩ := exists_stands_of_step hr
  obtain ⟨n, inner, hreads⟩ := hs.exists_reads
  have ordered := Grammar.orderedRow_of_reads hreads
  have measured := Grammar.measuredRow_of_reads pos hreads
  have built {m : Measured} (h : g.buildExpression r.items.reverse = .ok m) : g.Measures m :=
    Grammar.buildExpression_measures h measured
  have tree {m : Measured} (h : g.buildExpression r.items.reverse = .ok m) : g.Ordered m.tree :=
    (Grammar.buildExpression_ordered ordered h).1
  exact
    { held := fun m h => (measures_of_holds pos hr h).exact_depth
      wrapped := fun m h => (h.measures measured).exact_depth
      built := fun m h => (built h).exact_depth
      closed := fun frame _ m h => (Grammar.close_measures ordered measured h).exact_depth
      arguments := fun content h a ha => Measured.depth_le_of_mem_arguments (built h).exact ha
      deepest := fun content h => deepest_arguments_eq_foldr (tree h) (built h).exact
      called := fun content h name kind m hm =>
        wrap_arguments_exact (tree h) (built h).exact hm }

/-- In front of the end of `max(x, y^2)` the depths are right, though the first of the arguments is
taken for deeper than it is; and so is that of the call. -/
theorem depths_tracked_sample :
    let tokens : List Token := [⟨"max", .function, 0⟩, ⟨"(", .opening, 3⟩, ⟨"x", .identifier, 4⟩,
      ⟨",", .multary, 5⟩, ⟨"y", .identifier, 7⟩, ⟨"^", .binary, 8⟩, ⟨"2", .number, 9⟩]
    let row : List Item := [.operand (.leaf "x" .identifier), .operator ⟨",", .multary, 5⟩,
      .operand (.leaf "y" .identifier), .operator ⟨"^", .binary, 8⟩, .operand (.leaf "2" .number)]
    let x : TokenTree := .leaf "x" .identifier
    let square : TokenTree := .node "^" .binary [.leaf "y" .identifier, .leaf "2" .number]
    let content : Measured := ⟨.node "," .multary [x, square], 3⟩
    Declaration.real.build = .ok Grammar.real ∧
    ∃ r, tokens.foldlM (step Grammar.real) {} = .ok r ∧ r.TracksDepths Grammar.real ∧
      r.items.reverse = row ∧ Grammar.real.buildExpression row = .ok content ∧
      Grammar.real.Wraps row content ∧ content.Exact ∧ ⟨x, 2⟩ ∈ content.arguments "," ∧
      x.depth < 2 ∧ Measured.Exact ⟨.node "max" .function [x, square], 3⟩ := by
  intro tokens row x square content
  have hd : Declaration.real.build = .ok Grammar.real :=
    Declaration.build_eq_ok.mpr ⟨by decide +kernel, rfl⟩
  have tracks := depths_tracked.2 _ _ tokens _ hd rfl
  have hbuilt : Grammar.real.buildExpression row = .ok content := by
    have within : Grammar.real.buildWithin 3 row = _ := Grammar.buildWithin_eq (by decide)
    exact Option.some.inj (within.symm.trans rfl)
  have hwraps : Grammar.real.Wraps row content :=
    (Grammar.operand_or_wraps_of_buildExpression hbuilt).resolve_left fun h => by
      cases (List.cons.inj h).2
  have hcall : Measured.Exact ⟨.node "max" .function [x, square], 3⟩ :=
    tracks.called content hbuilt "max" .function _ rfl
  have hflat : x.depth < 2 := by
    rw [TokenTree.depth_eq_height]
    decide
  exact ⟨hd, _, rfl, tracks, rfl, hbuilt, hwraps, tracks.wrapped content hwraps,
    List.mem_cons_self, hflat, hcall⟩

end OperatorGrammar
