import OperatorGrammar.Proofs.Depth.Limit
import OperatorGrammar.Proofs.Scan.Parenthesized
import OperatorGrammar.Proofs.Term.Binding
import OperatorGrammar.Proofs.TokenTree.Places
import OperatorGrammar.Term.Evaluation

/-! # Redundant parentheses are transparent

A text of a bundled language that is put between parentheses has the tokens of the text between two
more (`tokenize_parenthesized`).  They stand for a group with the tree of the text, as long as that
leaves room for one more level (`ofTokens_parenthesized`): all levels of scanning, of reading and of
the tree are fewer than those of the whole tree.  A plain group has no meaning of its own
(`Term.ofTree_parenthesized`), so that term and value stay the same. -/

namespace OperatorGrammar

variable {g : Grammar} {tokens : List Token} {input : String} {expression : TokenTree}

/-- Tokens of a tree between parentheses are those of a group over the same expression. -/
theorem ofTokens_parenthesized (rounds : g.Rounds) (pos : 0 < g.maxDepth.toNat)
    (h : TokenTree.ofTokens g tokens = .ok (.top expression))
    (shallow : (TokenTree.top expression).depth ≤ g.maxDepth.toNat) (closing : Nat) :
    TokenTree.ofTokens g (⟨"(", .opening, 0⟩ :: tokens ++ [⟨")", .closing, closing⟩]) =
      .ok (.top (.node "(" .opening [expression])) := by
  obtain ⟨row, m, hr, hb, htop⟩ := ofTokens_eq_ok.mp h
  obtain rfl : expression = m.tree := by
    injection htop with _ _ hchildren
    simpa using hchildren
  have hm := Grammar.buildExpression_measures hb (Grammar.measuredRow_of_reads pos hr)
  rw [TokenTree.depth_top, ← hm.exact] at shallow
  have wrapped : g.wrap "(" .opening [m] = .ok ⟨.node "(" .opening [m.tree], 1 + m.depth⟩ := by
    refine Grammar.wrap_eq_ok.mpr ⟨?_, by simp [Measured.deepest]⟩
    rw [Measured.deepest, List.map_cons, List.map_nil, List.foldr_cons, List.foldr_nil]
    omega
  have inner : Reads g 1 tokens row := by
    refine Grammar.reads_inside pos hr fun x hx => ?_
    have := Grammar.depth_le_of_buildExpression hb hx
    omega
  have closes : g.closes "(" ")" = true := List.any_eq_true.mpr ⟨.round, rounds.known, by decide⟩
  have group : Reads g 0 (⟨"(", .opening, 0⟩ :: tokens ++ [⟨")", .closing, closing⟩])
      [.operand ⟨.node "(" .opening [m.tree], 1 + m.depth⟩] :=
    Reads.enclosed (e := .group ⟨"(", .opening, 0⟩) rfl pos rfl closes inner
      (close_group_eq_ok.mpr ⟨m, hb, wrapped⟩) Reads.nil
  refine ofTokens_eq_ok.mpr ⟨_, ⟨_, 1 + m.depth⟩, group, ?_, rfl⟩
  refine Grammar.buildExpression_eq_ok.mpr (Or.inl ⟨rfl, ?_⟩)
  exact Grammar.buildOperand_eq_ok.mpr ⟨[], _, [], _, rfl, by simp, by simp, rfl, rfl⟩

/-- A plain group has the term of its content, if the bound on the depth leaves room for it. -/
theorem Term.ofTree_parenthesized (rounds : g.Rounds)
    (room : (g.maxDepth + 1).toNat = g.maxDepth.toNat + 1)
    (shallow : (TokenTree.top expression).depth ≤ g.maxDepth.toNat) :
    Term.ofTree g (.top (.node "(" .opening [expression])) = Term.ofTree g (.top expression) := by
  have deeper : (TokenTree.top (.node "(" .opening [expression])).depth =
      (TokenTree.top expression).depth + 1 := by
    rw [TokenTree.depth_top, TokenTree.depth_top, TokenTree.height, TokenTree.heightOfAll,
      TokenTree.heightOfAll]
    omega
  unfold Term.ofTree
  rw [if_neg (by omega), if_neg (by omega), TokenTree.top, TokenTree.top, bind_root, bind_root,
    bind_group rounds.plain]

theorem Grammar.toNat_maxDepth_add_one_of_bundled :
    ∀ g ∈ bundled, (g.maxDepth + 1).toNat = g.maxDepth.toNat + 1 := by decide +kernel

theorem Grammar.maxDepth_pos_of_bundled : ∀ g ∈ bundled, 0 < g.maxDepth.toNat := by
  decide +kernel

/-- The levels of scanning are fewer than those of the tree, so that one more is allowed. -/
theorem TokenTree.ofText_parenthesized (hg : g ∈ Grammar.bundled)
    (h : TokenTree.ofText g input = .ok (.top expression))
    (shallow : (TokenTree.top expression).depth ≤ g.maxDepth.toNat) :
    TokenTree.ofText g ("(" ++ input ++ ")") = .ok (.top (.node "(" .opening [expression])) := by
  have rounds := Grammar.rounds_of_bundled g hg
  have pos := Grammar.maxDepth_pos_of_bundled g hg
  obtain ⟨tokens, htokens, htree⟩ := bind_eq_ok.mp h
  obtain ⟨tokens', htokens', spelled⟩ := tokenize_parenthesized hg htokens fun before after pairs
    hsplit scanned => by
      rw [hsplit] at htree
      exact Nat.lt_of_lt_of_le (length_lt_of_scanned pos scanned htree) shallow
  have same : tokens'.map Token.spelling = List.map Token.spelling
      (⟨"(", .opening, 0⟩ :: tokens ++ [⟨")", .closing, 0⟩]) := by
    rw [spelled, List.map_append]
    rfl
  have unplaced := ofTokens_unplaced (g := g) same
  rw [ofTokens_parenthesized rounds pos htree shallow] at unplaced
  refine bind_eq_ok.mpr ⟨tokens', htokens', ?_⟩
  rcases outcomes_of_mapError_eq unplaced with ⟨tree, ht', ht⟩ | ⟨_, _, -, he, -⟩
  · rw [ht', ← ht]
  · cases he

/-- **Redundant parentheses are transparent.**  Let a text of a bundled language have a tree that is
no deeper than the depth limit, its root included.  Between parentheses the text has the tree with a
single group between root and expression, and the same term and the same value under any bindings,
or it is refused for the same reason. -/
theorem evaluateText_parenthesized (hg : g ∈ Grammar.bundled)
    (h : TokenTree.ofText g input = .ok (.top expression))
    (shallow : (TokenTree.top expression).depth ≤ g.maxDepth.toNat) :
    TokenTree.ofText g ("(" ++ input ++ ")") =
        .ok (.top (.node "(" .opening [expression])) ∧
      Term.ofText g ("(" ++ input ++ ")") = Term.ofText g input ∧
      ∀ b, evaluateText g b ("(" ++ input ++ ")") = evaluateText g b input := by
  have htree := TokenTree.ofText_parenthesized hg h shallow
  have hterm : Term.ofText g ("(" ++ input ++ ")") = Term.ofText g input := by
    unfold Term.ofText
    rw [htree, h]
    exact Term.ofTree_parenthesized (Grammar.rounds_of_bundled g hg)
      (Grammar.toNat_maxDepth_add_one_of_bundled g hg) shallow
  refine ⟨htree, hterm, fun b => ?_⟩
  unfold evaluateText
  rw [hterm]

/-- Bars and a call between parentheses. -/
theorem evaluateText_parenthesized_sample :
    Grammar.real ∈ Grammar.bundled ∧
      TokenTree.ofText Grammar.real "(|x|! + min(1, y))" = .ok (.top (.node "(" .opening [
        .node "+" .multary [.node "!" .postUnary [.node "|" .opening [.leaf "x" .identifier]],
          .node "min" .function [.leaf "1" .number, .leaf "y" .identifier]]])) ∧
      ∀ b, evaluateText Grammar.real b "(|x|! + min(1, y))" =
        evaluateText Grammar.real b "|x|! + min(1, y)" := by
  have hmem : Grammar.real ∈ Grammar.bundled := by simp [Grammar.bundled]
  have htree : TokenTree.ofText Grammar.real "|x|! + min(1, y)" = .ok (.top
      (.node "+" .multary [.node "!" .postUnary [.node "|" .opening [.leaf "x" .identifier]],
        .node "min" .function [.leaf "1" .number, .leaf "y" .identifier]])) := by decide +kernel
  have hsame : "(" ++ "|x|! + min(1, y)" ++ ")" = "(|x|! + min(1, y))" := by decide
  obtain ⟨hp, -, hvalue⟩ := evaluateText_parenthesized hmem htree (by decide +kernel)
  rw [hsame] at hp hvalue
  exact ⟨hmem, hp, hvalue⟩

end OperatorGrammar
