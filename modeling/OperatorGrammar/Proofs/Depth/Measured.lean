import OperatorGrammar.Proofs.Precedence
import OperatorGrammar.Proofs.Row.Spread

/-! # The depths that are kept with trees

A finished operand carries its depth along, so that the limit is checked without walking the tree
again.  What it carries is the height of its tree, and is within the limit (`Grammar.Measures`,
`Grammar.measuredRow_of_reads`), although the arguments of a call are given the depth that the
separator over them had.  A tree is at least as deep as the operands of its row, and deeper where an
infix operator joins them or where delimiters are put around them (`depth_le_of_buildExpression`,
`depth_lt_of_close`). -/

namespace OperatorGrammar

open Item

namespace Measured

variable {operands : List Measured} {m : Measured}

theorem depth_le_deepest (h : m ∈ operands) : m.depth ≤ deepest operands := by
  induction operands with
  | nil => cases h
  | cons x xs ih =>
      simp only [deepest, List.map_cons, List.foldr_cons] at ih ⊢
      rcases List.mem_cons.mp h with rfl | h
      · exact Nat.le_max_left _ _
      · exact Nat.le_trans (ih h) (Nat.le_max_right _ _)

theorem deepest_le {n : Nat} (h : ∀ m ∈ operands, m.depth ≤ n) : deepest operands ≤ n := by
  induction operands with
  | nil => exact Nat.zero_le n
  | cons x xs ih =>
      rw [List.forall_mem_cons] at h
      exact Nat.max_le.mpr ⟨h.1, ih h.2⟩

theorem deepest_eq (h : ∀ m ∈ operands, m.depth = m.tree.height) :
    deepest operands = TokenTree.heightOfAll (operands.map tree) := by
  induction operands with
  | nil => rfl
  | cons x xs ih =>
      rw [List.forall_mem_cons] at h
      rw [List.map_cons, TokenTree.heightOfAll, ← ih h.2, ← h.1]
      rfl

end Measured

namespace Grammar

/-- An operand that carries the height of its tree, which the grammar allows. -/
structure Measures (g : Grammar) (m : Measured) : Prop where
  exact : m.depth = m.tree.height
  within : m.depth ≤ g.maxDepth.toNat

/-- All operands of a row are so. -/
def MeasuredRow (g : Grammar) (row : List Item) : Prop := ∀ m, .operand m ∈ row → g.Measures m

variable {g : Grammar} {operands : List Measured} {m x : Measured} {row content : List Item}

theorem MeasuredRow.piece {symbol : String} {piece : List Item} (h : g.MeasuredRow row)
    (hp : piece ∈ splitAtSymbol symbol row) : g.MeasuredRow piece :=
  fun m hm => h m (mem_of_mem_piece hp hm).1

/-! ### Nodes -/

section wrap

variable {name : String} {kind : TokenKind}

theorem wrap_measures (h : g.wrap name kind operands = .ok m)
    (ho : ∀ x ∈ operands, x.depth = x.tree.height) : g.Measures m := by
  obtain ⟨hd, rfl⟩ := wrap_eq_ok.mp h
  refine ⟨?_, hd⟩
  show 1 + Measured.deepest operands = TokenTree.height _
  rw [TokenTree.height, Measured.deepest_eq ho]

theorem depth_lt_of_wrap (h : g.wrap name kind operands = .ok m) (hx : x ∈ operands) :
    x.depth < m.depth := by
  obtain ⟨-, rfl⟩ := wrap_eq_ok.mp h
  have := Measured.depth_le_deepest hx
  show x.depth < 1 + Measured.deepest operands
  omega

end wrap

/-! ### Infix operators -/

section joins

variable {symbol : String} {kind : TokenKind}

theorem Joins.measures (h : Joins g symbol kind operands m) (ho : ∀ x ∈ operands, g.Measures x) :
    g.Measures m := by
  induction h with
  | all _ h => exact wrap_measures h fun x hx => (ho x hx).exact
  | one _ m => exact ho m List.mem_cons_self
  | fromLeft _ _ _ h ih =>
      have hl := ih fun x hx => ho x (List.mem_append_left _ hx)
      have hr := ho _ (List.mem_append_right _ List.mem_cons_self)
      exact wrap_measures h (by simp [hl.exact, hr.exact])
  | fromRight _ _ _ h ih =>
      have hr := ih fun x hx => ho x (List.mem_cons_of_mem _ hx)
      have hl := ho _ List.mem_cons_self
      exact wrap_measures h (by simp [hl.exact, hr.exact])

theorem Joins.depth_le (h : Joins g symbol kind operands m) (hx : x ∈ operands) :
    x.depth ≤ m.depth := by
  induction h with
  | all _ h => exact Nat.le_of_lt (depth_lt_of_wrap h hx)
  | one _ m => exact Nat.le_of_eq (by rw [List.mem_singleton.mp hx])
  | fromLeft _ _ _ h ih =>
      rcases List.mem_append.mp hx with hx | hx
      · have hlt := depth_lt_of_wrap h List.mem_cons_self
        exact Nat.le_trans (ih hx) (Nat.le_of_lt hlt)
      · rw [List.mem_singleton.mp hx]
        exact Nat.le_of_lt (depth_lt_of_wrap h (by simp))
  | fromRight _ _ _ h ih =>
      rcases List.mem_cons.mp hx with rfl | hx
      · exact Nat.le_of_lt (depth_lt_of_wrap h List.mem_cons_self)
      · have hlt := depth_lt_of_wrap h (List.mem_cons_of_mem _ List.mem_cons_self)
        exact Nat.le_trans (ih hx) (Nat.le_of_lt hlt)

theorem Joins.depth_lt (h : Joins g symbol kind operands m) (two : 2 ≤ operands.length)
    (hx : x ∈ operands) : x.depth < m.depth := by
  cases h with
  | all _ h => exact depth_lt_of_wrap h hx
  | one => simp at two
  | fromLeft _ _ hj h =>
      rcases List.mem_append.mp hx with hx | hx
      · exact Nat.lt_of_le_of_lt (hj.depth_le hx) (depth_lt_of_wrap h List.mem_cons_self)
      · rw [List.mem_singleton.mp hx]
        exact depth_lt_of_wrap h (by simp)
  | fromRight _ _ hj h =>
      rcases List.mem_cons.mp hx with rfl | hx
      · exact depth_lt_of_wrap h List.mem_cons_self
      · exact Nat.lt_of_le_of_lt (hj.depth_le hx)
          (depth_lt_of_wrap h (List.mem_cons_of_mem _ List.mem_cons_self))

end joins

/-! ### Unary operators -/

section unary

variable {kind : TokenKind} {tokens : List Token}

theorem applyUnary_measures (h : g.applyUnary kind tokens x = .ok m) (hx : g.Measures x) :
    g.Measures m := by
  refine foldlM_eq_ok (fun _ x => g.Measures x) ?_ [] hx h
  intro _ x token x' hx hw
  exact wrap_measures hw (by simp [hx.exact])

theorem depth_le_of_applyUnary (h : g.applyUnary kind tokens x = .ok m) : x.depth ≤ m.depth := by
  refine foldlM_eq_ok (fun _ y => x.depth ≤ y.depth) ?_ [] (Nat.le_refl _) h
  intro _ y token y' hy hw
  exact Nat.le_trans hy (Nat.le_of_lt (depth_lt_of_wrap hw List.mem_cons_self))

theorem buildOperand_measures (h : g.buildOperand row = .ok m) (hr : g.MeasuredRow row) :
    g.Measures m := by
  obtain ⟨prefixes, operand, suffixes, inner, rfl, -, -, hs, hp⟩ := buildOperand_eq_ok.mp h
  exact applyUnary_measures hp (applyUnary_measures hs (hr operand (by simp)))

theorem depth_le_of_buildOperand (h : g.buildOperand row = .ok m) (hx : .operand x ∈ row) :
    x.depth ≤ m.depth := by
  obtain ⟨prefixes, operand, suffixes, inner, rfl, -, -, hs, hp⟩ := buildOperand_eq_ok.mp h
  have hx : x = operand := by simpa using hx
  rw [hx]
  exact Nat.le_trans (depth_le_of_applyUnary hs) (depth_le_of_applyUnary hp)

end unary

/-! ### Rows -/

theorem buildExpression_measures (h : g.buildExpression row = .ok m) (hr : g.MeasuredRow row) :
    g.Measures m := by
  refine buildExpression_induction (P := fun row m => g.MeasuredRow row → g.Measures m) ?_ ?_ h hr
  · intro row m _ h hr
    exact buildOperand_measures h hr
  · intro row operator operands m _ hp hj hr
    refine hj.measures fun x hx => ?_
    obtain ⟨piece, hpiece, -, -, ih⟩ := exists_mem_of_forall₂ hp hx
    exact ih (hr.piece hpiece)

theorem exists_operand_of_piece {operator : Token} {x : Measured} {P : List Item → Measured → Prop}
    (hp : List.Forall₂ P (splitAtSymbol operator.text row) operands) (hx : .operand x ∈ row) :
    ∃ piece, .operand x ∈ piece ∧ ∃ y ∈ operands, P piece y := by
  obtain ⟨piece, hpiece, hmem⟩ : ∃ piece ∈ splitAtSymbol operator.text row, .operand x ∈ piece :=
    exists_mem_piece hx rfl
  obtain ⟨y, hy, h⟩ := exists_mem_of_forall₂ hp.flip hpiece
  exact ⟨piece, hmem, y, hy, h⟩

theorem depth_le_of_buildExpression (h : g.buildExpression row = .ok m) (hx : .operand x ∈ row) :
    x.depth ≤ m.depth := by
  refine buildExpression_induction
    (P := fun row m => .operand x ∈ row → x.depth ≤ m.depth) ?_ ?_ h hx
  · intro row m _ h hx
    exact depth_le_of_buildOperand h hx
  · intro row operator operands m _ hp hj hx
    obtain ⟨piece, hmem, y, hy, -, -, ih⟩ := exists_operand_of_piece hp hx
    exact Nat.le_trans (ih hmem) (hj.depth_le hy)

/-- A tree with an infix operator at its root is deeper than the operands of its row. -/
theorem depth_lt_of_buildExpression (hr : g.OrderedRow row) (h : g.buildExpression row = .ok m)
    (hi : m.tree.kind.isInfix = true) (hx : .operand x ∈ row) : x.depth < m.depth := by
  rcases buildExpression_eq_ok.mp h with ⟨-, h⟩ | ⟨operator, operands, hl, hp, hj⟩
  · rw [(buildOperand_ordered hr h).2] at hi
    cases hi
  · obtain ⟨piece, hmem, y, hy, -, hb⟩ := exists_operand_of_piece hp hx
    have two : 2 ≤ operands.length :=
      hp.length_eq ▸ two_le_length_splitAtSymbol (loosest_eq_some hl).1
    exact Nat.lt_of_le_of_lt (depth_le_of_buildExpression hb hmem) (hj.depth_lt two hy)

/-! ### Groups and calls -/

/-- The arguments of a call are as deep as its content, or by one level less if they are the
operands of a separator at its root. -/
theorem deepest_arguments (ordered : g.Ordered m.tree) :
    Measured.deepest (m.arguments g.argumentSeparator) =
      if m.tree.kind.isInfix = true ∧ m.tree.name = g.argumentSeparator then m.depth - 1
      else m.depth := by
  unfold Measured.arguments
  by_cases hs : m.tree.kind.isInfix = true ∧ m.tree.name = g.argumentSeparator
  · rw [if_pos hs, if_pos (by simpa using hs)]
    refine Measured.deepest_map_const ?_ _
    obtain ⟨⟨name, kind, children⟩, depth⟩ := m
    have hroot := (respectsOrder_of_isInfix hs.1).mp (ordered_node.mp ordered).1
    have two := hroot.two_le_length
    rintro rfl
    simp at two
  · rw [if_neg hs, if_neg (by simpa using hs)]
    simp [Measured.deepest]

/-- A call is at least as deep as its content, whose separator it takes the place of. -/
theorem depth_le_of_wrap_arguments {name : String} {kind : TokenKind} (ordered : g.Ordered x.tree)
    (h : g.wrap name kind (x.arguments g.argumentSeparator) = .ok m) : x.depth ≤ m.depth := by
  obtain ⟨-, rfl⟩ := wrap_eq_ok.mp h
  show x.depth ≤ 1 + Measured.deepest _
  rw [deepest_arguments ordered]
  split <;> omega

theorem deepest_arguments_eq (ordered : g.Ordered m.tree) (exact : m.depth = m.tree.height) :
    Measured.deepest (m.arguments g.argumentSeparator) =
      TokenTree.heightOfAll ((m.arguments g.argumentSeparator).map Measured.tree) := by
  rw [deepest_arguments ordered, Measured.arguments_map_tree]
  split
  · rw [exact]
    obtain ⟨⟨name, kind, children⟩, depth⟩ := m
    show 1 + TokenTree.heightOfAll children - 1 = TokenTree.heightOfAll children
    omega
  · simp [TokenTree.heightOfAll, exact]

theorem close_measures {e : Enclosing} (ordered : g.OrderedRow content)
    (measured : g.MeasuredRow content) (h : Reading.close g e content = .ok m) :
    g.Measures m := by
  cases e with
  | group opener =>
      obtain ⟨inner, hb, hw⟩ := close_group_eq_ok.mp h
      have hi := buildExpression_measures hb measured
      exact wrap_measures hw (by simp [hi.exact])
  | call function opener =>
      rcases close_call_eq_ok.mp h with ⟨rfl, hw⟩ | ⟨-, inner, hb, hw⟩
      · exact wrap_measures hw (by simp)
      · have hi := buildExpression_measures hb measured
        have ho := (buildExpression_ordered ordered hb).1
        obtain ⟨hd, rfl⟩ := wrap_eq_ok.mp hw
        refine ⟨?_, hd⟩
        show 1 + Measured.deepest _ = TokenTree.height _
        rw [TokenTree.height, deepest_arguments_eq ho hi.exact]

/-- What is put between delimiters is deeper than the operands between them. -/
theorem depth_lt_of_close {e : Enclosing} (ordered : g.OrderedRow content)
    (h : Reading.close g e content = .ok m) (hx : .operand x ∈ content) : x.depth < m.depth := by
  cases e with
  | group opener =>
      obtain ⟨inner, hb, hw⟩ := close_group_eq_ok.mp h
      exact Nat.lt_of_le_of_lt (depth_le_of_buildExpression hb hx)
        (depth_lt_of_wrap hw List.mem_cons_self)
  | call function opener =>
      rcases close_call_eq_ok.mp h with ⟨rfl, -⟩ | ⟨-, inner, hb, hw⟩
      · cases hx
      · have ho := (buildExpression_ordered ordered hb).1
        have hle := depth_le_of_buildExpression hb hx
        obtain ⟨-, rfl⟩ := wrap_eq_ok.mp hw
        show x.depth < 1 + Measured.deepest _
        rw [deepest_arguments ho]
        split
        · next hs =>
          have := depth_lt_of_buildExpression ordered hb hs.1 hx
          omega
        · omega

/-- The operands of every row that is read carry the heights of their trees. -/
theorem measuredRow_of_reads {n : Nat} {tokens : List Token} (pos : 0 < g.maxDepth.toNat)
    (h : Reads g n tokens row) : g.MeasuredRow row := by
  induction h with
  | nil => simp [MeasuredRow]
  | @operand n token tokens row kind _ ih =>
      intro m hm
      rcases List.mem_cons.mp hm with hm | hm
      · rw [Item.operand.inj hm]
        exact ⟨rfl, pos⟩
      · exact ih m hm
  | operator _ _ ih => exact fun m hm => ih m (by simpa using hm)
  | enclosed _ _ _ _ inner built _ content ih =>
      intro m hm
      rcases List.mem_cons.mp hm with hm | hm
      · rw [Item.operand.inj hm]
        exact close_measures (orderedRow_of_reads inner) content built
      · exact ih m hm

theorem Measures.depth_pos (h : g.Measures m) : 0 < m.depth := by
  obtain ⟨⟨name, kind, children⟩, depth⟩ := m
  rw [h.exact, TokenTree.height]
  omega

/-- Tokens are read inside as many groups and calls as leave room for their operands. -/
theorem reads_inside {n n' : Nat} {tokens : List Token} (pos : 0 < g.maxDepth.toNat)
    (h : Reads g n tokens row)
    (fits : ∀ m, .operand m ∈ row → n' + m.depth ≤ g.maxDepth.toNat) : Reads g n' tokens row := by
  induction h generalizing n' with
  | nil => exact Reads.nil
  | operand kind _ ih =>
      exact Reads.operand kind (ih fun m hm => fits m (List.mem_cons_of_mem _ hm))
  | operator kind _ ih =>
      exact Reads.operator kind (ih fun m hm => fits m (List.mem_cons_of_mem _ hm))
  | @enclosed n e closer inner tokens content row m opens shallow kind closes hinner built hrest ih
      ih' =>
      have ordered := orderedRow_of_reads hinner
      have hdepth := (close_measures ordered (measuredRow_of_reads pos hinner) built).depth_pos
      have hm := fits m List.mem_cons_self
      refine Reads.enclosed opens (by omega) kind closes (ih fun x hx => ?_) built
        (ih' fun x hx => fits x (List.mem_cons_of_mem _ hx))
      have := depth_lt_of_close ordered built hx
      omega

end Grammar

end OperatorGrammar
