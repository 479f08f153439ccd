import OperatorGrammar.Proofs.Guarantees
import OperatorGrammar.Proofs.Reading
import OperatorGrammar.Proofs.Row.Spread

/-! # A tree that is written out is read back

Every tree that respects the order of operations is the tree of the tokens in which it is written
out, so that no sequence of tokens stands for two of them.  The proof goes up the tree: however a
tree is written out inside some groups and calls, the tokens stand for a row that spreads it
(`Grammar.Readable`).  There is one lemma for each role of the root; the operands of an infix
operator are read one after another (`exists_between`), and so are the arguments of a call, as the
operands of a separator. -/

namespace OperatorGrammar

namespace Grammar

/-- What reading a node back needs beyond the order of operations: the role of an infix operator is
the one in which its symbol is written, and it has a place in the order of operations, as has the
separator of several arguments; a group has a known delimiter. -/
def Writable (g : Grammar) : TokenTree → Prop
  | .node name kind children =>
    match kind with
    | .binary | .multary => kind = g.infixKind name ∧ (g.precedence name).isSome = true
    | .opening => g.IsOpener name
    | .function => 2 ≤ children.length → (g.precedence g.argumentSeparator).isSome = true
    | .number | .identifier | .preUnary | .postUnary | .closing | .top => True

instance (g : Grammar) : DecidablePred g.Writable
  | .node _ .binary _ | .node _ .multary _ => inferInstanceAs (Decidable (_ = _ ∧ _ = _))
  | .node name .opening _ => inferInstanceAs (Decidable (g.IsOpener name))
  | .node _ .function _ => inferInstanceAs (Decidable (_ ≤ _ → _ = _))
  | .node _ .number _ | .node _ .identifier _ | .node _ .preUnary _ | .node _ .postUnary _
  | .node _ .closing _ | .node _ .top _ => inferInstanceAs (Decidable True)

/-- Tokens in which some marks are written out. -/
def Spells (g : Grammar) (tokens : List Token) (marks : List Mark) : Prop :=
  tokens.map Token.spelling = marks.map (Mark.spelling g)

/-- However a tree is written out inside `n` groups and calls, the tokens stand for a row of it. -/
def Readable (g : Grammar) (n : Nat) (t : TokenTree) : Prop :=
  ∀ tokens, g.Spells tokens (t.inOrder g) → ∃ row, Reads g n tokens row ∧ g.Spreads t row

variable {g : Grammar} {n : Nat}

section spells

variable {tokens : List Token} {marks marks' : List Mark} {mark : Mark}

theorem spells_nil : g.Spells tokens [] ↔ tokens = [] :=
  List.map_eq_nil_iff

theorem spells_cons : g.Spells tokens (mark :: marks) ↔
    ∃ token rest, tokens = token :: rest ∧ (token.text, token.kind) = mark.spelling g ∧
      g.Spells rest marks :=
  List.map_eq_cons_iff

theorem spells_append : g.Spells tokens (marks ++ marks') ↔
    ∃ before after, tokens = before ++ after ∧ g.Spells before marks ∧
      g.Spells after marks' := by
  unfold Spells
  rw [List.map_append]
  exact List.map_eq_append_iff

end spells

/-! ### Leaves and operators -/

theorem readable_leaf {name : String} {kind : TokenKind} (h : kind = .number ∨ kind = .identifier) :
    g.Readable n (.leaf name kind) := by
  intro tokens hs
  rw [TokenTree.inOrder_leaf h] at hs
  obtain ⟨token, rest, rfl, ht, hrest⟩ := spells_cons.mp hs
  obtain ⟨rfl, rfl⟩ := Prod.mk.inj ht
  obtain rfl := spells_nil.mp hrest
  refine ⟨_, Reads.operand h Reads.nil, ?_⟩
  exact spreads_operand (by rcases h with h | h <;> rw [h] <;> rfl)

/-- The operands of an infix operator are read one after another. -/
theorem exists_between {symbol : String} {ts : List TokenTree} (hne : ts ≠ [])
    (ih : ∀ t ∈ ts, g.Readable n t) {tokens : List Token}
    (h : g.Spells tokens
      ([Mark.between symbol].intercalate (ts.map (TokenTree.inOrder g)))) :
    ∃ rows row, Reads g n tokens row ∧ List.Forall₂ g.Spreads ts rows ∧
      Between (g.Uses symbol) rows row := by
  induction ts generalizing tokens with
  | nil => exact absurd rfl hne
  | cons t ts ih' =>
      rw [List.forall_mem_cons] at ih
      cases ts with
      | nil =>
          rw [List.map_singleton, List.intercalate_singleton] at h
          obtain ⟨row, hr, hs⟩ := ih.1 tokens h
          exact ⟨[row], row, hr, List.Forall₂.cons hs List.Forall₂.nil, Between.last row⟩
      | cons u us =>
          rw [List.map_cons, List.intercalate_cons_of_ne_nil (by simp), List.append_assoc] at h
          obtain ⟨before, rest, rfl, hb, h⟩ := spells_append.mp h
          obtain ⟨operator, after, rfl, ho, ha⟩ := spells_cons.mp h
          have uses : g.Uses symbol operator := Prod.mk.inj ho
          obtain ⟨row, hr, hs⟩ := ih.1 before hb
          obtain ⟨rows, rest, hr', hs', hb'⟩ := ih' (List.cons_ne_nil u us) ih.2 ha
          have hop : operator.kind.isOperator = true :=
            TokenKind.isOperator_of_isInfix (uses.2 ▸ g.isInfix_infixKind symbol)
          exact ⟨row :: rows, row ++ .operator operator :: rest,
            hr.append (Reads.operator hop hr'), List.Forall₂.cons hs hs',
            Between.cons uses hb'⟩

theorem readable_joined {symbol : String} {children : List TokenTree}
    (ordered : g.OperandsOrdered symbol children) (rank : (g.precedence symbol).isSome = true)
    (shallow : (TokenTree.node symbol (g.infixKind symbol) children).height ≤ g.maxDepth.toNat)
    (ih : ∀ t ∈ children, g.Readable n t) :
    g.Readable n (.node symbol (g.infixKind symbol) children) := by
  intro tokens hs
  rw [TokenTree.inOrder_of_isInfix (g.isInfix_infixKind symbol)] at hs
  have hne : children ≠ [] := by
    have := ordered.two_le_length
    rintro rfl
    simp at this
  obtain ⟨rows, row, hr, hc, hb⟩ := exists_between hne ih hs
  exact ⟨row, hr, spreads_joined ordered rank shallow hc hb⟩

theorem readable_preUnary {name : String} {t : TokenTree} (kind : t.kind.isInfix = false)
    (shallow : (TokenTree.node name .preUnary [t]).height ≤ g.maxDepth.toNat)
    (ih : g.Readable n t) : g.Readable n (.node name .preUnary [t]) := by
  intro tokens hs
  rw [TokenTree.inOrder_preUnary] at hs
  obtain ⟨token, rest, rfl, ht, hrest⟩ := spells_cons.mp hs
  obtain ⟨rfl, hk⟩ := Prod.mk.inj ht
  obtain ⟨row, hr, spreads⟩ := ih rest hrest
  exact ⟨_, Reads.operator (by rw [hk]; rfl) hr, spreads.preUnary kind hk shallow⟩

theorem readable_postUnary {name : String} {t : TokenTree} (kind : t.kind.isInfix = false)
    (hne : t.kind ≠ .preUnary)
    (shallow : (TokenTree.node name .postUnary [t]).height ≤ g.maxDepth.toNat)
    (ih : g.Readable n t) : g.Readable n (.node name .postUnary [t]) := by
  intro tokens hs
  rw [TokenTree.inOrder_postUnary] at hs
  obtain ⟨before, after, rfl, hb, hafter⟩ := spells_append.mp hs
  obtain ⟨token, rest, rfl, ht, hrest⟩ := spells_cons.mp hafter
  obtain ⟨rfl, hk⟩ := Prod.mk.inj ht
  obtain rfl := spells_nil.mp hrest
  obtain ⟨row, hr, spreads⟩ := ih before hb
  exact ⟨_, hr.append (Reads.operator (by rw [hk]; rfl) Reads.nil),
    spreads.postUnary kind hne hk shallow⟩

/-! ### Groups and calls -/

theorem exists_enclosed {e : Enclosing} {marks : List Mark} {t : TokenTree}
    (opener : g.IsOpener e.opener.text) (opens : e.Opens g) (shallow : n < g.maxDepth.toNat)
    (kind : t.kind.isInfix = false)
    (ih : ∀ inner, g.Spells inner marks →
      ∃ content, Reads g (n + 1) inner content ∧ Reading.close g e content = .ok (.of t))
    {tokens : List Token} (h : g.Spells tokens (marks ++ [.closer e.opener.text])) :
    ∃ row, Reads g n (e.tokens ++ tokens) row ∧ g.Spreads t row := by
  obtain ⟨inner, after, rfl, hi, hafter⟩ := spells_append.mp h
  obtain ⟨closer, rest, rfl, hc, hrest⟩ := spells_cons.mp hafter
  obtain ⟨hct, hck⟩ := Prod.mk.inj hc
  obtain rfl := spells_nil.mp hrest
  obtain ⟨content, hr, hb⟩ := ih inner hi
  have hcl : g.closes e.opener.text closer.text = true := hct ▸ closes_closerOf opener
  have := Reads.enclosed opens shallow hck hcl hr hb Reads.nil
  rw [List.append_assoc] at this
  exact ⟨_, this, spreads_operand kind⟩

theorem readable_opening {name : String} {t : TokenTree} (opener : g.IsOpener name)
    (shallow : n + (TokenTree.node name .opening [t]).height ≤ g.maxDepth.toNat)
    (ih : g.Readable (n + 1) t) : g.Readable n (.node name .opening [t]) := by
  intro tokens hs
  have := TokenTree.height_pos (.node name .opening [t])
  rw [TokenTree.inOrder_opening] at hs
  obtain ⟨token, rest, rfl, ht, hrest⟩ := spells_cons.mp hs
  obtain ⟨rfl, hk⟩ := Prod.mk.inj ht
  refine exists_enclosed (e := .group token) opener hk (by omega) rfl ?_ hrest
  intro inner hi
  obtain ⟨content, hr, spreads⟩ := ih inner hi
  have hw : g.wrap token.text .opening ([t].map .of) = .ok (.of (.node token.text .opening [t])) :=
    wrap_of (by omega)
  exact ⟨content, hr, close_group_eq_ok.mpr ⟨.of t, spreads.built, hw⟩⟩

theorem wrap_argument {name : String} {t : TokenTree}
    (alone : ¬ (t.kind.isInfix = true ∧ t.name = g.argumentSeparator))
    (shallow : (TokenTree.node name .function [t]).height ≤ g.maxDepth.toNat) :
    g.wrap name .function ((Measured.of t).arguments g.argumentSeparator) =
      .ok (.of (.node name .function [t])) := by
  unfold Measured.arguments
  rw [if_neg (by simpa [Measured.of] using alone)]
  exact wrap_of shallow

theorem wrap_arguments {name : String} {arguments : List TokenTree} (hne : arguments ≠ [])
    (shallow : (TokenTree.node name .function arguments).height ≤ g.maxDepth.toNat) :
    g.wrap name .function
        ((Measured.of (.node g.argumentSeparator (g.infixKind g.argumentSeparator)
          arguments)).arguments g.argumentSeparator) =
      .ok (.of (.node name .function arguments)) := by
  rw [TokenTree.height] at shallow
  unfold Measured.arguments
  rw [if_pos (by simp [Measured.of, TokenTree.kind, TokenTree.name, isInfix_infixKind])]
  rw [wrap_eq_ok]
  simp only [Measured.of, TokenTree.children, TokenTree.height]
  rw [Measured.deepest_map_const hne, List.map_map]
  refine ⟨by omega, ?_⟩
  have hmap : arguments.map (Measured.tree ∘ fun t =>
      ⟨t, 1 + TokenTree.heightOfAll arguments - 1⟩) = arguments := List.map_id arguments
  rw [hmap, Nat.add_sub_cancel_left]

theorem readable_function {name : String} {arguments : List TokenTree}
    (opener : g.IsOpener g.argumentOpener) (ordered : g.ArgumentsOrdered arguments)
    (rank : 2 ≤ arguments.length → (g.precedence g.argumentSeparator).isSome = true)
    (shallow : n + (TokenTree.node name .function arguments).height ≤ g.maxDepth.toNat)
    (ih : ∀ t ∈ arguments, g.Readable (n + 1) t) :
    g.Readable n (.node name .function arguments) := by
  intro tokens hs
  have := TokenTree.height_pos (.node name .function arguments)
  rw [TokenTree.inOrder_function] at hs
  obtain ⟨function, rest, rfl, hf, hrest⟩ := spells_cons.mp hs
  obtain ⟨rfl, hfk⟩ := Prod.mk.inj hf
  obtain ⟨token, after, rfl, ht, hafter⟩ := spells_cons.mp hrest
  obtain ⟨htt, htk⟩ := Prod.mk.inj ht
  have htt : token.text = g.argumentOpener := htt
  rw [← htt] at opener hafter
  refine exists_enclosed (e := .call function token) opener ⟨hfk, htk, htt⟩ (by omega) rfl ?_
    hafter
  intro inner hi
  -- A call with arguments is closed over the tree of its content, which is what is read back.
  have close : ∀ c, g.Readable (n + 1) c → g.Spells inner (c.inOrder g) →
      g.wrap function.text .function ((Measured.of c).arguments g.argumentSeparator) =
        .ok (.of (.node function.text .function arguments)) →
      ∃ content, Reads g (n + 1) inner content ∧
        Reading.close g (.call function token) content =
          .ok (.of (.node function.text .function arguments)) := by
    intro c hc hi hw
    obtain ⟨content, hr, spreads⟩ := hc inner hi
    exact ⟨content, hr, close_call_eq_ok.mpr (Or.inr ⟨spreads.ne_nil, .of c, spreads.built, hw⟩)⟩
  rcases ordered with rfl | ⟨hone, alone⟩ | ordered
  · obtain rfl := spells_nil.mp hi
    have hw : g.wrap function.text .function ([].map .of) =
        .ok (.of (.node function.text .function [])) := wrap_of (by omega)
    exact ⟨[], Reads.nil, close_call_eq_ok.mpr (Or.inl ⟨rfl, hw⟩)⟩
  · obtain ⟨t, rfl⟩ := List.length_eq_one_iff.mp hone
    rw [List.map_singleton, List.intercalate_singleton] at hi
    refine close t (ih t List.mem_cons_self) hi (wrap_argument ?_ (by omega))
    exact alone t List.mem_cons_self
  · have two := ordered.two_le_length
    have hne : arguments ≠ [] := by
      rintro rfl
      simp at two
    have hh : (TokenTree.node g.argumentSeparator (g.infixKind g.argumentSeparator)
        arguments).height ≤ g.maxDepth.toNat := by
      rw [TokenTree.height] at shallow ⊢
      omega
    refine close _ (readable_joined ordered (rank two) hh ih) ?_ (wrap_arguments hne (by omega))
    rw [TokenTree.inOrder_of_isInfix (g.isInfix_infixKind _)]
    exact hi

/-! ### Every tree -/

theorem readable (opener : g.IsOpener g.argumentOpener) {t : TokenTree}
    (ordered : ∀ u ∈ t.nodes, g.RespectsOrder u) (writable : ∀ u ∈ t.nodes, g.Writable u)
    (shallow : n + t.height ≤ g.maxDepth.toNat) : g.Readable n t := by
  induction t using TokenTree.induction generalizing n with
  | node name kind children ih =>
      rw [TokenTree.forall_mem_nodes] at ordered writable
      obtain ⟨ordered, below⟩ := ordered
      obtain ⟨writable, writableBelow⟩ := writable
      -- Below a delimiter there is one level more, for which a lower tree leaves room.
      have inside : ∀ k ≤ 1, ∀ t ∈ children, g.Readable (n + k) t := by
        intro k hk t ht
        have : t.height < (TokenTree.node name kind children).height :=
          TokenTree.height_lt_of_mem ht
        exact ih t ht (below t ht) (writableBelow t ht) (by omega)
      have beside : ∀ t ∈ children, g.Readable n t := inside 0 (Nat.zero_le 1)
      have within : ∀ t ∈ children, g.Readable (n + 1) t := inside 1 (Nat.le_refl 1)
      cases kind with
      | number =>
          obtain rfl : children = [] := ordered
          exact readable_leaf (Or.inl rfl)
      | identifier =>
          obtain rfl : children = [] := ordered
          exact readable_leaf (Or.inr rfl)
      | opening =>
          obtain ⟨t, rfl⟩ := List.length_eq_one_iff.mp ordered
          exact readable_opening writable shallow (within t List.mem_cons_self)
      | function => exact readable_function opener ordered writable shallow within
      | preUnary =>
          obtain ⟨hone, hk⟩ := ordered
          obtain ⟨t, rfl⟩ := List.length_eq_one_iff.mp hone
          have ht : t ∈ [t] := List.mem_cons_self
          exact readable_preUnary (hk t ht) (by omega) (beside t ht)
      | postUnary =>
          obtain ⟨hone, hk⟩ := ordered
          obtain ⟨t, rfl⟩ := List.length_eq_one_iff.mp hone
          have ht : t ∈ [t] := List.mem_cons_self
          exact readable_postUnary (hk t ht).1 (hk t ht).2 (by omega) (beside t ht)
      | binary | multary =>
          obtain ⟨hk, rank⟩ := writable
          rw [hk] at shallow ⊢
          exact readable_joined ordered rank (by omega) beside
      | closing | top => exact absurd ordered id

end Grammar

/-- **Building a tree undoes writing it out.**  Let a tree respect the order of operations, let its
operators and delimiters be such that they can be read, and let it be no deeper than the grammar
allows.  From any tokens with the texts and roles in which it is written out, it is built. -/
theorem ofTokens_of_inOrder {d : Declaration} {g : Grammar} (built : d.build = .ok g)
    {expression : TokenTree} (ordered : ∀ n ∈ expression.nodes, g.RespectsOrder n)
    (writable : ∀ n ∈ expression.nodes, g.Writable n)
    (shallow : expression.depth ≤ g.maxDepth.toNat) {tokens : List Token}
    (spelled : tokens.map Token.spelling = (expression.inOrder g).map (Mark.spelling g)) :
    TokenTree.ofTokens g tokens = .ok (.top expression) := by
  rw [TokenTree.depth_eq_height] at shallow
  obtain ⟨row, hr, spreads⟩ := Grammar.readable (Grammar.isOpener_argumentOpener built) ordered
    writable (Nat.le_trans (Nat.le_of_eq (Nat.zero_add _)) shallow) tokens spelled
  exact ofTokens_eq_ok.mpr ⟨row, .of expression, hr, spreads.built, rfl⟩

theorem ofTokens_of_inOrder_sample :
    (∀ n ∈ sampleTree.nodes, Grammar.real.RespectsOrder n) ∧
      (∀ n ∈ sampleTree.nodes, Grammar.real.Writable n) ∧
      TokenTree.ofTokens Grammar.real sampleTokens = .ok (.top sampleTree) := by
  have built : Declaration.real.build = .ok Grammar.real :=
    Declaration.build_eq_ok.mpr ⟨by decide +kernel, rfl⟩
  have ordered : ∀ n ∈ sampleTree.nodes, Grammar.real.RespectsOrder n := by decide +kernel
  have writable : ∀ n ∈ sampleTree.nodes, Grammar.real.Writable n := by decide +kernel
  refine ⟨ordered, writable, ofTokens_of_inOrder built ordered writable ?_ ?_⟩
  · decide +kernel
  · decide +kernel

end OperatorGrammar
