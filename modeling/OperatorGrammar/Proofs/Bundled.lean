import OperatorGrammar.Proofs.Scan.ArgumentList

/-! # Which texts of the bundled languages have a tree

In a grammar all of whose infix operators have a precedence (`Grammar.Ranked`) no text is refused
for want of one, since scanning calls nothing else an infix operator (`Scanned.isBetween_of_mem`).
The bundled grammars are of this kind, and their symbols keep apart from the opener of argument
lists, so that only two causes of failure remain for tokens of a text: they are nested too deep, or
an operand is missing, and the latter is seen from the roles of the tokens alone
(`ofTokens_bundled`). -/

namespace OperatorGrammar

variable {g : Grammar} {tokens : List Token} {token : Token} {pairs : List Parenthetical}

namespace Grammar

/-- The symbols that can stand between operands. -/
def betweenSymbols (g : Grammar) : List String :=
  g.multary ++ g.nary.keys ++ g.implicitOperator.toList

theorem IsBetween.mem_betweenSymbols {symbol : String} (h : g.IsBetween symbol) :
    symbol ∈ g.betweenSymbols := by
  unfold betweenSymbols
  rcases h with h | h | h
  · have : symbol ∈ g.multary := by simpa [isMultary] using h
    simp [this]
  · simp [Table.mem_keys.mpr h]
  · simp [h]

/-- Every symbol that can stand between operands has a precedence. -/
def Ranked (g : Grammar) : Prop := ∀ symbol ∈ g.betweenSymbols, g.precedence symbol ≠ none

instance (g : Grammar) : Decidable g.Ranked :=
  inferInstanceAs (Decidable (∀ symbol ∈ g.betweenSymbols, _))

/-- The bundled grammars. -/
def bundled : List Grammar := [real, boolean, test]

theorem ranked_of_bundled : ∀ g ∈ bundled, g.Ranked := by decide +kernel

theorem argumentOpenerApart_of_bundled : ∀ g ∈ bundled, g.ArgumentOpenerApart := by
  decide +kernel

theorem isOpener_of_bundled : ∀ g ∈ bundled, g.IsOpener g.argumentOpener := by decide +kernel

end Grammar

/-- What scanning calls an infix operator can stand between operands. -/
theorem Scanned.isBetween_of_mem (h : Scanned g tokens pairs) (hmem : token ∈ tokens)
    (hi : token.kind.isInfix = true) : g.IsBetween token.text := by
  obtain ⟨before, after, hsplit⟩ := List.append_of_mem hmem
  obtain ⟨_, _, -, placed⟩ := h.placed hsplit
  cases placed with
  | between _ _ symbol => exact symbol
  | operand _ hk =>
      rcases hk with hk | hk | hk | hk <;> rw [hk] at hi <;> cases hi
  | postUnary _ hk | opening _ hk | closing hk =>
      rw [hk] at hi
      cases hi

/-- In a ranked grammar no operator of a text lacks a precedence. -/
theorem Grammar.Ranked.ofTokens_ne_noPrecedence (ranked : g.Ranked) (h : Scanned g tokens pairs)
    (symbol : String) : TokenTree.ofTokens g tokens ≠ .error (.noPrecedence symbol) := by
  intro he
  obtain ⟨token, hmem, hi, rfl, hn⟩ := mem_of_ofTokens_eq_noPrecedence he
  exact ranked _ (h.isBetween_of_mem hmem hi).mem_betweenSymbols hn

/-- **The texts of the bundled languages.**  Tokens of a text have a tree, or lack an operand, or
are nested too deep.  Unless they are nested too deep, they have a tree exactly if an operand ends
at the last token and before every closing delimiter, an empty argument list apart. -/
theorem ofTokens_bundled (hg : g ∈ Grammar.bundled) {input : String}
    (h : tokenize g input = .ok tokens) :
    (∀ e, TokenTree.ofTokens g tokens = .error e →
      e = .emptyExpression ∨ (∃ operator, e = .missingOperand operator) ∨
        ∃ limit, e = .nestingTooDeep limit) ∧
    ((∀ limit, TokenTree.ofTokens g tokens ≠ .error (.nestingTooDeep limit)) →
      ((∃ t, TokenTree.ofTokens g tokens = .ok t) ↔ Complete tokens)) := by
  have scanned := Scan.scanned_of_tokenize h
  have called := Scan.called_of_apart (Grammar.argumentOpenerApart_of_bundled g hg)
    (Grammar.isOpener_of_bundled g hg) h
  obtain ⟨complete, flaw⟩ := scanned.ofTokens
  -- The causes that are left, with what each says about the tokens.
  have causes (e : ParseError) (he : TokenTree.ofTokens g tokens = .error e) :
      (e.IsGap ∧ ¬ Complete tokens) ∨ ∃ limit, e = .nestingTooDeep limit := by
    cases flaw e he with
    | limit hl =>
        cases e with
        | nestingTooDeep limit => exact Or.inr ⟨limit, rfl⟩
        | noPrecedence symbol =>
            have ranked := Grammar.ranked_of_bundled g hg
            exact absurd he (ranked.ofTokens_ne_noPrecedence scanned symbol)
        | _ => cases hl
    | gap hgap incomplete => exact Or.inl ⟨hgap, incomplete⟩
    | uncalled uncalled => exact absurd called uncalled
  constructor
  · intro e he
    rcases causes e he with ⟨hgap, -⟩ | hlimit
    · cases e with
      | emptyExpression => exact Or.inl rfl
      | missingOperand operator => exact Or.inr (Or.inl ⟨operator, rfl⟩)
      | _ => cases hgap
    · exact Or.inr (Or.inr hlimit)
  · intro hshallow
    constructor
    · rintro ⟨t, ht⟩
      exact complete t ht
    · intro hcomplete
      cases ht : TokenTree.ofTokens g tokens with
      | ok t => exact ⟨t, rfl⟩
      | error e =>
          rcases causes e ht with ⟨-, incomplete⟩ | ⟨limit, rfl⟩
          · exact absurd hcomplete incomplete
          · exact absurd ht (hshallow limit)

/-- A prefix, a product that is not written, an empty argument list and equal delimiters. -/
theorem ofTokens_bundled_sample :
    Grammar.real ∈ Grammar.bundled ∧
      ∃ tokens, tokenize Grammar.real "-2|x|! + sum()" = .ok tokens ∧ Complete tokens := by
  have hmem : Grammar.real ∈ Grammar.bundled := by simp [Grammar.bundled]
  have hok : TokenTree.ofText Grammar.real "-2|x|! + sum()" = .ok (.top
      (.node "+" .multary [
        .node "*" .multary [
          .node "-" .preUnary [.leaf "2" .number],
          .node "!" .postUnary [.node "|" .opening [.leaf "x" .identifier]]],
        .leaf "sum" .function])) := by decide +kernel
  obtain ⟨tokens, ht, hok⟩ := bind_eq_ok.mp hok
  refine ⟨hmem, tokens, ht, ?_⟩
  refine ((ofTokens_bundled hmem ht).2 ?_).mp ⟨_, hok⟩
  intro limit he
  rw [hok] at he
  cases he

end OperatorGrammar
