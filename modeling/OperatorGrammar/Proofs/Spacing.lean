import OperatorGrammar.Proofs.Scan.Respaced
import OperatorGrammar.Proofs.TokenTree.Places
import OperatorGrammar.Term.OfTree

/-! # White space between tokens carries no meaning

Texts of a bundled language that differ in the separators between their tokens only have the same
tokens but for their places (`tokenize_respaced`).  Trees do not depend on places
(`ofTokens_unplaced`), and the errors that such tokens can still give do not report any.  So the
texts have the same tree and the same term, or are refused for the same reason. -/

namespace OperatorGrammar

variable {g : Grammar} {tokens : List Token} {input input' : String}

/-- Tokens of a text of a bundled language are refused for a reason without a place. -/
theorem unplaced_of_ofTokens_eq_error (hg : g ∈ Grammar.bundled)
    (h : tokenize g input = .ok tokens) {e : ParseError}
    (he : TokenTree.ofTokens g tokens = .error e) : e.unplaced = e := by
  have called := Scan.called_of_apart (Grammar.argumentOpenerApart_of_bundled g hg)
    (Grammar.isOpener_of_bundled g hg) h
  cases (Scan.scanned_of_tokenize h).ofTokens.2 e he with
  | limit he | gap he => cases e <;> first | rfl | cases he
  | uncalled uncalled => exact absurd called uncalled

theorem ofTokens_eq_of_spelling (hg : g ∈ Grammar.bundled) {tokens' : List Token}
    (h : tokenize g input = .ok tokens) (h' : tokenize g input' = .ok tokens')
    (spelled : tokens'.map Token.spelling = tokens.map Token.spelling) :
    TokenTree.ofTokens g tokens' = TokenTree.ofTokens g tokens := by
  rcases outcomes_of_mapError_eq (ofTokens_unplaced (g := g) spelled) with
    ⟨tree, ht', ht⟩ | ⟨e', e, he', he, hsame⟩
  · rw [ht', ht]
  · rw [unplaced_of_ofTokens_eq_error hg h' he', unplaced_of_ofTokens_eq_error hg h he] at hsame
    rw [he', he, hsame]

/-- **White space carries no meaning.**  A text of a bundled language that has tokens consists of
their pieces and separators between them.  Let another text have other separators between the same
pieces, at the start and at the end, but some where the first one has some.  Then it has tokens with
the same texts and roles in the same order, and the same tree and the same term, or they are refused
for the same reason. -/
theorem ofText_respaced (hg : g ∈ Grammar.bundled) (h : tokenize g input = .ok tokens) :
    Respaced 0 (writtenTokens tokens) input.toList input.toList ∧
    ∀ input' : String, Respaced 0 (writtenTokens tokens) input.toList input'.toList →
      (∃ tokens', tokenize g input' = .ok tokens' ∧
        tokens'.map Token.spelling = tokens.map Token.spelling) ∧
      TokenTree.ofText g input' = TokenTree.ofText g input ∧
      Term.ofText g input' = Term.ofText g input := by
  refine ⟨respaced_self (Grammar.noEmptySymbol_of_bundled g hg) h, fun input' hr => ?_⟩
  obtain ⟨tokens', h', spelled⟩ := tokenize_respaced hg h hr
  have htree : TokenTree.ofText g input' = TokenTree.ofText g input := by
    unfold TokenTree.ofText
    rw [h', h]
    exact ofTokens_eq_of_spelling hg h h' spelled
  refine ⟨⟨tokens', h', spelled⟩, htree, ?_⟩
  unfold Term.ofText
  rw [htree]

/-- A product that is not written, and an argument list behind its function. -/
theorem ofText_respaced_sample :
    Grammar.real ∈ Grammar.bundled ∧
      ∃ tokens, tokenize Grammar.real "2 sin(x)" = .ok tokens ∧
        Respaced 0 (writtenTokens tokens) "2 sin(x)".toList "\t2\n\n sin ( x)\r\n".toList ∧
        TokenTree.ofText Grammar.real "\t2\n\n sin ( x)\r\n" =
          TokenTree.ofText Grammar.real "2 sin(x)" := by
  have hmem : Grammar.real ∈ Grammar.bundled := by simp [Grammar.bundled]
  have ht : tokenize Grammar.real "2 sin(x)" = .ok [⟨"2", .number, 0⟩, ⟨"*", .multary, 2⟩,
      ⟨"sin", .function, 2⟩, ⟨"(", .opening, 5⟩, ⟨"x", .identifier, 6⟩,
      ⟨")", .closing, 7⟩] := by decide +kernel
  have hr : Respaced 0 (writtenTokens [⟨"2", .number, 0⟩, ⟨"*", .multary, 2⟩,
      ⟨"sin", .function, 2⟩, ⟨"(", .opening, 5⟩, ⟨"x", .identifier, 6⟩, ⟨")", .closing, 7⟩])
      "2 sin(x)".toList "\t2\n\n sin ( x)\r\n".toList := by
    have ends : Respaced 8 [] [] ['\r', '\n'] := .nil (by simp) (by simp [isSeparator]) (by simp)
    have closing := @Respaced.cons 7 ⟨")", .closing, 7⟩ _ [] [] [')'] _ _ (by simp) (by simp)
      (by simp) rfl rfl ends
    have name := @Respaced.cons 6 ⟨"x", .identifier, 6⟩ _ [] [' '] ['x'] _ _ (by simp)
      (by simp [isSeparator]) (by simp) rfl rfl closing
    have opening := @Respaced.cons 5 ⟨"(", .opening, 5⟩ _ [] [' '] ['('] _ _ (by simp)
      (by simp [isSeparator]) (by simp) rfl rfl name
    have function := @Respaced.cons 1 ⟨"sin", .function, 2⟩ _ [' '] ['\n', '\n', ' ']
      ['s', 'i', 'n'] _ _ (by simp [isSeparator]) (by simp [isSeparator]) (by simp) rfl rfl opening
    exact @Respaced.cons 0 ⟨"2", .number, 0⟩ _ [] ['\t'] ['2'] _ _ (by simp)
      (by simp [isSeparator]) (by simp) rfl rfl function
  exact ⟨hmem, _, ht, hr, ((ofText_respaced hmem ht).2 _ hr).2.1⟩

end OperatorGrammar
