import OperatorGrammar.Proofs.Scan.SpelledOut
import OperatorGrammar.Proofs.Spacing
import OperatorGrammar.Term.Evaluation

/-! # Juxtaposition is shorthand for the implicit operator

Where an operand of a bundled language stands right behind another one, the implicit operator may
be left out or written: the tokens have the same texts and roles (`tokenize_spellOut`).  All that
comes after scanning sees nothing else of them.  So the text has the same tree, the same term and
the same value however many of these operators it writes out. -/

namespace OperatorGrammar

variable {g : Grammar} {symbol : String} {places : List Nat} {tokens : List Token} {input : String}

/-- **Juxtaposition is pure shorthand.**  Let a text of a bundled language have tokens, and let the
implicit operator be written between spaces at the places of some of the tokens that stand for it
unwritten.  The text so written has tokens with the same texts and roles in the same order, and it
has the same tree, the same term and the same value under any bindings, or is refused for the same
reason. -/
theorem evaluateText_spellOut (hg : g ∈ Grammar.bundled)
    (implicit : g.implicitOperator = some symbol) (h : tokenize g input = .ok tokens)
    (unwritten : ∀ place ∈ places, ∃ before t after, tokens = before ++ t :: after ∧
      Scan.Inserted g input before t ∧ t.position = place) :
    let written := String.ofList (spellOut symbol.toList places 0 input.toList)
    (∃ tokens', tokenize g written = .ok tokens' ∧
      tokens'.map Token.spelling = tokens.map Token.spelling) ∧
    TokenTree.ofText g written = TokenTree.ofText g input ∧
    Term.ofText g written = Term.ofText g input ∧
    ∀ b, evaluateText g b written = evaluateText g b input := by
  intro written
  obtain ⟨tokens', h', spelled⟩ := tokenize_spellOut hg implicit h unwritten
  have htree : TokenTree.ofText g written = TokenTree.ofText g input := by
    unfold TokenTree.ofText
    rw [h', h]
    exact ofTokens_eq_of_spelling hg h h' spelled
  have hterm : Term.ofText g written = Term.ofText g input := by
    unfold Term.ofText
    rw [htree]
  refine ⟨⟨tokens', h', spelled⟩, htree, hterm, fun b => ?_⟩
  unfold evaluateText
  rw [hterm]

/-- One of the two products of a number, bars and a call. -/
theorem evaluateText_spellOut_sample :
    Grammar.real ∈ Grammar.bundled ∧ Grammar.real.implicitOperator = some "*" ∧
      spellOut "*".toList [4] 0 "2|x|sin(y)".toList = "2|x| * sin(y)".toList ∧
      ∀ b, evaluateText Grammar.real b "2|x| * sin(y)" =
        evaluateText Grammar.real b "2|x|sin(y)" := by
  have hmem : Grammar.real ∈ Grammar.bundled := by simp [Grammar.bundled]
  have ht : tokenize Grammar.real "2|x|sin(y)" = .ok [⟨"2", .number, 0⟩, ⟨"*", .multary, 1⟩,
      ⟨"|", .opening, 1⟩, ⟨"x", .identifier, 2⟩, ⟨"|", .closing, 3⟩, ⟨"*", .multary, 4⟩,
      ⟨"sin", .function, 4⟩, ⟨"(", .opening, 7⟩, ⟨"y", .identifier, 8⟩, ⟨")", .closing, 9⟩] := by
    decide +kernel
  have hw : spellOut "*".toList [4] 0 "2|x|sin(y)".toList = "2|x| * sin(y)".toList := by
    decide +kernel
  refine ⟨hmem, rfl, hw, fun b => ?_⟩
  have same := (@evaluateText_spellOut _ "*" [4] _ _ hmem rfl ht fun place hplace => by
    obtain rfl := List.mem_singleton.mp hplace
    exact ⟨[_, _, _, _, _], ⟨"*", .multary, 4⟩, _, rfl,
      Scan.inserted_of_same_place (Grammar.noEmptySymbol_of_bundled _ hmem) ht rfl, rfl⟩).2.2.2 b
  rwa [hw, String.ofList_toList] at same

end OperatorGrammar
