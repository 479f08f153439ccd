import OperatorGrammar.Proofs.Scan.Letters
import OperatorGrammar.Proofs.Scan.Source

/-! # Scanning does not tell the case of letters

In a grammar without case, every question that a step asks a text has the same answer for the text
in lowercase: whether a symbol begins it, whether a word goes on, where a number, a name or the
separators end, and what a name is called.  So scanning the text in lowercase gives the same tokens,
or the same error, but for what is taken over from the text as it stands there: the texts of numbers
and of what is not recognized (`tokenize_lowered`).  Two texts that differ in the case of letters
are the same in lowercase. -/

namespace OperatorGrammar

/-- A text with its ASCII letters in lowercase. -/
def lowered (text : String) : String := String.ofList (text.toList.map Char.toLower)

theorem lowered_ofList (cs : List Char) :
    lowered (String.ofList cs) = String.ofList (cs.map Char.toLower) := by
  rw [lowered, String.toList_ofList]

/-- The text of a token without the case of what it takes over from the text that it stands in: a
number may have a letter before its exponent. -/
def TokenKind.caseless (kind : TokenKind) (text : String) : String :=
  if kind = .number then lowered text else text

def Token.caseless (token : Token) : Token :=
  { token with text := token.kind.caseless token.text }

def ParseError.caseless : ParseError → ParseError
  | .unrecognized text position => .unrecognized (lowered text) position
  | e => e

/-- An outcome without the case of letters, where the result is rid of it by a function. -/
def caselessly {α : Type} (f : α → α) (outcome : Except ParseError α) : Except ParseError α :=
  (outcome.mapError ParseError.caseless).map f

theorem caselessly_bind {α β : Type} {f : α → α} {f' : β → β} {outcome : Except ParseError α}
    {next next' : α → Except ParseError β} (h : ∀ a, next' (f a) = caselessly f' (next a)) :
    caselessly f outcome >>= next' = caselessly f' (outcome >>= next) := by
  cases outcome with
  | error e => rfl
  | ok a => exact h a

theorem TokenKind.caseless_of_ne {kind : TokenKind} (h : kind ≠ .number) (text : String) :
    kind.caseless text = text := if_neg h

theorem Token.caseless_of_ne {token : Token} (h : token.kind ≠ .number) : token.caseless = token :=
  congrArg (Token.mk · token.kind token.position) (TokenKind.caseless_of_ne h token.text)

theorem Token.kind_eq_of_caseless_eq {token token' : Token} (h : token'.caseless = token.caseless) :
    token'.kind = token.kind := by
  have : token'.caseless.kind = token.caseless.kind := by rw [h]
  exact this

theorem Token.eq_of_caseless_eq {token token' : Token} (hk : token.kind ≠ .number)
    (h : token'.caseless = token.caseless) : token' = token := by
  have hk' : token'.kind ≠ .number := kind_eq_of_caseless_eq h ▸ hk
  rwa [caseless_of_ne hk, caseless_of_ne hk'] at h

variable {g : Grammar} {c : Char} {cs text : List Char} {symbol : String}

/-! ### Numbers, names and separators -/

namespace Lexeme

theorem fractionPart_toLower (cs : List Char) :
    fractionPart (cs.map Char.toLower) = (fractionPart cs).map Char.toLower := by
  cases cs with
  | nil => rfl
  | cons c cs =>
      by_cases hc : c = '.'
      · subst hc
        have point : Char.toLower '.' = '.' := by decide
        simp only [List.map_cons, point, fractionPart, takeWhile_toLower isDigit_toLower,
          List.map_eq_nil_iff]
        split <;> rfl
      · have hlower : ¬ c.toLower = '.' := mt (toLower_eq_iff (by decide)).mp hc
        have nil {d : Char} (hd : ¬ d = '.') (ds : List Char) : fractionPart (d :: ds) = [] := by
          unfold fractionPart
          split
          · next h => exact absurd (List.cons.inj h).1 hd
          · rfl
        rw [List.map_cons, nil hlower, nil hc]
        rfl

theorem exponentPart_toLower (cs : List Char) :
    exponentPart (cs.map Char.toLower) = (exponentPart cs).map Char.toLower := by
  have digits (ds : List Char) : (ds.map Char.toLower).takeWhile isDigit = [] ↔
      ds.takeWhile isDigit = [] := by
    rw [takeWhile_toLower isDigit_toLower, List.map_eq_nil_iff]
  match cs with
  | [] => rfl
  | [e] =>
      simp only [List.map_cons, List.map_nil, exponentPart, exponentLetter_toLower]
      split <;> rfl
  | e :: sign :: tail =>
      have hsign : (sign.toLower = '+' ∨ sign.toLower = '-') ↔ (sign = '+' ∨ sign = '-') := by
        rw [toLower_eq_iff (by decide), toLower_eq_iff (by decide)]
      have htail := digits (sign :: tail)
      rw [List.map_cons] at htail
      simp only [List.map_cons, exponentPart, exponentLetter_toLower, hsign, digits, htail]
      split
      · split
        · split
          · rfl
          · rw [takeWhile_toLower isDigit_toLower]
            rfl
        · split
          · rfl
          · rw [← List.map_cons, takeWhile_toLower isDigit_toLower]
            rfl
      · rfl

theorem numberPart_toLower (cs : List Char) :
    numberPart (cs.map Char.toLower) = (numberPart cs).map Char.toLower := by
  unfold numberPart
  simp only [takeWhile_toLower isDigit_toLower, List.length_map, List.length_append,
    ← List.map_drop, fractionPart_toLower, ← List.map_append, exponentPart_toLower,
    List.map_eq_nil_iff]
  split <;> rfl

theorem namePart_toLower (cs : List Char) :
    namePart (cs.map Char.toLower) = (namePart cs).map Char.toLower := by
  cases cs with
  | nil => rfl
  | cons c cs =>
      simp only [List.map_cons, namePart, isNameStart_toLower, takeWhile_toLower isNameChar_toLower]
      split <;> rfl

theorem read?_toLower (cs : List Char) :
    read? (cs.map Char.toLower) =
      (read? cs).map fun found => (found.1, found.2.map Char.toLower) := by
  unfold read?
  simp only [numberPart_toLower, namePart_toLower, takeWhile_toLower isSeparator_toLower,
    ne_eq, List.map_eq_nil_iff]
  split
  · rfl
  · split
    · rfl
    · split <;> rfl

end Lexeme

/-! ### Symbols -/

theorem beginsWith_toLower (cs ds : List Char) :
    beginsWith false (cs.map Char.toLower) ds = beginsWith false cs ds := by
  induction ds generalizing cs with
  | nil => unfold beginsWith; rfl
  | cons d ds ih =>
      cases cs with
      | nil => rfl
      | cons c cs =>
          rw [List.map_cons, beginsWith, beginsWith, ih]
          simp only [sameChar, Bool.false_eq_true, if_false, toLower_toLower]

theorem splitsWord_toLower (text : List Char) (symbol : String) :
    splitsWord (text.map Char.toLower) symbol = splitsWord text symbol := by
  unfold splitsWord
  rw [← List.map_drop, List.head?_map, Option.any_map]
  congr 2
  exact funext isNameChar_toLower

namespace Grammar

section insensitive

variable (insensitive : g.caseSensitive = false)

include insensitive

theorem startsWith_toLower (text : List Char) (symbol : String) :
    g.startsWith (text.map Char.toLower) symbol = g.startsWith text symbol := by
  unfold startsWith
  rw [insensitive, beginsWith_toLower]

theorem operatorAt?_toLower (text : List Char) :
    g.operatorAt? (text.map Char.toLower) = g.operatorAt? text := by
  unfold operatorAt?
  simp only [startsWith_toLower insensitive, splitsWord_toLower]

theorem openerAt?_toLower (text : List Char) :
    g.openerAt? (text.map Char.toLower) = g.openerAt? text := by
  unfold openerAt?
  simp only [startsWith_toLower insensitive]

theorem strayCloserAt?_toLower (text : List Char) :
    g.strayCloserAt? (text.map Char.toLower) = g.strayCloserAt? text := by
  unfold strayCloserAt?
  simp only [startsWith_toLower insensitive, operatorAt?_toLower insensitive]

theorem canonical_toLower (ascii : ∀ c ∈ cs, c.toNat < 128) :
    g.canonical (String.ofList (cs.map Char.toLower)) = g.canonical (String.ofList cs) := by
  have ascii' : ∀ c ∈ cs.map Char.toLower, c.toNat < 128 := by
    intro c hc
    obtain ⟨d, hd, rfl⟩ := List.mem_map.mp hc
    have := ascii d hd
    rcases toLower_eq_or d with h | ⟨-, hz, h⟩
    · rwa [h]
    · omega
  unfold canonical canonicalName lowercase
  rw [insensitive, if_neg Bool.false_ne_true, if_neg Bool.false_ne_true, String.toList_ofList,
    String.toList_ofList, lowercaseAfter_of_ascii ascii, lowercaseAfter_of_ascii ascii',
    List.map_map]
  congr 2
  exact funext toLower_toLower

end insensitive

end Grammar

namespace Scan

/-- A state without the case of what its tokens take over from the text. -/
def caseless (s : Scan) : Scan := { s with tokens := s.tokens.map Token.caseless }

variable {s : Scan}

theorem expectsOperand_caseless (s : Scan) : s.caseless.expectsOperand = s.expectsOperand := by
  unfold expectsOperand caseless
  cases s.tokens with
  | nil => rfl
  | cons t tokens => rfl

theorem caseless_push {kind : TokenKind} (hk : kind ≠ .number) (s : Scan) (word : String) :
    (s.push word kind).caseless = s.caseless.push word kind := by
  have same : (Token.mk word kind s.position).caseless = ⟨word, kind, s.position⟩ :=
    Token.caseless_of_ne hk
  unfold push caseless
  rw [List.map_cons, same]

theorem infixKind_ne_number (g : Grammar) (symbol : String) : g.infixKind symbol ≠ .number := by
  intro h
  have hi := g.isInfix_infixKind symbol
  rw [h] at hi
  cases hi

theorem nameKind_ne_number (g : Grammar) (name : String) (after : List Char) :
    nameKind g name after ≠ .number := by
  rcases nameKind_eq g name after with h | h <;> rw [h] <;> exact TokenKind.noConfusion

theorem covered_toLower (text : List Char) (symbol : String) :
    covered (text.map Char.toLower) symbol = lowered (covered text symbol) := by
  unfold covered
  rw [lowered_ofList, List.map_take]

/-! ### One step -/

theorem beginOperand_lowered (s : Scan) (next : String) :
    s.caseless.beginOperand g (lowered next) =
      caselessly caseless (s.beginOperand g next) := by
  unfold beginOperand
  rw [expectsOperand_caseless]
  split
  · rfl
  · split
    · next symbol _ =>
      refine congrArg Except.ok ?_
      rw [caseless_push (infixKind_ne_number g symbol)]
    · rfl

theorem openGroup_lowered (s : Scan) (index : Nat) (text : String) :
    s.caseless.openGroup g index (lowered text) =
      caselessly caseless (s.openGroup g index text) := by
  unfold openGroup
  rw [beginOperand_lowered]
  refine caselessly_bind fun base => ?_
  by_cases h : g.maxDepth.toNat ≤ base.groups.length
  · have h' : g.maxDepth.toNat ≤ base.caseless.groups.length := h
    rw [if_pos h, if_pos h']
    rfl
  · have h' : ¬ g.maxDepth.toNat ≤ base.caseless.groups.length := h
    rw [if_neg h, if_neg h']
    have hkind : TokenKind.opening ≠ .number := TokenKind.noConfusion
    have hpush := caseless_push hkind
      { base with groups := ⟨index, base.position⟩ :: base.groups } (g.pairAt index).opener
    exact congrArg Except.ok hpush.symm

theorem closeGroup_caseless (s : Scan) (pair : Parenthetical) :
    s.caseless.closeGroup pair = (s.closeGroup pair).caseless := by
  have hkind : TokenKind.closing ≠ .number := TokenKind.noConfusion
  exact (caseless_push hkind { s with groups := s.groups.tail } pair.closer).symm

theorem operator_lowered (s : Scan) (symbol text : String) :
    s.caseless.operator g symbol (lowered text) =
      caselessly caseless (s.operator g symbol text) := by
  have pushed {kind : TokenKind} (hk : kind ≠ .number) : Except.ok (s.caseless.push symbol kind) =
      caselessly caseless (.ok (s.push symbol kind)) :=
    congrArg Except.ok (caseless_push hk s symbol).symm
  unfold operator
  rw [expectsOperand_caseless]
  split
  · split
    · exact pushed TokenKind.noConfusion
    · rfl
  · split
    · exact pushed TokenKind.noConfusion
    · split
      · exact pushed TokenKind.noConfusion
      · split
        · exact pushed TokenKind.noConfusion
        · split
          · rw [beginOperand_lowered]
            refine caselessly_bind fun base => ?_
            exact congrArg Except.ok (caseless_push TokenKind.noConfusion _ _).symm
          · rfl

theorem closerAt?_lowered (insensitive : g.caseSensitive = false) (s : Scan) (text : List Char) :
    s.caseless.closerAt? g (text.map Char.toLower) = s.closerAt? g text := by
  have same : s.caseless.mayClose g (text.map Char.toLower) = s.mayClose g text := by
    unfold mayClose
    simp only [expectsOperand_caseless, Grammar.startsWith_toLower insensitive]
  unfold closerAt?
  rw [same]
  rfl

theorem delimiterAt?_lowered (insensitive : g.caseSensitive = false) (s : Scan)
    (text : List Char) :
    s.caseless.delimiterAt? g (text.map Char.toLower) = s.delimiterAt? g text := by
  unfold delimiterAt?
  rw [closerAt?_lowered insensitive, Grammar.openerAt?_toLower insensitive]

theorem matchDelimiter_lowered (insensitive : g.caseSensitive = false) (s : Scan)
    (text : List Char) :
    s.caseless.matchDelimiter g (text.map Char.toLower) = s.matchDelimiter g text := by
  rw [matchDelimiter_eq, matchDelimiter_eq, delimiterAt?_lowered insensitive]
  rfl

theorem nameKind_toLower (insensitive : g.caseSensitive = false) (name : String)
    (after : List Char) : nameKind g name (after.map Char.toLower) = nameKind g name after := by
  unfold nameKind skipBlanks
  rw [dropWhile_toLower isBlank_toLower, Grammar.startsWith_toLower insensitive]

/-- What a step gives, without the case of what it takes over. -/
def caselessNext (next : Scan × Nat) : Scan × Nat := (next.1.caseless, next.2)

theorem lexeme_lowered (insensitive : g.caseSensitive = false) (s : Scan) (text : List Char) :
    s.caseless.lexeme g (text.map Char.toLower) =
      caselessly caselessNext (s.lexeme g text) := by
  unfold lexeme
  rw [Lexeme.read?_toLower]
  cases hr : Lexeme.read? text with
  | none =>
      rw [Option.map_none]
      refine congrArg Except.error ?_
      show ParseError.unrecognized _ _ = .unrecognized _ _
      rw [lowered_ofList, List.map_take]
      rfl
  | some found =>
      obtain ⟨kind, piece⟩ := found
      rw [Option.map_some]
      cases kind with
      | separator =>
          refine congrArg Except.ok ?_
          rw [List.length_map]
          rfl
      | number =>
          dsimp only
          rw [← lowered_ofList, beginOperand_lowered]
          refine caselessly_bind fun base => ?_
          rw [List.length_map]
          rfl
      | name =>
          have ascii : ∀ c ∈ piece, c.toNat < 128 := by
            intro c hc
            obtain ⟨-, rfl, -⟩ := Lexeme.read?_eq_name.mp hr
            exact toNat_of_isNameChar (Lexeme.isNameChar_of_mem_namePart hc)
          dsimp only
          rw [Grammar.canonical_toLower insensitive ascii, List.length_map, ← List.map_drop,
            nameKind_toLower insensitive, ← lowered_ofList, beginOperand_lowered]
          refine caselessly_bind fun base => congrArg Except.ok ?_
          rw [caselessNext, caseless_push (nameKind_ne_number g _ _)]

/-- **A step does not tell the case of letters.** -/
theorem step_lowered (insensitive : g.caseSensitive = false) (s : Scan) (text : List Char) :
    s.caseless.step g (text.map Char.toLower) =
      caselessly caselessNext (s.step g text) := by
  unfold step
  rw [matchDelimiter_lowered insensitive, Grammar.strayCloserAt?_toLower insensitive,
    Grammar.operatorAt?_toLower insensitive]
  cases s.matchDelimiter g text with
  | some found =>
      obtain ⟨delimiter, symbol⟩ := found
      cases delimiter with
      | opens index =>
          dsimp only
          rw [covered_toLower, openGroup_lowered]
          exact caselessly_bind fun _ => rfl
      | closes index =>
          dsimp only
          rw [closeGroup_caseless]
          rfl
  | none =>
      cases g.strayCloserAt? text with
      | some closer => rfl
      | none =>
          cases g.operatorAt? text with
          | some symbol =>
              dsimp only
              rw [covered_toLower, operator_lowered]
              exact caselessly_bind fun _ => rfl
          | none => exact lexeme_lowered insensitive s text

/-! ### The whole text -/

theorem advance_caseless (s : Scan) (piece : List Char) :
    s.caseless.advance (piece.map Char.toLower) = (s.advance piece).caseless := by
  unfold advance
  rw [byteLength_toLower]
  rfl

/-- **Scanning does not tell the case of letters.** -/
theorem run_lowered (insensitive : g.caseSensitive = false) (s : Scan) (text : List Char) :
    run g s.caseless (text.map Char.toLower) =
      caselessly caseless (run g s text) := by
  induction hn : text.length using Nat.strongRecOn generalizing s text with
  | _ n ih =>
      cases text with
      | nil =>
          rw [List.map_nil, run, run]
          rfl
      | cons c rest =>
          rw [List.map_cons, run_cons, run_cons, ← List.map_cons, step_lowered insensitive]
          refine caselessly_bind fun next => ?_
          have hshort : (rest.drop (next.2 - 1)).length < n := by
            rw [← hn, List.length_drop, List.length_cons]
            omega
          have := ih _ hshort (next.1.advance (c :: rest.take (next.2 - 1))) _ rfl
          rw [← advance_caseless, List.map_cons, List.map_take, List.map_drop] at this
          exact this

end Scan

/-- **Tokens do not tell the case of letters**, but for the texts of numbers; nor do errors, but for
the text of what is not recognized. -/
theorem tokenize_lowered (insensitive : g.caseSensitive = false) (input : String) :
    tokenize g (lowered input) = caselessly (List.map Token.caseless) (tokenize g input) := by
  have hrun := Scan.run_lowered insensitive {} input.toList
  unfold tokenize lowered
  rw [String.toList_ofList, show ({} : Scan) = Scan.caseless {} from rfl, hrun]
  refine caselessly_bind fun s => ?_
  unfold Scan.finish
  cases hg : s.groups with
  | nil =>
      have hg' : s.caseless.groups = [] := hg
      rw [hg']
      exact congrArg Except.ok List.map_reverse.symm
  | cons group groups =>
      have hg' : s.caseless.groups = group :: groups := hg
      rw [hg']
      rfl

end OperatorGrammar
