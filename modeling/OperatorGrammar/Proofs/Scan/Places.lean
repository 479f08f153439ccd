import OperatorGrammar.Grammar.Bundled
import OperatorGrammar.Proofs.Guarantees
import OperatorGrammar.Proofs.Scan.Visited

/-! # Which role has its place where

The role of a token is settled by the token before it.  Operands and what stands before them come
at operand places, operators between operands and suffixes come at all others, so two operands never
follow each other (`Scanned.places`); a symbol that is found behind an operand is given the first
role that it can have there (`Scan.OperatorNext.exists_made`); and delimiters are nested
(`Scan.nested_of_tokenize`). -/

namespace OperatorGrammar

variable {g : Grammar} {tokens before after unclosed : List Token} {t u : Token}
  {pairs pairs' : List Parenthetical} {text : List Char} {symbol : String}

/-! ### Operand places -/

/-- An operand place is the first one, and those behind an opening delimiter, a prefix, an operator
between operands, or a function. -/
def OperandPlace (before : List Token) : Prop :=
  ∀ last ∈ before.getLast?, last.kind ∈
    [TokenKind.opening, .preUnary, .binary, .multary, .function]

theorem Placed.kind_ne_top (h : Placed g tokens pairs t pairs') : t.kind ≠ .top := by
  intro hk
  cases h with
  | operand _ kind =>
      rcases kind with h | h | h | h <;> rw [hk] at h <;> cases h
  | between _ kind =>
      have hi := g.isInfix_infixKind t.text
      rw [← kind, hk] at hi
      cases hi
  | postUnary _ h | opening _ h | closing h =>
      rw [hk] at h
      cases h

theorem Scanned.operandPlace_iff (h : Scanned g tokens pairs) :
    OperandPlace tokens ↔ endsOperand tokens = false := by
  cases h with
  | nil => simp [OperandPlace]
  | @concat tokens t _ _ scanned placed =>
      have htop := placed.kind_ne_top
      rw [endsOperand_concat]
      simp only [OperandPlace, List.getLast?_concat, Option.mem_some_iff, forall_eq']
      cases hk : t.kind with
      | top => exact absurd hk htop
      | _ => simp [TokenKind.expectsOperandAfter]

/-- **What comes where.** -/
theorem Scanned.places (h : Scanned g tokens pairs) (split : tokens = before ++ t :: after) :
    (t.kind ∈ [TokenKind.number, .identifier, .function, .opening, .preUnary] →
        OperandPlace before) ∧
      (t.kind ∈ [TokenKind.binary, .multary, .postUnary] → ¬ OperandPlace before) := by
  obtain ⟨pairs, pairs', scanned, placed⟩ := h.placed split
  rw [scanned.operandPlace_iff, Bool.not_eq_false]
  cases placed with
  | operand place kind =>
      refine ⟨fun _ => place, fun hk => ?_⟩
      rcases kind with h | h | h | h <;> simp [h] at hk
  | between place kind =>
      refine ⟨fun hk => ?_, fun _ => place⟩
      have hi := g.isInfix_infixKind t.text
      rw [← kind] at hi
      simp only [List.mem_cons, List.not_mem_nil, or_false] at hk
      rcases hk with h | h | h | h | h <;> rw [h] at hi <;> cases hi
  | postUnary place kind => simp [kind, place]
  | opening place kind => simp [kind, place]
  | closing kind => simp [kind]

theorem Scanned.not_adjacent (h : Scanned g tokens pairs)
    (split : tokens = before ++ t :: u :: after)
    (ends : t.kind ∈ [TokenKind.number, .identifier, .closing, .postUnary]) :
    u.kind ∉ [TokenKind.number, .identifier, .function, .opening, .preUnary] := by
  intro begins
  rw [List.append_cons] at split
  have place := (h.places split).1 begins
  simp only [OperandPlace, List.getLast?_concat, Option.mem_some_iff, forall_eq'] at place
  revert ends place
  cases t.kind <;> simp

/-! ### Nested delimiters -/

theorem TokenKind.plain_of_isInfix {kind : TokenKind} (h : kind.isInfix = true) :
    kind ≠ .opening ∧ kind ≠ .closing := by
  cases kind with
  | binary | multary => simp
  | _ => cases h

/-- Sequences of tokens in which delimiters are nested, no deeper than is allowed, with the opening
ones that have not been closed, the last one first.  A closing delimiter closes the last of them and
is the other delimiter of its pair. -/
inductive Nested (g : Grammar) : List Token → List Token → Prop
  | nil : Nested g [] []
  | opening {tokens unclosed : List Token} {t : Token} (before : Nested g tokens unclosed)
      (kind : t.kind = .opening) (known : g.IsOpener t.text)
      (shallow : unclosed.length < g.maxDepth.toNat) : Nested g (tokens ++ [t]) (t :: unclosed)
  | closing {tokens unclosed : List Token} {opener t : Token}
      (before : Nested g tokens (opener :: unclosed)) (kind : t.kind = .closing)
      (pair : t.text = g.closerOf opener.text) : Nested g (tokens ++ [t]) unclosed
  | plain {tokens unclosed : List Token} {t : Token} (before : Nested g tokens unclosed)
      (kind : t.kind ≠ .opening ∧ t.kind ≠ .closing) : Nested g (tokens ++ [t]) unclosed

namespace Scan

variable {s s' base : Scan} {count : Nat} {input : String}

/-- A group and the token that has opened it. -/
def Opened (g : Grammar) (group : OpenGroup) (opener : Token) : Prop :=
  opener.text = (g.pairAt group.index).opener ∧
    g.closerOf opener.text = (g.pairAt group.index).closer

/-- The open groups of a state are the delimiters that have not been closed. -/
def Enclosed (g : Grammar) (s : Scan) : Prop :=
  ∃ unclosed, Nested g s.inOrder unclosed ∧ List.Forall₂ (Opened g) s.groups unclosed

theorem Enclosed.push (h : s.Enclosed g) {word : String} {kind : TokenKind}
    (hk : kind ≠ .opening ∧ kind ≠ .closing) : (s.push word kind).Enclosed g := by
  obtain ⟨unclosed, nested, opened⟩ := h
  refine ⟨unclosed, ?_, opened⟩
  rw [inOrder_push]
  exact nested.plain hk

theorem Room.enclosed (room : Room g s base) (h : s.Enclosed g) : base.Enclosed g := by
  cases room with
  | here => exact h
  | @behind symbol => exact h.push (TokenKind.plain_of_isInfix (g.isInfix_infixKind symbol))

/-- Every step keeps delimiters nested. -/
theorem Step.enclosed (step : Step g s text s' count) (h : s.Enclosed g) : s'.Enclosed g := by
  cases step with
  | @opens pair base found room shallow =>
      obtain ⟨unclosed, nested, opened⟩ := room.enclosed h
      have hopener := (delimiterAt?_eq_opens found).1
      have known : g.IsOpener pair.opener :=
        ⟨pair, (Grammar.openerAt?_eq_some hopener).1, rfl⟩
      refine ⟨⟨pair.opener, .opening, base.position⟩ :: unclosed, ?_, ?_⟩
      · rw [inOrder_push]
        refine nested.opening rfl known ?_
        rwa [← opened.length_eq, room.groups_eq]
      · refine List.Forall₂.cons ?_ opened
        show pair.opener = (g.pairAt (g.indexOf pair)).opener ∧ _
        rw [Grammar.pairAt_indexOf hopener]
        exact ⟨rfl, Grammar.closerOf_of_openerAt? hopener⟩
  | closes found =>
      obtain ⟨group, groups, hg, hpair⟩ :=
        exists_group_of_closerAt? (delimiterAt?_eq_closes found).1
      obtain ⟨unclosed, nested, opened⟩ := h
      rw [hg] at opened
      cases opened with
      | @cons _ opener _ unclosed hopened opened =>
          refine ⟨unclosed, ?_, ?_⟩
          · unfold closeGroup
            rw [inOrder_push]
            exact nested.closing rfl (Grammar.pairAt_eq hpair ▸ hopened.2.symm)
          · show List.Forall₂ (Opened g) s.groups.tail _
            rw [hg]
            exact opened
  | preUnary _ _ room => exact (room.enclosed h).push (by simp)
  | @between symbol => exact h.push (TokenKind.plain_of_isInfix (g.isInfix_infixKind symbol))
  | postUnary => exact h.push (by simp)
  | separator => exact h
  | number _ room => exact (room.enclosed h).push (by simp)
  | @name piece _ _ room =>
      refine (room.enclosed h).push ?_
      rcases nameKind_eq g (g.canonical (String.ofList piece)) (text.drop piece.length) with hk | hk
      · simp [hk]
      · simp [hk]

theorem Visits.enclosed (h : Visits g input s text) : s.Enclosed g := by
  induction h with
  | start => exact ⟨[], Nested.nil, List.Forall₂.nil⟩
  | step _ step ih => exact step.enclosed ih

/-- In the tokens of a text delimiters are nested and all closed. -/
theorem nested_of_tokenize (h : tokenize g input = .ok tokens) : Nested g tokens [] := by
  obtain ⟨s, visits, hgroups, rfl⟩ := exists_visits_of_tokenize h
  obtain ⟨unclosed, nested, opened⟩ := visits.enclosed
  rw [hgroups, List.forall₂_nil_left_iff] at opened
  rwa [opened] at nested

/-! ### Symbols behind an operand -/

/-- What is made of a symbol that is found behind an operand: an operator that gathers operands,
joins two, or stands behind one, whichever it can be first, and else a prefix with the implicit
operator before it. -/
def MadeBehindOperand (g : Grammar) (symbol : String) (place : Nat) (made : List Token) : Prop :=
  if g.isMultary symbol then made = [⟨symbol, .multary, place⟩]
  else if g.nary.contains symbol then made = [⟨symbol, .binary, place⟩]
  else if g.postUnary.contains symbol then made = [⟨symbol, .postUnary, place⟩]
  else ∃ implicit, g.implicitOperator = some implicit ∧ g.preUnary.contains symbol = true ∧
    made = [⟨implicit, g.infixKind implicit, place⟩, ⟨symbol, .preUnary, place⟩]

theorem OperatorNext.exists_made (next : OperatorNext g s text symbol)
    (hs : s.expectsOperand = false) (step : Step g s text s' count) :
    ∃ made, s'.inOrder = s.inOrder ++ made ∧ MadeBehindOperand g symbol s.position made := by
  have hoperator := ((step_eq_ok_of_operatorNext next).mp step.step_eq_ok).1
  unfold MadeBehindOperand
  rcases (operator_of_not_expectsOperand hs).mp hoperator with
    ⟨role, rfl⟩ | ⟨⟨hm, hn⟩, ⟨hq, rfl⟩ | ⟨hq, hp, base, room, rfl⟩⟩
  · refine ⟨_, inOrder_push _ _ _, ?_⟩
    by_cases hm : g.isMultary symbol = true
    · simp [hm, Grammar.infixKind]
    · simp [hm, role.resolve_left hm, Grammar.infixKind]
  · exact ⟨_, inOrder_push _ _ _, by simp [hm, hn, hq]⟩
  · cases room with
    | here place =>
        rw [hs] at place
        cases place
    | @behind implicit _ himplicit =>
        refine ⟨[⟨implicit, g.infixKind implicit, s.position⟩, ⟨symbol, .preUnary, s.position⟩],
          ?_, ?_⟩
        · rw [inOrder_push, inOrder_push, List.append_assoc]
          rfl
        · simp [hm, hn, hq, hp, himplicit]

theorem Visits.exists_step {c : Char} {rest : List Char} (h : Visits g input s (c :: rest))
    (ht : tokenize g input = .ok tokens) : ∃ s' count, Step g s (c :: rest) s' count := by
  obtain ⟨last, hrun, -⟩ := tokenize_eq_ok.mp ht
  rw [h.run_eq, run_cons] at hrun
  obtain ⟨⟨s', count⟩, hstep, -⟩ := bind_eq_ok.mp hrun
  exact ⟨s', count, step_eq_ok.mp hstep⟩

end Scan

/-- **Roles go by places.**  In the tokens of a text, whatever the grammar, operands, functions,
opening delimiters and prefixes come at operand places, operators between operands and behind one at
the others; a symbol that is found at one of the others is made what `Scan.MadeBehindOperand` says;
two operands are never side by side; and delimiters are nested, no deeper than the limit, and all
closed. -/
theorem tokenize_places {input : String} (h : tokenize g input = .ok tokens) :
    (∀ before t after, tokens = before ++ t :: after →
      (t.kind ∈ [TokenKind.number, .identifier, .function, .opening, .preUnary] →
        OperandPlace before) ∧
      (t.kind ∈ [TokenKind.binary, .multary, .postUnary] → ¬ OperandPlace before)) ∧
    (∀ s c rest symbol, Scan.Visits g input s (c :: rest) →
      Scan.OperatorNext g s (c :: rest) symbol → ¬ OperandPlace s.inOrder →
      ∃ made after, tokens = s.inOrder ++ made ++ after ∧
        Scan.MadeBehindOperand g symbol s.position made) ∧
    (∀ before t u after, tokens = before ++ t :: u :: after →
      t.kind ∈ [TokenKind.number, .identifier, .closing, .postUnary] →
      u.kind ∉ [TokenKind.number, .identifier, .function, .opening, .preUnary]) ∧
    Nested g tokens [] := by
  have scanned := Scan.scanned_of_tokenize h
  refine ⟨fun _ _ _ => scanned.places, ?_, fun _ _ _ _ => scanned.not_adjacent,
    Scan.nested_of_tokenize h⟩
  intro s c rest symbol visits next hplace
  have hs : s.expectsOperand = false := by
    rw [visits.wellPlaced.operandPlace_iff, Bool.not_eq_false] at hplace
    rw [Scan.expectsOperand_eq, hplace]
    rfl
  obtain ⟨s', count, step⟩ := visits.exists_step h
  obtain ⟨made, htokens, hmade⟩ := next.exists_made hs step
  obtain ⟨after, hafter⟩ := visits.inOrder_isPrefix_of_step step h
  exact ⟨made, after, by rw [← hafter, htokens], hmade⟩

/-- A suffix, a prefix that begins a factor, and a pair of equal delimiters. -/
theorem tokenize_places_sample :
    tokenize Grammar.real "3! not |x|" = .ok [⟨"3", .number, 0⟩, ⟨"!", .postUnary, 1⟩,
        ⟨"*", .multary, 3⟩, ⟨"not", .preUnary, 3⟩, ⟨"|", .opening, 7⟩, ⟨"x", .identifier, 8⟩,
        ⟨"|", .closing, 9⟩] ∧
      ¬ OperandPlace [⟨"3", .number, 0⟩] ∧
      Nested Grammar.real [⟨"3", .number, 0⟩, ⟨"!", .postUnary, 1⟩, ⟨"*", .multary, 3⟩,
        ⟨"not", .preUnary, 3⟩, ⟨"|", .opening, 7⟩, ⟨"x", .identifier, 8⟩,
        ⟨"|", .closing, 9⟩] [] := by
  have ht : tokenize Grammar.real "3! not |x|" = .ok [⟨"3", .number, 0⟩, ⟨"!", .postUnary, 1⟩,
      ⟨"*", .multary, 3⟩, ⟨"not", .preUnary, 3⟩, ⟨"|", .opening, 7⟩, ⟨"x", .identifier, 8⟩,
      ⟨"|", .closing, 9⟩] := by decide +kernel
  obtain ⟨places, -, -, nested⟩ := tokenize_places ht
  exact ⟨ht, (places [_] ⟨"!", .postUnary, 1⟩ _ rfl).2 (by simp), nested⟩

end OperatorGrammar
