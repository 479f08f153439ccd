import OperatorGrammar.Proofs.Outcome
import OperatorGrammar.Proofs.Scan.Delimiter

/-! # What one step of scanning can do

`Scan.Step g s text s' count` has one constructor for each thing that a step of scanning can read,
with all that the step has looked at before it reads it.  A step succeeds exactly if it is one of
these (`step_eq_ok`), so that what scanning preserves is shown by cases on them and not by opening
the definition.  `run_induction` goes from single steps to the whole text. -/

namespace OperatorGrammar

namespace Scan

variable {g : Grammar} {s s' base : Scan} {text : List Char} {count : Nat}

/-- The states in which an operand can begin: the state itself where an operand is expected, and
elsewhere the one behind the implicit operator. -/
inductive Room (g : Grammar) (s : Scan) : Scan → Prop
  | here (place : s.expectsOperand = true) : Room g s s
  | behind {symbol : String} (place : s.expectsOperand = false)
      (implicit : g.implicitOperator = some symbol) : Room g s (s.push symbol (g.infixKind symbol))

theorem beginOperand_eq_ok {next : String} :
    s.beginOperand g next = .ok base ↔ Room g s base := by
  unfold beginOperand
  by_cases hs : s.expectsOperand = true
  · rw [if_pos hs, Except.ok.injEq]
    constructor
    · rintro rfl
      exact Room.here hs
    · intro h
      cases h with
      | here => rfl
      | behind place =>
          rw [hs] at place
          cases place
  · rw [if_neg hs]
    rw [Bool.not_eq_true] at hs
    cases hi : g.implicitOperator with
    | none =>
        simp only [reduceCtorEq, false_iff]
        intro h
        cases h with
        | here place =>
            rw [hs] at place
            cases place
        | behind _ implicit =>
            rw [hi] at implicit
            cases implicit
    | some symbol =>
        simp only [Except.ok.injEq]
        constructor
        · rintro rfl
          exact Room.behind hs hi
        · intro h
          cases h with
          | here place =>
              rw [hs] at place
              cases place
          | behind _ implicit =>
              rw [hi, Option.some.injEq] at implicit
              rw [implicit]

theorem Room.groups_eq (h : Room g s base) : base.groups = s.groups := by
  cases h with
  | here => rfl
  | behind => rfl

/-- An operator symbol comes next, and no delimiter before it. -/
structure OperatorNext (g : Grammar) (s : Scan) (text : List Char) (symbol : String) : Prop where
  plain : s.delimiterAt? g text = none
  noStray : g.strayCloserAt? text = none
  found : g.operatorAt? text = some symbol

/-- A number, a name or separators come next, and neither a delimiter nor an operator. -/
structure LexemeNext (g : Grammar) (s : Scan) (text : List Char) (kind : Lexeme)
    (piece : List Char) : Prop where
  plain : s.delimiterAt? g text = none
  noStray : g.strayCloserAt? text = none
  noOperator : g.operatorAt? text = none
  found : Lexeme.read? text = some (kind, piece)

/-- The steps of scanning: the state behind what has been read, and its number of characters. -/
inductive Step (g : Grammar) (s : Scan) (text : List Char) : Scan → Nat → Prop
  | opens {pair : Parenthetical} {base : Scan} (found : s.delimiterAt? g text = some (.opens pair))
      (room : Room g s base) (shallow : s.groups.length < g.maxDepth.toNat) :
      Step g s text
        ({ base with groups := ⟨g.indexOf pair, base.position⟩ :: base.groups }.push pair.opener
          .opening)
        pair.opener.toList.length
  | closes {pair : Parenthetical} (found : s.delimiterAt? g text = some (.closes pair)) :
      Step g s text (s.closeGroup pair) pair.closer.toList.length
  | preUnary {symbol : String} {base : Scan} (next : OperatorNext g s text symbol)
      (role : g.preUnary.contains symbol = true) (room : Room g s base)
      (only : s.expectsOperand = false → g.isMultary symbol = false ∧
        g.nary.contains symbol = false ∧ g.postUnary.contains symbol = false) :
      Step g s text (base.push symbol .preUnary) symbol.toList.length
  | between {symbol : String} (next : OperatorNext g s text symbol)
      (place : s.expectsOperand = false)
      (role : g.isMultary symbol = true ∨ g.nary.contains symbol = true) :
      Step g s text (s.push symbol (g.infixKind symbol)) symbol.toList.length
  | postUnary {symbol : String} (next : OperatorNext g s text symbol)
      (place : s.expectsOperand = false) (role : g.postUnary.contains symbol = true)
      (only : g.isMultary symbol = false ∧ g.nary.contains symbol = false) :
      Step g s text (s.push symbol .postUnary) symbol.toList.length
  | separator {piece : List Char} (next : LexemeNext g s text .separator piece) :
      Step g s text s piece.length
  | number {piece : List Char} {base : Scan} (next : LexemeNext g s text .number piece)
      (room : Room g s base) :
      Step g s text (base.push (String.ofList piece) .number) piece.length
  | name {piece : List Char} {base : Scan} (next : LexemeNext g s text .name piece)
      (room : Room g s base) :
      Step g s text
        (base.push (g.canonical (String.ofList piece))
          (nameKind g (g.canonical (String.ofList piece)) (text.drop piece.length)))
        piece.length

theorem openGroup_eq_ok {index : Nat} {word : String} :
    s.openGroup g index word = .ok s' ↔
      ∃ base, Room g s base ∧ s.groups.length < g.maxDepth.toNat ∧
        s' = { base with groups := ⟨index, base.position⟩ :: base.groups }.push
          (g.pairAt index).opener .opening := by
  unfold openGroup
  rw [bind_eq_ok]
  apply exists_congr
  intro base
  rw [beginOperand_eq_ok]
  apply and_congr_right
  intro room
  rw [room.groups_eq]
  by_cases hd : g.maxDepth.toNat ≤ s.groups.length
  · have hn : ¬ s.groups.length < g.maxDepth.toNat := Nat.not_lt.mpr hd
    rw [if_pos hd]
    simp [throw, throwThe, MonadExceptOf.throw, bind, Except.bind, hn]
  · have hl : s.groups.length < g.maxDepth.toNat := Nat.not_le.mp hd
    rw [if_neg hd]
    simp [pure, Except.pure, hl, eq_comm]

/-- Where an operand is expected an operator is a prefix. -/
theorem operator_of_expectsOperand {symbol word : String} (hs : s.expectsOperand = true) :
    s.operator g symbol word = .ok s' ↔
      g.preUnary.contains symbol = true ∧ s' = s.push symbol .preUnary := by
  unfold operator
  rw [if_pos hs]
  by_cases hp : g.preUnary.contains symbol = true
  · rw [if_pos hp]
    simp [hp, eq_comm]
  · rw [if_neg hp]
    simp [hp]

/-- Elsewhere it stands between operands or behind one, and only a symbol that can do neither
begins a new operand. -/
theorem operator_of_not_expectsOperand {symbol word : String} (hs : s.expectsOperand = false) :
    s.operator g symbol word = .ok s' ↔
      (g.isMultary symbol = true ∨ g.nary.contains symbol = true) ∧
          s' = s.push symbol (g.infixKind symbol) ∨
        (g.isMultary symbol = false ∧ g.nary.contains symbol = false) ∧
          (g.postUnary.contains symbol = true ∧ s' = s.push symbol .postUnary ∨
            g.postUnary.contains symbol = false ∧ g.preUnary.contains symbol = true ∧
              ∃ base, Room g s base ∧ s' = base.push symbol .preUnary) := by
  unfold operator Grammar.infixKind
  rw [hs, if_neg Bool.false_ne_true]
  by_cases hm : g.isMultary symbol = true
  · rw [if_pos hm, if_pos hm, Except.ok.injEq, eq_comm]
    simp [hm]
  · rw [if_neg hm, if_neg hm]
    by_cases hn : g.nary.contains symbol = true
    · rw [if_pos hn, Except.ok.injEq, eq_comm]
      simp [hm, hn]
    · rw [if_neg hn]
      by_cases hq : g.postUnary.contains symbol = true
      · rw [if_pos hq, Except.ok.injEq, eq_comm]
        simp [hm, hn, hq]
      · rw [if_neg hq]
        by_cases hp : g.preUnary.contains symbol = true
        · rw [if_pos hp, bind_eq_ok]
          simp only [beginOperand_eq_ok, pure_eq_ok, eq_comm (b := s')]
          simp [hm, hn, hq, hp]
        · rw [if_neg hp]
          simp [hm, hn, hq, hp]

theorem lexeme_eq_ok :
    s.lexeme g text = .ok (s', count) ↔
      ∃ kind piece, Lexeme.read? text = some (kind, piece) ∧ count = piece.length ∧
        match kind with
        | .separator => s' = s
        | .number => ∃ base, Room g s base ∧ s' = base.push (String.ofList piece) .number
        | .name => ∃ base, Room g s base ∧
            s' = base.push (g.canonical (String.ofList piece))
              (nameKind g (g.canonical (String.ofList piece)) (text.drop piece.length)) := by
  unfold lexeme
  cases hr : Lexeme.read? text with
  | none => simp
  | some found =>
      obtain ⟨kind, piece⟩ := found
      cases kind with
      | separator => simp [eq_comm, and_comm]
      | number =>
          simp only [bind_eq_ok, beginOperand_eq_ok, pure_eq_ok, Prod.mk.injEq, Option.some.injEq]
          constructor
          · rintro ⟨base, room, rfl, rfl⟩
            exact ⟨_, _, ⟨rfl, rfl⟩, rfl, base, room, rfl⟩
          · rintro ⟨_, _, ⟨rfl, rfl⟩, rfl, base, room, rfl⟩
            exact ⟨base, room, rfl, rfl⟩
      | name =>
          simp only [bind_eq_ok, beginOperand_eq_ok, pure_eq_ok, Prod.mk.injEq, Option.some.injEq]
          constructor
          · rintro ⟨base, room, rfl, rfl⟩
            exact ⟨_, _, ⟨rfl, rfl⟩, rfl, base, room, rfl⟩
          · rintro ⟨_, _, ⟨rfl, rfl⟩, rfl, base, room, rfl⟩
            exact ⟨base, room, rfl, rfl⟩

theorem step_of_opens {pair : Parenthetical} (found : s.delimiterAt? g text = some (.opens pair)) :
    s.step g text = s.openGroup g (g.indexOf pair) (covered text pair.opener) >>= fun after =>
      .ok (after, pair.opener.toList.length) := by
  unfold step
  rw [matchDelimiter_eq, found]
  rfl

theorem step_of_closes {pair : Parenthetical}
    (found : s.delimiterAt? g text = some (.closes pair)) :
    s.step g text = .ok (s.closeGroup pair, pair.closer.toList.length) := by
  obtain ⟨group, groups, hg, hpair⟩ := exists_group_of_closerAt? (delimiterAt?_eq_closes found).1
  unfold step
  rw [matchDelimiter_eq, found]
  simp [located, hg, Grammar.pairAt_eq hpair]

theorem step_of_none (plain : s.delimiterAt? g text = none) :
    s.step g text =
      match g.strayCloserAt? text with
      | some closer => .error (.unmatchedClose closer s.position)
      | none =>
        match g.operatorAt? text with
        | some symbol => s.operator g symbol (covered text symbol) >>= fun after =>
            .ok (after, symbol.toList.length)
        | none => s.lexeme g text := by
  unfold step
  rw [matchDelimiter_eq, plain]
  rfl

theorem OperatorNext.step_eq {symbol : String} (next : OperatorNext g s text symbol) :
    s.step g text = s.operator g symbol (covered text symbol) >>= fun after =>
      .ok (after, symbol.toList.length) := by
  rw [step_of_none next.plain]
  simp only [next.noStray, next.found]

theorem LexemeNext.step_eq {kind : Lexeme} {piece : List Char}
    (next : LexemeNext g s text kind piece) : s.step g text = s.lexeme g text := by
  rw [step_of_none next.plain]
  simp only [next.noStray, next.noOperator]

theorem step_eq_ok_of_operatorNext {symbol : String} (next : OperatorNext g s text symbol) :
    s.step g text = .ok (s', count) ↔
      s.operator g symbol (covered text symbol) = .ok s' ∧ count = symbol.toList.length := by
  rw [next.step_eq, bind_eq_ok]
  constructor
  · rintro ⟨after, ho, h⟩
    cases h
    exact ⟨ho, rfl⟩
  · rintro ⟨ho, rfl⟩
    exact ⟨s', ho, rfl⟩

/-- Whatever succeeds is one of the steps. -/
theorem Step.of_step_eq_ok (h : s.step g text = .ok (s', count)) : Step g s text s' count := by
  have hstep := h
  cases hd : s.delimiterAt? g text with
  | some bracket =>
      cases bracket with
      | opens pair =>
          rw [step_of_opens hd] at h
          obtain ⟨opened, ho, h⟩ := bind_eq_ok.mp h
          obtain ⟨base, room, shallow, rfl⟩ := openGroup_eq_ok.mp ho
          cases h
          rw [Grammar.pairAt_indexOf (delimiterAt?_eq_opens hd).1]
          exact Step.opens hd room shallow
      | closes pair =>
          rw [step_of_closes hd] at h
          cases h
          exact Step.closes hd
  | none =>
    rw [step_of_none hd] at h
    split at h
    · cases h
    · next hstray =>
      split at h
      · next symbol hsymbol =>
        have next : OperatorNext g s text symbol := ⟨hd, hstray, hsymbol⟩
        obtain ⟨ho, rfl⟩ := (step_eq_ok_of_operatorNext next).mp hstep
        by_cases hs : s.expectsOperand = true
        · obtain ⟨role, rfl⟩ := (operator_of_expectsOperand hs).mp ho
          exact Step.preUnary next role (Room.here hs) (by simp [hs])
        · rw [Bool.not_eq_true] at hs
          rcases (operator_of_not_expectsOperand hs).mp ho with
            ⟨role, rfl⟩ | ⟨only, ⟨role, rfl⟩ | ⟨hq, role, base, room, rfl⟩⟩
          · exact Step.between next hs role
          · exact Step.postUnary next hs role only
          · exact Step.preUnary next role room fun _ => ⟨only.1, only.2, hq⟩
      · next hno =>
        obtain ⟨kind, piece, hr, rfl, h⟩ := lexeme_eq_ok.mp h
        have next : LexemeNext g s text kind piece := ⟨hd, hstray, hno, hr⟩
        cases kind with
        | separator =>
            subst h
            exact Step.separator next
        | number =>
            obtain ⟨base, room, rfl⟩ := h
            exact Step.number next room
        | name =>
            obtain ⟨base, room, rfl⟩ := h
            exact Step.name next room

/-- Each of the steps succeeds. -/
theorem Step.step_eq_ok (step : Step g s text s' count) : s.step g text = .ok (s', count) := by
  cases step with
  | opens found room shallow =>
      have known := Grammar.pairAt_indexOf (delimiterAt?_eq_opens found).1
      rw [step_of_opens found]
      exact bind_eq_ok.mpr ⟨_, openGroup_eq_ok.mpr ⟨_, room, shallow, by rw [known]⟩, rfl⟩
  | closes found => exact step_of_closes found
  | preUnary next role room only =>
      refine (step_eq_ok_of_operatorNext next).mpr ⟨?_, rfl⟩
      cases room with
      | here place => exact (operator_of_expectsOperand place).mpr ⟨role, rfl⟩
      | behind place implicit =>
          obtain ⟨hm, hn, hq⟩ := only place
          exact (operator_of_not_expectsOperand place).mpr
            (Or.inr ⟨⟨hm, hn⟩, Or.inr ⟨hq, role, _, Room.behind place implicit, rfl⟩⟩)
  | between next place role =>
      refine (step_eq_ok_of_operatorNext next).mpr ⟨?_, rfl⟩
      exact (operator_of_not_expectsOperand place).mpr (Or.inl ⟨role, rfl⟩)
  | postUnary next place role only =>
      refine (step_eq_ok_of_operatorNext next).mpr ⟨?_, rfl⟩
      exact (operator_of_not_expectsOperand place).mpr (Or.inr ⟨only, Or.inl ⟨role, rfl⟩⟩)
  | separator next =>
      rw [next.step_eq]
      exact lexeme_eq_ok.mpr ⟨_, _, next.found, rfl, rfl⟩
  | number next room | name next room =>
      rw [next.step_eq]
      exact lexeme_eq_ok.mpr ⟨_, _, next.found, rfl, _, room, rfl⟩

/-- **What a step can do.** -/
theorem step_eq_ok : s.step g text = .ok (s', count) ↔ Step g s text s' count :=
  ⟨Step.of_step_eq_ok, Step.step_eq_ok⟩

/-! ### The whole text -/

/-- A state moved on behind what has been read of a text. -/
def advance (s : Scan) (piece : List Char) : Scan :=
  { s with position := s.position + byteLength piece }

theorem run_cons (g : Grammar) (s : Scan) (c : Char) (rest : List Char) :
    run g s (c :: rest) = s.step g (c :: rest) >>= fun next =>
      run g (next.1.advance (c :: rest.take (next.2 - 1))) (rest.drop (next.2 - 1)) := by
  rw [run]
  cases s.step g (c :: rest) with
  | error e => rfl
  | ok next => rfl

/-- What holds before the first step and is kept by every step holds at the end of the text; it may
speak of the text that is left. -/
theorem run_induction {P : Scan → List Char → Prop}
    (step : ∀ s c rest s' count, P s (c :: rest) → Step g s (c :: rest) s' count →
      P (s'.advance (c :: rest.take (count - 1))) (rest.drop (count - 1)))
    {s s' : Scan} {text : List Char} (start : P s text) (h : run g s text = .ok s') : P s' [] := by
  fun_induction run g s text with
  | case1 s =>
      cases h
      exact start
  | case2 s c rest e hs => cases h
  | case3 s c rest next count hs ih =>
      exact ih (step s c rest next count start (step_eq_ok.mp hs)) h

/-- A text that becomes tokens is scanned to its end, and no group is open there. -/
theorem tokenize_eq_ok {input : String} {tokens : List Token} :
    tokenize g input = .ok tokens ↔
      ∃ s, run g {} input.toList = .ok s ∧ s.groups = [] ∧ tokens = s.tokens.reverse := by
  unfold tokenize
  rw [bind_eq_ok]
  apply exists_congr
  intro s
  apply and_congr_right
  intro _
  unfold finish
  split
  · next hg => simp [hg]
  · next hg => simp [hg, eq_comm]

end Scan

end OperatorGrammar
