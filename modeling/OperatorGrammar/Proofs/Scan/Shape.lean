import OperatorGrammar.Proofs.Scan.ArgumentList
import OperatorGrammar.Proofs.TokenTree.InOrder

/-! # Scanning depends on little

A step asks a state whether an operand is expected, for the innermost open pair and whether one more
may be open.  So a state with more tokens and more open pairs than another one, below those of the
other (`Scan.Atop`), makes the same step if it answers the same (`Step.atop`).  States are alike if
their tokens and open groups differ in their places only (`Scan.Alike`); they make the same steps
(`Step.alike`).  Separators only move a state on: scanning a text behind some of them is scanning it
from a later place (`run_separators`). -/

namespace OperatorGrammar

variable {g : Grammar} {c : Char} {gap piece rest text : List Char} {symbol : String}

namespace Scan

variable {s s' base next : Scan} {count : Nat}

/-! ### States with more below -/

/-- Whether an operand is expected is said by the role of the last token. -/
theorem expectsOperand_eq_spelling (s : Scan) :
    s.expectsOperand =
      (s.tokens.map Token.spelling).head?.all fun spelling => spelling.2.expectsOperandAfter := by
  unfold expectsOperand
  cases s.tokens <;> rfl

/-- The indices of the pairs that are open in a state, the innermost one first. -/
def openIndices (s : Scan) : List Nat := s.groups.map OpenGroup.index

theorem closerAt?_eq_of_head? (h : s'.openIndices.head? = s.openIndices.head?)
    (expects : s'.expectsOperand = s.expectsOperand) (g : Grammar) (text : List Char) :
    s'.closerAt? g text = s.closerAt? g text := by
  have innermost (s : Scan) : s.closerAt? g text =
      (s.openIndices.head?.bind fun index => g.parentheticals[index]?).filter fun pair =>
        g.startsWith text pair.closer && !(s.expectsOperand && pair.opener == pair.closer) := by
    unfold closerAt? openIndices
    cases s.groups <;> rfl
  rw [innermost s, innermost s', h, expects]

section atop

variable {under : List (String × TokenKind)} {around : List Nat}

/-- A state whose tokens are those of another one, but for their places, behind some more, and whose
open pairs are those of the other one inside some more. -/
structure Atop (under : List (String × TokenKind)) (around : List Nat) (s s' : Scan) : Prop where
  tokens : s'.tokens.map Token.spelling = s.tokens.map Token.spelling ++ under
  indices : s'.openIndices = s.openIndices ++ around

theorem Atop.push (h : Atop under around s s') (word : String) (kind : TokenKind) :
    Atop under around (s.push word kind) (s'.push word kind) :=
  ⟨congrArg ((word, kind) :: ·) h.tokens, h.indices⟩

theorem Atop.advance (h : Atop under around s s') (piece piece' : List Char) :
    Atop under around (s.advance piece) (s'.advance piece') :=
  ⟨h.tokens, h.indices⟩

/-- In front of all tokens an operand is expected, and so it is behind those below if it is. -/
theorem Atop.expectsOperand_eq (h : Atop under around s s')
    (expects : under.head?.all fun spelling => spelling.2.expectsOperandAfter) :
    s'.expectsOperand = s.expectsOperand := by
  rw [expectsOperand_eq_spelling, expectsOperand_eq_spelling, h.tokens]
  cases s.tokens with
  | nil => simpa using expects
  | cons => rfl

/-- The implicit operator is put before an operand in both states or in neither. -/
theorem Room.atop (room : Room g s base) (h : Atop under around s s')
    (expects : s'.expectsOperand = s.expectsOperand) :
    ∃ base', Room g s' base' ∧ Atop under around base base' := by
  cases room with
  | here place => exact ⟨s', Room.here (expects.trans place), h⟩
  | behind place implicit =>
      exact ⟨_, Room.behind (expects.trans place) implicit, h.push _ _⟩

/-- **A step depends on little of the state**: on the expectation of an operand, on the closer of
the innermost open pair, and on the room for one more. -/
theorem Step.atop (step : Step g s text next count) (h : Atop under around s s')
    (expects : s'.expectsOperand = s.expectsOperand)
    (closer : s'.closerAt? g text = s.closerAt? g text)
    (fits : s.groups.length < g.maxDepth.toNat → s.groups.length < next.groups.length →
      s'.groups.length < g.maxDepth.toNat) :
    ∃ next', Step g s' text next' count ∧ Atop under around next next' := by
  have delimiter : s'.delimiterAt? g text = s.delimiterAt? g text := by
    unfold delimiterAt?
    rw [closer]
  have operatorNext {symbol : String} (next : OperatorNext g s text symbol) :
      OperatorNext g s' text symbol :=
    ⟨delimiter.trans next.plain, next.noStray, next.found⟩
  have lexemeNext {kind : Lexeme} {piece : List Char} (next : LexemeNext g s text kind piece) :
      LexemeNext g s' text kind piece :=
    ⟨delimiter.trans next.plain, next.noStray, next.noOperator, next.found⟩
  cases step with
  | @opens pair base found room shallow =>
      obtain ⟨base', room', hbase⟩ := room.atop h expects
      have opened : Atop under around
          { base with groups := ⟨g.indexOf pair, base.position⟩ :: base.groups }
          { base' with groups := ⟨g.indexOf pair, base'.position⟩ :: base'.groups } :=
        ⟨hbase.tokens, congrArg (g.indexOf pair :: ·) hbase.indices⟩
      have deeper : s.groups.length < base.groups.length + 1 := by
        rw [room.groups_eq]
        exact Nat.lt_succ_self _
      exact ⟨_, Step.opens (delimiter.trans found) room' (fits shallow deeper), opened.push _ _⟩
  | @closes pair found =>
      obtain ⟨group, groups, hg, -⟩ := exists_group_of_closerAt? (delimiterAt?_eq_closes found).1
      have closed : Atop under around { s with groups := s.groups.tail }
          { s' with groups := s'.groups.tail } := by
        have htail := congrArg List.tail h.indices
        refine ⟨h.tokens, ?_⟩
        simpa [openIndices, hg] using htail
      exact ⟨_, Step.closes (delimiter.trans found), closed.push _ _⟩
  | preUnary next role room only =>
      obtain ⟨base', room', hbase⟩ := room.atop h expects
      exact ⟨_, Step.preUnary (operatorNext next) role room' (expects ▸ only), hbase.push _ _⟩
  | between next place role =>
      exact ⟨_, Step.between (operatorNext next) (expects.trans place) role, h.push _ _⟩
  | postUnary next place role only =>
      exact ⟨_, Step.postUnary (operatorNext next) (expects.trans place) role only, h.push _ _⟩
  | separator next => exact ⟨_, Step.separator (lexemeNext next), h⟩
  | number next room =>
      obtain ⟨base', room', hbase⟩ := room.atop h expects
      exact ⟨_, Step.number (lexemeNext next) room', hbase.push _ _⟩
  | name next room =>
      obtain ⟨base', room', hbase⟩ := room.atop h expects
      exact ⟨_, Step.name (lexemeNext next) room', hbase.push _ _⟩

end atop

/-! ### States that differ in places -/

/-- States with the same texts and roles of tokens and the same open pairs. -/
structure Alike (s s' : Scan) : Prop where
  tokens : s.tokens.map Token.spelling = s'.tokens.map Token.spelling
  indices : s.openIndices = s'.openIndices

theorem Alike.push (h : Alike s s') (word : String) (kind : TokenKind) :
    Alike (s.push word kind) (s'.push word kind) :=
  ⟨congrArg ((word, kind) :: ·) h.tokens, h.indices⟩

theorem Alike.advance (h : Alike s s') (piece piece' : List Char) :
    Alike (s.advance piece) (s'.advance piece') :=
  ⟨h.tokens, h.indices⟩

theorem Alike.expectsOperand_eq (h : Alike s s') : s.expectsOperand = s'.expectsOperand := by
  rw [expectsOperand_eq_spelling, expectsOperand_eq_spelling, h.tokens]

/-- **Alike states make the same steps.** -/
theorem Step.alike (step : Step g s text next count) (h : Alike s s') :
    ∃ next', Step g s' text next' count ∧ Alike next next' := by
  have atop : Atop [] [] s s' := ⟨by simpa using h.tokens.symm, by simpa using h.indices.symm⟩
  have expects := h.expectsOperand_eq.symm
  have closer := closerAt?_eq_of_head? (congrArg List.head? h.indices.symm) expects g text
  have depth : s'.groups.length = s.groups.length := by
    simpa [openIndices] using congrArg List.length h.indices.symm
  obtain ⟨next', step', atop'⟩ := step.atop atop expects closer fun shallow _ => depth ▸ shallow
  exact ⟨next', step', by simpa using atop'.tokens.symm, by simpa using atop'.indices.symm⟩

/-- A text that is scanned to a state like the last one of another text has tokens with the same
texts and roles. -/
theorem Alike.tokenize (h : Alike s s') (hgroups : s.groups = []) {input : String}
    (hrun : run g {} input.toList = .ok s') :
    ∃ tokens, OperatorGrammar.tokenize g input = .ok tokens ∧
      tokens.map Token.spelling = s.tokens.reverse.map Token.spelling := by
  have hgroups' : s'.groups = [] := by
    have := h.indices
    rw [openIndices, hgroups, List.map_nil, eq_comm] at this
    exact List.map_eq_nil_iff.mp this
  refine ⟨_, tokenize_eq_ok.mpr ⟨s', hrun, hgroups', rfl⟩, ?_⟩
  rw [List.map_reverse, List.map_reverse, h.tokens]

/-! ### Separators -/

theorem advance_nil (s : Scan) : s.advance [] = s := rfl

theorem advance_append (s : Scan) (piece rest : List Char) :
    s.advance (piece ++ rest) = (s.advance piece).advance rest := by
  unfold advance
  rw [byteLength_append, ← Nat.add_assoc]

/-- What is left behind a step is scanned from the state behind it. -/
theorem Step.run_eq (step : Step g s (piece ++ rest) next piece.length) (ne : piece ≠ []) :
    run g s (piece ++ rest) = run g (next.advance piece) rest := by
  obtain ⟨c, cs, rfl⟩ := List.exists_cons_of_ne_nil ne
  rw [List.cons_append] at step ⊢
  rw [run_cons, step.step_eq_ok]
  simp only [bind, Except.bind, List.length_cons, Nat.add_sub_cancel, List.take_left,
    List.drop_left]

theorem step_separators (apart : g.ArgumentOpenerApart) (s : Scan)
    (hc : isSeparator c = true) (rest : List Char) :
    Step g s (c :: rest) s ((c :: rest).takeWhile isSeparator).length := by
  have hb := isBlank_of_isSeparator hc
  refine Step.separator ⟨?_, ?_, ?_, ?_⟩
  · cases hd : s.delimiterAt? g (c :: rest) with
    | none => rfl
    | some delimiter =>
        cases delimiter with
        | opens pair =>
            obtain ⟨known, hbegins, -⟩ :=
              Grammar.openerAt?_eq_some (delimiterAt?_eq_opens hd).1
            rw [startsWith_eq_false_of_isBlank hb (apart.delimiter _ known).1] at hbegins
            cases hbegins
        | closes pair =>
            obtain ⟨known, hbegins, -⟩ := closerAt?_eq_some (delimiterAt?_eq_closes hd).1
            rw [startsWith_eq_false_of_isBlank hb (apart.delimiter _ known).2] at hbegins
            cases hbegins
  · unfold Grammar.strayCloserAt?
    rw [lastLongest_eq_none, List.filter_eq_nil_iff]
    intro closer hmem
    obtain ⟨pair, known, rfl⟩ := List.mem_map.mp hmem
    rw [startsWith_eq_false_of_isBlank hb (apart.delimiter _ known).2]
    simp
  · rw [Option.eq_none_iff_forall_ne_some]
    intro symbol hsymbol
    obtain ⟨known, hbegins⟩ := Grammar.operatorAt?_eq_some hsymbol
    rw [startsWith_eq_false_of_isBlank hb (apart.operator _ known)] at hbegins
    cases hbegins
  · exact Lexeme.read?_of_isSeparator hc rest

theorem run_dropWhile (apart : g.ArgumentOpenerApart) (s : Scan) (text : List Char) :
    run g s text =
      run g (s.advance (text.takeWhile isSeparator)) (text.dropWhile isSeparator) := by
  by_cases hnil : text.takeWhile isSeparator = []
  · have hdrop : text.dropWhile isSeparator = text := by
      have := List.takeWhile_append_dropWhile (p := isSeparator) (l := text)
      rwa [hnil] at this
    rw [hnil, hdrop, advance_nil]
  · cases text with
    | nil => exact absurd rfl hnil
    | cons c rest =>
        have hc : isSeparator c = true := by
          by_contra hc
          exact hnil (List.takeWhile_cons_of_neg hc)
        have hsplit := List.takeWhile_append_dropWhile (p := isSeparator) (l := c :: rest)
        have step : Step g s
            ((c :: rest).takeWhile isSeparator ++ (c :: rest).dropWhile isSeparator) s
            ((c :: rest).takeWhile isSeparator).length := by
          rw [hsplit]
          exact step_separators apart s hc rest
        have hrun := step.run_eq hnil
        rwa [hsplit] at hrun

theorem run_separators (apart : g.ArgumentOpenerApart) (s : Scan)
    (hgap : ∀ c ∈ gap, isSeparator c = true) (rest : List Char) :
    run g s (gap ++ rest) = run g (s.advance gap) rest := by
  rw [run_dropWhile apart s (gap ++ rest), List.takeWhile_append_of_pos hgap,
    List.dropWhile_append_of_pos hgap, advance_append, ← run_dropWhile apart]

end Scan

end OperatorGrammar
