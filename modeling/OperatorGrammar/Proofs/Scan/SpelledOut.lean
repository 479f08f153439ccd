import OperatorGrammar.Proofs.Scan.Respaced

/-! # The implicit operator may be written

`spellOut` writes a word between spaces into a text, in front of the characters at some places.  If
the word is the implicit operator of a bundled grammar and each of the places is one where scanning
has put it unwritten, the texts and roles of the tokens stay the same (`tokenize_spellOut`).

An operand that began behind another operand begins behind the operator as well
(`Step.behind_implicit`): where an operand is expected a closer may be taken less often than
elsewhere, and nothing else is taken more often.  So two runs are kept in step
(`Scan.SpelledOut`), one of which reads the operator where the other one puts it in.  A name in
front of the operator keeps its role, for it was no function, and the operator begins no argument
list. -/

namespace OperatorGrammar

variable {g : Grammar} {symbol : String} {places : List Nat} {place : Nat}
  {piece rest rest' text text' : List Char} {tokens made later : List Token}

/-- A text that begins at a place, with a word between spaces in front of the characters at some
places. -/
def spellOut (word : List Char) (places : List Nat) (place : Nat) : List Char → List Char
  | [] => []
  | c :: rest =>
    if place ∈ places then
      ' ' :: (word ++ ' ' :: c :: spellOut word places (place + c.utf8Size) rest)
    else c :: spellOut word places (place + c.utf8Size) rest

theorem spellOut_append (word : List Char)
    (inside : ∀ other ∈ places, place ≤ other → place + byteLength piece ≤ other) :
    spellOut word places place (piece ++ rest) =
      piece ++ spellOut word places (place + byteLength piece) rest := by
  induction piece generalizing place with
  | nil => rfl
  | cons c cs ih =>
      have hpos := c.utf8Size_pos
      rw [byteLength_cons] at inside
      have hc : place ∉ places := by
        intro hmem
        have := inside place hmem (Nat.le_refl place)
        omega
      have hcs : ∀ other ∈ places, place + c.utf8Size ≤ other →
          place + c.utf8Size + byteLength cs ≤ other := by
        intro other hmem hle
        have := inside other hmem (by omega)
        omega
      rw [List.cons_append, spellOut, if_neg hc, ih hcs, byteLength_cons, List.cons_append,
        Nat.add_assoc]

theorem spellOut_append_of_mem {word : List Char} (ne : piece ≠ []) (hmem : place ∈ places)
    (inside : ∀ other ∈ places, place < other → place + byteLength piece ≤ other) :
    spellOut word places place (piece ++ rest) =
      ' ' :: (word ++
        ' ' :: (piece ++ spellOut word places (place + byteLength piece) rest)) := by
  obtain ⟨c, cs, rfl⟩ := List.exists_cons_of_ne_nil ne
  have hpos := c.utf8Size_pos
  rw [byteLength_cons] at inside
  have hcs : ∀ other ∈ places, place + c.utf8Size ≤ other →
      place + c.utf8Size + byteLength cs ≤ other := by
    intro other hother hle
    have := inside other hother (by omega)
    omega
  rw [List.cons_append, spellOut, if_pos hmem, spellOut_append word hcs, byteLength_cons,
    Nat.add_assoc]
  rfl

namespace Grammar

/-- An operator that can be written between any two operands: it stands between operands, nothing
else is read in its place, and it begins no delimiter. -/
structure Writes (g : Grammar) (symbol : String) : Prop where
  role : g.isMultary symbol = true ∨ g.nary.contains symbol = true
  found : g.operatorAt? symbol.toList = some symbol
  apart : ∀ pair ∈ g.parentheticals, g.startsWith symbol.toList pair.opener = false ∧
    g.startsWith symbol.toList pair.closer = false
  visible : ∀ c ∈ symbol.toList.head?, isBlank c = false

instance (symbol : String) : Decidable (g.Writes symbol) :=
  decidable_of_iff
    ((g.isMultary symbol = true ∨ g.nary.contains symbol = true) ∧
      g.operatorAt? symbol.toList = some symbol ∧
      (∀ pair ∈ g.parentheticals, g.startsWith symbol.toList pair.opener = false ∧
        g.startsWith symbol.toList pair.closer = false) ∧
      symbol.toList.head?.any isBlank = false)
    ⟨fun ⟨hr, hf, ha, hv⟩ => ⟨hr, hf, ha, by simpa [Option.any_eq_false] using hv⟩,
      fun ⟨hr, hf, ha, hv⟩ => ⟨hr, hf, ha, by simpa [Option.any_eq_false] using hv⟩⟩

theorem writes_of_bundled :
    ∀ g ∈ bundled, ∀ symbol ∈ g.implicitOperator, g.Writes symbol := by decide +kernel

end Grammar

namespace Scan

variable {s s' next last : Scan} {count : Nat}

/-! ### The operator is read where it is written -/

theorem Writes.operatorNext (writes : g.Writes symbol) :
    OperatorNext g s symbol.toList symbol := by
  refine ⟨delimiterAt?_eq_none_iff.mpr ⟨?_, ?_⟩, ?_, writes.found⟩
  · rw [Option.eq_none_iff_forall_ne_some]
    intro pair hpair
    obtain ⟨known, hbegins, -⟩ := closerAt?_eq_some hpair
    rw [(writes.apart _ known).2] at hbegins
    cases hbegins
  · exact Grammar.openerAt?_eq_none.mpr fun pair hpair => (writes.apart pair hpair).1
  · unfold Grammar.strayCloserAt?
    rw [lastLongest_eq_none, List.filter_eq_nil_iff]
    intro closer hmem
    obtain ⟨pair, hpair, rfl⟩ := List.mem_map.mp hmem
    rw [(writes.apart pair hpair).2]
    simp

theorem step_of_writes (writes : g.Writes symbol) (spaced : g.Spaced) (ne : g.NoEmptySymbol)
    (place : s.expectsOperand = false) (rest : List Char) :
    Step g s (symbol.toList ++ ' ' :: rest) (s.push symbol (g.infixKind symbol))
      symbol.toList.length := by
  have here : OperatorNext g s (symbol.toList ++ []) symbol := by
    rw [List.append_nil]
    exact Writes.operatorNext writes
  have cut : ∀ c ∈ (' ' :: rest).head?, isSeparator c = true := by
    rintro _ ⟨⟩
    rfl
  have cutsAt : ∀ c ∈ (' ' :: rest).head?, g.CutsAt c := fun c hc => spaced.cutsAt (cut c hc)
  exact Step.between (here.cut spaced ne cutsAt (Nat.le_refl _)) place writes.role

/-! ### An operand behind the operator -/

theorem closerAt?_of_push {word : String} {kind : TokenKind} {pair : Parenthetical}
    (place : s.expectsOperand = false) (h : (s.push word kind).closerAt? g text = some pair) :
    s.closerAt? g text = some pair := by
  obtain ⟨index, innermost, known, mayClose⟩ := closerAt?_eq_some_iff.mp h
  refine closerAt?_eq_some_iff.mpr ⟨index, innermost, known, ?_⟩
  unfold Scan.mayClose
  rw [(closerAt?_eq_some h).2.1, place]
  rfl

theorem delimiterAt?_push_eq_none {word : String} {kind : TokenKind}
    (place : s.expectsOperand = false) (h : s.delimiterAt? g text = none) :
    (s.push word kind).delimiterAt? g text = none := by
  obtain ⟨hc, ho⟩ := delimiterAt?_eq_none_iff.mp h
  refine delimiterAt?_eq_none_iff.mpr ⟨?_, ho⟩
  rw [Option.eq_none_iff_forall_ne_some]
  intro pair hpair
  rw [closerAt?_of_push place hpair] at hc
  cases hc

/-- A step that has put two tokens has put the implicit operator, behind which it is the same
step. -/
theorem Step.behind_implicit {t u : Token} (step : Step g s text next count)
    (two : next.inOrder = s.inOrder ++ [t, u]) :
    s.expectsOperand = false ∧ ∃ symbol, g.implicitOperator = some symbol ∧
      Step g (s.push symbol (g.infixKind symbol)) text next count := by
  have single {v : Token} (h : s.inOrder ++ [v] = s.inOrder ++ [t, u]) : False := by
    simpa using List.append_cancel_left h
  have expects (symbol : String) :
      (s.push symbol (g.infixKind symbol)).expectsOperand = true := by
    have hk := TokenKind.expectsOperandAfter_of_isInfix (g.isInfix_infixKind symbol)
    rw [expectsOperand_eq, inOrder_push, endsOperand_concat, hk]
    rfl
  cases step with
  | closes => exact absurd (two.symm.trans (inOrder_push _ _ _)).symm single
  | between => exact absurd ((inOrder_push _ _ _).symm.trans two) single
  | postUnary => exact absurd ((inOrder_push _ _ _).symm.trans two) single
  | separator =>
      rw [List.self_eq_append_right] at two
      cases two
  | @opens pair base found room shallow =>
      cases room with
      | here => exact absurd ((inOrder_push _ _ _).symm.trans two) single
      | @behind symbol place implicit =>
          obtain ⟨ho, hc⟩ := delimiterAt?_eq_opens found
          refine ⟨place, symbol, implicit, Step.opens ?_ (Room.here (expects symbol)) shallow⟩
          exact delimiterAt?_of_opens ho fun other hother =>
            hc other (closerAt?_of_push place hother)
  | preUnary next role room only =>
      cases room with
      | here => exact absurd ((inOrder_push _ _ _).symm.trans two) single
      | @behind symbol place implicit =>
          refine ⟨place, symbol, implicit, Step.preUnary
            ⟨delimiterAt?_push_eq_none place next.plain, next.noStray, next.found⟩ role
            (Room.here (expects symbol)) fun h => ?_⟩
          rw [expects symbol] at h
          cases h
  | number next room =>
      cases room with
      | here => exact absurd ((inOrder_push _ _ _).symm.trans two) single
      | @behind symbol place implicit =>
          exact ⟨place, symbol, implicit, Step.number
            ⟨delimiterAt?_push_eq_none place next.plain, next.noStray, next.noOperator, next.found⟩
            (Room.here (expects symbol))⟩
  | name next room =>
      cases room with
      | here => exact absurd ((inOrder_push _ _ _).symm.trans two) single
      | @behind symbol place implicit =>
          exact ⟨place, symbol, implicit, Step.name
            ⟨delimiterAt?_push_eq_none place next.plain, next.noStray, next.noOperator, next.found⟩
            (Room.here (expects symbol))⟩

/-! ### Two runs, one of which reads the operator -/

/-- The steps in which a text is scanned, and the same text with the implicit operator written at
some of the places where a step puts it in. -/
inductive SpelledOut (g : Grammar) (symbol : String) : Scan → List Char → List Char → Prop
  | done {s : Scan} : SpelledOut g symbol s [] []
  | gap {s : Scan} {gap rest rest' : List Char} (step : Step g s (gap ++ rest) s gap.length)
      (ne : gap ≠ []) (blank : ∀ c ∈ gap, isSeparator c = true) :
      SpelledOut g symbol (s.advance gap) rest rest' →
        SpelledOut g symbol s (gap ++ rest) (gap ++ rest')
  | token {s next : Scan} {piece rest rest' : List Char}
      (step : Step g s (piece ++ rest) next piece.length) (written : next.inOrder ≠ s.inOrder)
      (ne : piece ≠ []) (visible : ∀ c ∈ piece.head?, isBlank c = false) :
      SpelledOut g symbol (next.advance piece) rest rest' →
        SpelledOut g symbol s (piece ++ rest) (piece ++ rest')
  | operator {s next : Scan} {piece rest rest' : List Char}
      (step : Step g s (piece ++ rest) next piece.length) (place : s.expectsOperand = false)
      (implicit : g.implicitOperator = some symbol)
      (behind : Step g (s.push symbol (g.infixKind symbol)) (piece ++ rest) next piece.length)
      (written : next.inOrder ≠ (s.push symbol (g.infixKind symbol)).inOrder) (ne : piece ≠ []) :
      SpelledOut g symbol (next.advance piece) rest rest' →
        SpelledOut g symbol s (piece ++ rest)
          (' ' :: (symbol.toList ++ ' ' :: (piece ++ rest')))

/-- The texts are the same up to a place where the second one ends or has a space. -/
theorem SpelledOut.exists_cut (h : SpelledOut g symbol s text text') :
    ∃ front tail tail', text = front ++ tail ∧ text' = front ++ tail' ∧
      ∀ c ∈ tail'.head?, isSeparator c = true := by
  induction h with
  | done => exact ⟨[], [], [], rfl, rfl, by simp⟩
  | @gap s piece _ _ _ _ _ _ ih | @token s _ piece _ _ _ _ _ _ _ ih =>
      obtain ⟨front, tail, tail', rfl, rfl, cut⟩ := ih
      exact ⟨piece ++ front, tail, tail', by simp, by simp, cut⟩
  | operator =>
      refine ⟨[], _, _, rfl, rfl, ?_⟩
      rintro _ ⟨⟩
      rfl

/-- The first character that is not blank is the same, or it is that of the operator where no
operand is expected. -/
theorem SpelledOut.head?_eq (writes : g.Writes symbol) (ne : symbol ≠ "")
    (h : SpelledOut g symbol s text text') :
    (skipBlanks text').head? = (skipBlanks text).head? ∨
      s.expectsOperand = false ∧ (skipBlanks text').head? = symbol.toList.head? := by
  induction h with
  | done => exact Or.inl rfl
  | gap _ _ blank _ ih =>
      rw [skipBlanks_append blank, skipBlanks_append blank]
      exact ih
  | @token s next piece rest rest' _ _ ne visible _ _ =>
      obtain ⟨c, cs, rfl⟩ := List.exists_cons_of_ne_nil ne
      have hc : ¬ isBlank c = true := by simp [visible c rfl]
      unfold skipBlanks
      rw [List.cons_append, List.cons_append, List.dropWhile_cons_of_neg hc,
        List.dropWhile_cons_of_neg hc]
      exact Or.inl rfl
  | @operator s next piece rest rest' step place =>
      obtain ⟨c, cs, hcs⟩ := List.exists_cons_of_ne_nil (mt String.toList_eq_nil_iff.mp ne)
      have hc : ¬ isBlank c = true := by simp [writes.visible c (by rw [hcs]; rfl)]
      have hspace : isBlank ' ' = true := rfl
      refine Or.inr ⟨place, ?_⟩
      unfold skipBlanks
      rw [List.dropWhile_cons_of_pos hspace, hcs, List.cons_append, List.dropWhile_cons_of_neg hc]
      rfl

/-- An argument list is seen ahead of both texts or of neither, unless a name comes before that is
no function. -/
theorem SpelledOut.ahead (writes : g.Writes symbol) (spaced : g.Spaced) (ne : symbol ≠ "")
    (known : g.IsOpener g.argumentOpener) (h : SpelledOut g symbol s text text') :
    g.startsWith (skipBlanks text') g.argumentOpener =
        g.startsWith (skipBlanks text) g.argumentOpener ∨
      s.expectsOperand = false ∧ g.startsWith (skipBlanks text') g.argumentOpener = false := by
  rcases h.head?_eq writes ne with hhead | ⟨place, hhead⟩
  · exact Or.inl (startsWith_argumentOpener_eq spaced hhead)
  · obtain ⟨pair, hmem, hopener⟩ := known
    refine Or.inr ⟨place, ?_⟩
    rw [startsWith_argumentOpener_eq spaced hhead, ← hopener]
    exact (writes.apart pair hmem).1

theorem SpelledOut.step (writes : g.Writes symbol) (spaced : g.Spaced) (noEmpty : g.NoEmptySymbol)
    (known : g.IsOpener g.argumentOpener) (nonempty : symbol ≠ "")
    (h : SpelledOut g symbol (next.advance piece) rest rest')
    (step : Step g s (piece ++ rest) next piece.length) (written : next.inOrder ≠ s.inOrder) :
    Step g s (piece ++ rest') next piece.length := by
  have ahead := h.ahead writes spaced nonempty known
  obtain ⟨front, tail, tail', rfl, rfl, cut⟩ := h.exists_cut
  have cutsAt : ∀ c ∈ tail'.head?, g.CutsAt c := fun c hc => spaced.cutsAt (cut c hc)
  rw [← List.append_assoc] at step ⊢
  refine step.cut_of_ahead spaced noEmpty cutsAt ?_ (by simp) written
  rw [List.append_assoc, List.append_assoc, List.drop_left, List.drop_left]
  exact ahead

/-- **Both texts are scanned in the same steps**, but for those that read the operator. -/
theorem SpelledOut.run_eq_ok (writes : g.Writes symbol) (spaced : g.Spaced)
    (noEmpty : g.NoEmptySymbol) (apart : g.ArgumentOpenerApart)
    (known : g.IsOpener g.argumentOpener) (nonempty : symbol ≠ "")
    (h : SpelledOut g symbol s text text') (alike : Alike s s') (hrun : run g s text = .ok last) :
    ∃ last', run g s' text' = .ok last' ∧ Alike last last' := by
  have space : ∀ c ∈ [' '], isSeparator c = true := by simp [isSeparator]
  induction h generalizing s' with
  | done =>
      rw [run, Except.ok.injEq] at hrun
      subst hrun
      exact ⟨s', by rw [run], alike⟩
  | @gap s gap rest rest' step ne blank _ ih =>
      rw [step.run_eq ne] at hrun
      rw [run_separators apart s' blank]
      exact ih (alike.advance gap gap) hrun
  | @token s next piece rest rest' step written ne visible h ih =>
      have step' := h.step writes spaced noEmpty known nonempty step written
      obtain ⟨next', hnext, alike'⟩ := step'.alike alike
      rw [step.run_eq ne] at hrun
      rw [hnext.run_eq ne]
      exact ih (alike'.advance piece piece) hrun
  | @operator s next piece rest rest' step place implicit behind written ne h ih =>
      have step' := h.step writes spaced noEmpty known nonempty behind written
      -- The second run reads a space, the operator and another space.
      have place' : (s'.advance [' ']).expectsOperand = false :=
        (alike.advance [] [' ']).expectsOperand_eq ▸ place
      have hoperator := step_of_writes writes spaced noEmpty place' (piece ++ rest')
      have hwritten : symbol.toList ≠ [] := mt String.toList_eq_nil_iff.mp nonempty
      have hread := run_separators apart s' space
        (symbol.toList ++ ' ' :: (piece ++ rest'))
      have hbehind := run_separators apart
        (((s'.advance [' ']).push symbol (g.infixKind symbol)).advance symbol.toList) space
        (piece ++ rest')
      rw [List.singleton_append] at hread hbehind
      rw [hread, hoperator.run_eq hwritten, hbehind]
      -- From here on both make the step that has put the operator in.
      have alike' := (((alike.advance [] [' ']).push symbol (g.infixKind symbol)).advance []
        symbol.toList).advance [] [' ']
      obtain ⟨next', hnext, alike'⟩ := step'.alike alike'
      rw [step.run_eq ne] at hrun
      rw [hnext.run_eq ne]
      exact ih (alike'.advance piece piece) hrun

/-! ### The places where the operator has been put in -/

/-- The number of tokens that stand at a place. -/
def tokensAt (place : Nat) (tokens : List Token) : Nat :=
  tokens.countP fun t => t.position == place

theorem tokensAt_append (place : Nat) (tokens new : List Token) :
    tokensAt place (tokens ++ new) = tokensAt place tokens + tokensAt place new :=
  List.countP_append

theorem exists_of_tokensAt_pos (h : 0 < tokensAt place tokens) :
    ∃ t ∈ tokens, t.position = place := by
  obtain ⟨t, ht, hplace⟩ := List.countP_pos_iff.mp h
  exact ⟨t, ht, eq_of_beq hplace⟩

theorem tokensAt_eq_zero (h : ∀ t ∈ tokens, t.position ≠ place) : tokensAt place tokens = 0 := by
  unfold tokensAt
  rw [List.countP_eq_zero]
  simpa using h

theorem Inserted.two_le_tokensAt (ne : g.NoEmptySymbol) {input : String} {before after : List Token}
    {t : Token} (ht : tokenize g input = .ok (before ++ t :: after))
    (h : Inserted g input before t) : 2 ≤ tokensAt t.position (before ++ t :: after) := by
  obtain ⟨-, u, rest, rfl, hsame⟩ := h.emitted ne ht
  rw [tokensAt_append]
  simp only [tokensAt, List.countP_cons, hsame, beq_self_eq_true, if_true]
  omega

theorem tokensAt_here {size : Nat} (pos : 0 < size) (hat : ∀ t ∈ made, t.position = place)
    (behind : ∀ t ∈ later, place + size ≤ t.position) :
    tokensAt place (made ++ later) = made.length := by
  have hlater : tokensAt place later = 0 := tokensAt_eq_zero fun t ht => by
    have := behind t ht
    omega
  have hmade : tokensAt place made = made.length := by
    unfold tokensAt
    rw [List.countP_eq_length]
    simpa using hat
  rw [tokensAt_append, hlater, hmade, Nat.add_zero]

theorem tokensAt_behind {size other : Nat} (hat : ∀ t ∈ made, t.position = place)
    (behind : ∀ t ∈ later, place + size ≤ t.position) (lt : place < other)
    (two : 2 ≤ tokensAt other (made ++ later)) :
    place + size ≤ other ∧ 2 ≤ tokensAt other later := by
  have hmade : tokensAt other made = 0 := tokensAt_eq_zero fun t ht => by
    rw [hat t ht]
    omega
  rw [tokensAt_append, hmade, Nat.zero_add] at two
  refine ⟨?_, two⟩
  obtain ⟨t, ht, rfl⟩ := exists_of_tokensAt_pos (Nat.lt_of_lt_of_le Nat.two_pos two)
  exact behind t ht

/-- Scanning a text goes along with the text in which the operator is written at some places where
two tokens stand. -/
theorem Pieces.spelledOut (implicit : g.implicitOperator = some symbol)
    (h : Pieces g last s text tokens)
    (two : ∀ place ∈ places, s.position ≤ place → 2 ≤ tokensAt place tokens) :
    SpelledOut g symbol s text (spellOut symbol.toList places s.position text) := by
  induction h with
  | done => exact SpelledOut.done
  | @gap s gap rest tokens step ne blank ends behind _ ih =>
      -- No token stands at a separator.
      have there : ∀ place ∈ places, s.position ≤ place →
          s.position + byteLength gap ≤ place := by
        intro place hmem hle
        obtain ⟨t, ht, rfl⟩ := exists_of_tokensAt_pos (Nat.lt_of_lt_of_le Nat.two_pos
          (two place hmem hle))
        exact behind t ht
      rw [spellOut_append _ there]
      refine SpelledOut.gap step ne blank (ih fun place hmem hle => two place hmem ?_)
      exact Nat.le_trans (Nat.le_add_right _ _) hle
  | @token s next piece rest made tokens placed step position makes ne visible behind _ ih =>
      have there {other : Nat} (hmem : other ∈ places) (hlt : s.position < other) :
          s.position + byteLength piece ≤ other ∧ 2 ≤ tokensAt other tokens :=
        tokensAt_behind makes.here behind hlt (two other hmem (Nat.le_of_lt hlt))
      have hrest := ih fun other hmem hle => by
        have := byteLength_pos ne
        exact (there hmem (by omega)).2
      rw [position] at hrest
      by_cases hhere : s.position ∈ places
      · -- Two tokens stand here, and the step has made both of them.
        have hcount := two _ hhere (Nat.le_refl _)
        rw [tokensAt_here (byteLength_pos ne) makes.here behind] at hcount
        obtain ⟨t, u, rfl⟩ := List.length_eq_two.mp (Nat.le_antisymm makes.few hcount)
        obtain ⟨place, other, hother, step'⟩ := step.behind_implicit makes.inOrder
        obtain rfl : other = symbol := Option.some.inj (hother.symm.trans implicit)
        rw [spellOut_append_of_mem ne hhere fun other hmem hlt => (there hmem hlt).1]
        refine SpelledOut.operator step place implicit step' (fun hsame => ?_) ne hrest
        rw [makes.inOrder, inOrder_push] at hsame
        simpa using List.append_cancel_left hsame
      · have inside : ∀ other ∈ places, s.position ≤ other →
            s.position + byteLength piece ≤ other := by
          intro other hmem hle
          refine (there hmem (Nat.lt_of_le_of_ne hle fun heq => ?_)).1
          exact hhere (heq ▸ hmem)
        rw [spellOut_append _ inside]
        exact SpelledOut.token step makes.inOrder_ne ne visible hrest

end Scan

/-- In a bundled grammar the implicit operator may be written wherever it has been put in. -/
theorem tokenize_spellOut (hg : g ∈ Grammar.bundled) (implicit : g.implicitOperator = some symbol)
    {input : String} (h : tokenize g input = .ok tokens)
    (unwritten : ∀ place ∈ places, ∃ before t after, tokens = before ++ t :: after ∧
      Scan.Inserted g input before t ∧ t.position = place) :
    ∃ tokens', tokenize g (String.ofList (spellOut symbol.toList places 0 input.toList)) =
        .ok tokens' ∧ tokens'.map Token.spelling = tokens.map Token.spelling := by
  have noEmpty := Grammar.noEmptySymbol_of_bundled g hg
  have apart := Grammar.argumentOpenerApart_of_bundled g hg
  have writes := Grammar.writes_of_bundled g hg symbol implicit
  have nonempty : symbol ≠ "" :=
    noEmpty.operator symbol (Grammar.operatorAt?_eq_some writes.found).1
  have two : ∀ place ∈ places, ({} : Scan).position ≤ place →
      2 ≤ Scan.tokensAt place tokens := by
    intro place hmem _
    obtain ⟨before, t, after, rfl, inserted, rfl⟩ := unwritten place hmem
    exact inserted.two_le_tokensAt noEmpty h
  obtain ⟨last, hrun, hgroups, rfl⟩ := Scan.tokenize_eq_ok.mp h
  have start : ({} : Scan).WellPlaced g := Scanned.nil
  obtain ⟨new, pieces⟩ := Scan.pieces_of_run noEmpty apart start hrun
  obtain rfl : last.tokens.reverse = new := pieces.inOrder_eq
  obtain ⟨last', hrun', alike⟩ := (pieces.spelledOut implicit two).run_eq_ok writes
    (Grammar.spaced_of_bundled g hg) noEmpty apart (Grammar.isOpener_of_bundled g hg) nonempty
    ⟨rfl, rfl⟩ hrun
  exact alike.tokenize hgroups (by rwa [String.toList_ofList])

end OperatorGrammar
