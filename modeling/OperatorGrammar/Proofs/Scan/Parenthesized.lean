import OperatorGrammar.Proofs.Scan.Cut
import OperatorGrammar.Proofs.Scan.Pieces

/-! # Scanning a text between parentheses

In the bundled grammars round parentheses are a pair of their own: no other symbol contains one of
them, and nothing is done with what they enclose (`Grammar.Rounds`).  So a text between parentheses
has the tokens of the text, and the two parentheses around them, unless groups get too deep
(`tokenize_parenthesized`).

Inside the parentheses one more pair is open below all others (`Scan.Atop`).  Its closer could only
be met where no other pair is open, and there the text alone would have been refused for a stray
closer (`Step.startsWith_closer_eq_false`).  The closing parenthesis behind the text cuts it
(`Grammar.Rounds.cutsAt`), so that the last steps are the same as well. -/

namespace OperatorGrammar

/-- The pair of round parentheses. -/
def Parenthetical.round : Parenthetical := ⟨"(", ")"⟩

variable {g : Grammar} {c : Char} {symbol : String} {rest text : List Char}
  {tokens : List Token}

theorem Grammar.startsWith_eq_false_of_notMem (hc : c.toNat < 65) (ne : symbol ≠ "")
    (h : c ∉ symbol.toList) (rest : List Char) : g.startsWith (c :: rest) symbol = false := by
  obtain ⟨d, ds, hds⟩ := List.exists_cons_of_ne_nil (mt String.toList_eq_nil_iff.mp ne)
  rw [hds] at h
  unfold startsWith
  rw [hds, Bool.eq_false_iff]
  intro hbegins
  obtain ⟨hsame, -⟩ := Bool.and_eq_true_iff.mp hbegins
  rw [sameChar_comm] at hsame
  exact h (eq_of_sameChar hc hsame ▸ List.mem_cons_self)

namespace Grammar

/-! ### Round parentheses -/

/-- Whether a symbol contains no parenthesis. -/
def Unbracketed (symbol : String) : Prop := '(' ∉ symbol.toList ∧ ')' ∉ symbol.toList

instance (symbol : String) : Decidable (Unbracketed symbol) :=
  inferInstanceAs (Decidable ('(' ∉ symbol.toList ∧ ')' ∉ symbol.toList))

/-- Round parentheses group and do nothing else. -/
structure Rounds (g : Grammar) : Prop where
  known : .round ∈ g.parentheticals
  plain : g.enclosures.get? "(" = none
  delimiter : ∀ pair ∈ g.parentheticals,
    pair = .round ∨ Unbracketed pair.opener ∧ Unbracketed pair.closer
  operator : ∀ symbol ∈ g.operatorSymbols, Unbracketed symbol

theorem rounds_of_bundled (g : Grammar) (hg : g ∈ bundled) : g.Rounds := by
  have known : ∀ g ∈ bundled, .round ∈ g.parentheticals := by decide +kernel
  have plain : ∀ g ∈ bundled, (g.enclosures.get? "(").isNone := by decide +kernel
  have delimiter : ∀ g ∈ bundled, ∀ pair ∈ g.parentheticals,
      pair = .round ∨ Unbracketed pair.opener ∧ Unbracketed pair.closer := by decide +kernel
  have operator : ∀ g ∈ bundled, ∀ symbol ∈ g.operatorSymbols, Unbracketed symbol := by
    decide +kernel
  exact ⟨known g hg, Option.isNone_iff_eq_none.mp (plain g hg), delimiter g hg, operator g hg⟩

namespace Rounds

/-- A parenthesis at the front of a text can only open a group. -/
theorem openerAt?_opening (rounds : g.Rounds) (ne : g.NoEmptySymbol) (rest : List Char) :
    g.openerAt? ('(' :: rest) = some .round := by
  have hbegins : g.startsWith ('(' :: rest) Parenthetical.round.opener = true := by
    simp [startsWith, beginsWith, Parenthetical.round, sameChar]
  cases h : g.openerAt? ('(' :: rest) with
  | none =>
      rw [openerAt?_eq_none.mp h _ rounds.known] at hbegins
      cases hbegins
  | some pair =>
      obtain ⟨hmem, hpair, -⟩ := openerAt?_eq_some h
      rcases rounds.delimiter pair hmem with rfl | ⟨hopener, -⟩
      · rfl
      · rw [startsWith_eq_false_of_notMem (by decide) (ne.delimiter pair hmem).1 hopener.1] at hpair
        cases hpair

theorem getElem?_indexOf (rounds : g.Rounds) (ne : g.NoEmptySymbol) :
    g.parentheticals[g.indexOf .round]? = some .round :=
  Grammar.getElem?_indexOf (rounds.openerAt?_opening ne [])

theorem startsWith_opener_eq_false (rounds : g.Rounds) (ne : g.NoEmptySymbol)
    {pair : Parenthetical} (hmem : pair ∈ g.parentheticals) (rest : List Char) :
    g.startsWith (')' :: rest) pair.opener = false := by
  refine startsWith_eq_false_of_notMem (by decide) (ne.delimiter pair hmem).1 ?_ rest
  rcases rounds.delimiter pair hmem with rfl | ⟨hopener, -⟩
  · decide
  · exact hopener.2

theorem openerAt?_closing (rounds : g.Rounds) (ne : g.NoEmptySymbol) (rest : List Char) :
    g.openerAt? (')' :: rest) = none :=
  openerAt?_eq_none.mpr fun _ hmem => rounds.startsWith_opener_eq_false ne hmem rest

theorem strayCloserAt?_ne_none (rounds : g.Rounds) (ne : g.NoEmptySymbol) (rest : List Char) :
    g.strayCloserAt? (')' :: rest) ≠ none := by
  have noOperator : g.operatorAt? (')' :: rest) = none := by
    rw [Option.eq_none_iff_forall_ne_some]
    intro symbol hsymbol
    obtain ⟨hmem, hbegins⟩ := operatorAt?_eq_some hsymbol
    rw [startsWith_eq_false_of_notMem (by decide) (ne.operator symbol hmem)
      (rounds.operator symbol hmem).2] at hbegins
    cases hbegins
  intro h
  unfold strayCloserAt? at h
  rw [lastLongest_eq_none, List.filter_eq_nil_iff, noOperator] at h
  refine h ")" (List.mem_map.mpr ⟨.round, rounds.known, rfl⟩) ?_
  simp [startsWith, beginsWith, sameChar, symbolLength, Char.utf8Size_pos]

/-- No symbol goes on with a closing parenthesis. -/
theorem cutsAt (rounds : g.Rounds) : g.CutsAt ')' := by
  have apart {symbol : String} (h : Unbracketed symbol) : g.EndsBefore symbol ')' := by
    intro d hd
    rw [Bool.eq_false_iff]
    intro hsame
    rw [sameChar_comm] at hsame
    obtain rfl := eq_of_sameChar (by decide) hsame
    exact h.2 (List.mem_of_mem_tail hd)
  refine ⟨rfl, fun pair hmem => ?_, fun symbol hmem => apart (rounds.operator symbol hmem)⟩
  rcases rounds.delimiter pair hmem with rfl | ⟨hopener, hcloser⟩
  · exact ⟨by simp [EndsBefore, Parenthetical.round], by simp [EndsBefore, Parenthetical.round]⟩
  · exact ⟨apart hopener, apart hcloser⟩

theorem startsWith_argumentOpener_eq (rounds : g.Rounds) (spaced : g.Spaced) (ne : g.NoEmptySymbol)
    (known : g.IsOpener g.argumentOpener) (text : List Char) :
    g.startsWith (skipBlanks (text ++ [')'])) g.argumentOpener =
      g.startsWith (skipBlanks text) g.argumentOpener := by
  have blank : [')'].dropWhile isBlank = [')'] := by decide
  unfold skipBlanks
  rw [List.dropWhile_append, blank]
  cases h : text.dropWhile isBlank with
  | nil =>
      obtain ⟨pair, hmem, hopener⟩ := known
      obtain ⟨d, hd⟩ := List.length_eq_one_iff.mp spaced.argumentOpener
      rw [← hopener] at hd ⊢
      rw [List.isEmpty_nil, if_pos rfl, rounds.startsWith_opener_eq_false ne hmem]
      unfold startsWith
      rw [hd]
      rfl
  | cons c rest => exact Scan.startsWith_argumentOpener_eq spaced rfl

end Rounds

end Grammar

namespace Scan

variable {s s' next last : Scan} {count : Nat}

/-! ### One more pair below all others -/

/-- The states of two runs, the second one of which is inside parentheses that are open below
everything else. -/
abbrev Inside (g : Grammar) (s s' : Scan) : Prop :=
  Atop [("(", .opening)] [g.indexOf .round] s s'

theorem Inside.expectsOperand_eq (h : Inside g s s') : s'.expectsOperand = s.expectsOperand :=
  Atop.expectsOperand_eq h rfl

theorem Inside.exists_groups (h : Inside g s s') (outside : s.groups = []) :
    ∃ group, s'.groups = [group] ∧ group.index = g.indexOf .round := by
  have indices : s'.groups.map OpenGroup.index = [g.indexOf .round] := by
    simpa [openIndices, outside] using h.indices
  exact List.map_eq_singleton_iff.mp indices

/-- Where no pair is open, a step does not begin with a closing parenthesis. -/
theorem Step.startsWith_closer_eq_false (rounds : g.Rounds) (ne : g.NoEmptySymbol)
    (step : Step g s text next count) (outside : s.groups = []) :
    g.startsWith text ")" = false := by
  rw [Bool.eq_false_iff]
  intro hbegins
  cases text with
  | nil => cases hbegins
  | cons c rest =>
      obtain ⟨hsame, -⟩ := Bool.and_eq_true_iff.mp hbegins
      obtain rfl : c = ')' := eq_of_sameChar (by decide) hsame
      cases step with
      | opens found =>
          have ho := (delimiterAt?_eq_opens found).1
          rw [rounds.openerAt?_closing ne] at ho
          cases ho
      | closes found =>
          obtain ⟨_, _, hg, -⟩ := exists_group_of_closerAt? (delimiterAt?_eq_closes found).1
          rw [outside] at hg
          cases hg
      | preUnary next | between next | postUnary next | separator next | number next | name next =>
          exact rounds.strayCloserAt?_ne_none ne rest next.noStray

/-- A step inside the parentheses is the same. -/
theorem Step.inside (rounds : g.Rounds) (ne : g.NoEmptySymbol) (step : Step g s text next count)
    (inside : Inside g s s') (shallow : next.groups.length < g.maxDepth.toNat) :
    ∃ next', Step g s' text next' count ∧ Inside g next next' := by
  have expects := inside.expectsOperand_eq
  refine step.atop inside expects ?_ fun _ deeper => ?_
  · by_cases outside : s.groups = []
    · obtain ⟨group, hgroup, hround⟩ := inside.exists_groups outside
      have hclose : s'.mayClose g text .round = false := by
        unfold mayClose
        rw [show g.startsWith text Parenthetical.round.closer = false from
          step.startsWith_closer_eq_false rounds ne outside]
        rfl
      unfold closerAt?
      rw [outside, hgroup]
      simp [hround, rounds.getElem?_indexOf ne, hclose]
    · refine closerAt?_eq_of_head? ?_ expects g text
      rw [inside.indices, List.head?_append_of_ne_nil]
      simpa [openIndices] using outside
  · have hlength : s'.groups.length = s.groups.length + 1 := by
      simpa [openIndices] using congrArg List.length inside.indices
    omega

/-- **A text is scanned inside the parentheses as it is alone**, up to the closing one. -/
theorem Pieces.inside (rounds : g.Rounds) (spaced : g.Spaced) (ne : g.NoEmptySymbol)
    (apart : g.ArgumentOpenerApart) (known : g.IsOpener g.argumentOpener)
    (h : Pieces g last s text tokens)
    (shallow : ∀ before after pairs, last.inOrder = before ++ after → Scanned g before pairs →
      pairs.length < g.maxDepth.toNat)
    (inside : Inside g s s') :
    ∃ last', run g s' (text ++ [')']) = run g last' [')'] ∧ Inside g last last' := by
  induction h generalizing s' with
  | done => exact ⟨s', rfl, inside⟩
  | @gap s gap rest tokens step hne blank ends behind _ ih =>
      obtain ⟨last', hrun, hlast⟩ := ih (inside.advance gap gap)
      rw [List.append_assoc, run_separators apart s' blank]
      exact ⟨last', hrun, hlast⟩
  | @token s next piece rest made tokens placed step position makes hne visible behind later ih =>
      have cut : ∀ c ∈ [')'].head?, g.CutsAt c := by
        rintro _ ⟨⟩
        exact rounds.cutsAt
      have ahead : g.startsWith (skipBlanks ((piece ++ rest ++ [')']).drop piece.length))
          g.argumentOpener =
            g.startsWith (skipBlanks ((piece ++ rest ++ []).drop piece.length))
              g.argumentOpener := by
        rw [List.append_nil, List.append_assoc, List.drop_left, List.drop_left]
        exact rounds.startsWith_argumentOpener_eq spaced ne known rest
      have deep : next.groups.length < g.maxDepth.toNat := by
        have := shallow next.inOrder tokens (next.openPairs g) later.inOrder_eq
          (step.wellPlaced placed)
        simpa [openPairs] using this
      have step' : Step g s (piece ++ rest ++ [')']) next piece.length := by
        rw [← List.append_nil (piece ++ rest)] at step
        exact step.cut_of_ahead spaced ne cut (Or.inl ahead) (by simp) makes.inOrder_ne
      obtain ⟨next', hnext, inside'⟩ := step'.inside rounds ne inside deep
      obtain ⟨last', hrun, hlast⟩ := ih (inside'.advance piece piece)
      rw [List.append_assoc] at hnext ⊢
      rw [hnext.run_eq hne]
      exact ⟨last', hrun, hlast⟩

/-! ### The parentheses themselves -/

theorem exists_run_opening (rounds : g.Rounds) (ne : g.NoEmptySymbol)
    (pos : 0 < g.maxDepth.toNat) (text : List Char) :
    ∃ s, run g {} ('(' :: text) = run g s text ∧ Inside g {} s := by
  have found : ({} : Scan).delimiterAt? g ('(' :: text) = some (.opens .round) :=
    delimiterAt?_of_opens (rounds.openerAt?_opening ne text) (by simp [closerAt?])
  have step : Step g {} (['('] ++ text) _ ['('].length := Step.opens found (Room.here rfl) pos
  exact ⟨_, step.run_eq (by simp), rfl, rfl⟩

theorem run_closing (rounds : g.Rounds) (ne : g.NoEmptySymbol) (inside : Inside g s s')
    (outside : s.groups = []) :
    ∃ last, run g s' [')'] = .ok last ∧ last.groups = [] ∧
      last.tokens.map Token.spelling = (")", .closing) :: s'.tokens.map Token.spelling := by
  obtain ⟨group, hgroup, hround⟩ := inside.exists_groups outside
  have hcloser : s'.closerAt? g [')'] = some .round := by
    refine closerAt?_eq_some_iff.mpr
      ⟨g.indexOf .round, by simp [hgroup, hround], rounds.getElem?_indexOf ne, ?_⟩
    simp [mayClose, Parenthetical.round, Grammar.startsWith, beginsWith, sameChar]
  have found : s'.delimiterAt? g [')'] = some (.closes .round) := by
    refine delimiterAt?_of_closes hcloser fun other hother => ?_
    rw [rounds.openerAt?_closing ne] at hother
    cases hother
  have step : Step g s' ([')'] ++ []) (s'.closeGroup .round) [')'].length := Step.closes found
  refine ⟨_, (step.run_eq (by simp)).trans (by rw [run]), ?_, rfl⟩
  show s'.groups.tail = []
  rw [hgroup]
  rfl

end Scan

/-- In a bundled grammar, a text between parentheses has the tokens of the text between two more. -/
theorem tokenize_parenthesized (hg : g ∈ Grammar.bundled) {input : String}
    (h : tokenize g input = .ok tokens)
    (shallow : ∀ before after pairs, tokens = before ++ after → Scanned g before pairs →
      pairs.length < g.maxDepth.toNat) :
    ∃ tokens', tokenize g ("(" ++ input ++ ")") = .ok tokens' ∧
      tokens'.map Token.spelling =
        ("(", .opening) :: tokens.map Token.spelling ++ [(")", .closing)] := by
  have ne := Grammar.noEmptySymbol_of_bundled g hg
  have apart := Grammar.argumentOpenerApart_of_bundled g hg
  have rounds := Grammar.rounds_of_bundled g hg
  have pos : 0 < g.maxDepth.toNat := shallow [] tokens [] rfl Scanned.nil
  obtain ⟨last, hrun, hgroups, rfl⟩ := Scan.tokenize_eq_ok.mp h
  have start : ({} : Scan).WellPlaced g := Scanned.nil
  obtain ⟨_, pieces⟩ := Scan.pieces_of_run ne apart start hrun
  obtain ⟨s', hopening, inside⟩ :=
    Scan.exists_run_opening rounds ne pos (input.toList ++ [')'])
  obtain ⟨last', hinner, inside'⟩ := pieces.inside rounds (Grammar.spaced_of_bundled g hg) ne
    apart (Grammar.isOpener_of_bundled g hg) shallow inside
  obtain ⟨final, hclosing, hfinal, htokens⟩ := Scan.run_closing rounds ne inside' hgroups
  refine ⟨_, Scan.tokenize_eq_ok.mpr ⟨final, ?_, hfinal, rfl⟩, ?_⟩
  · rw [String.toList_append, String.toList_append]
    exact hopening.trans (hinner.trans hclosing)
  · rw [List.map_reverse, htokens, inside'.tokens, List.map_reverse]
    simp

end OperatorGrammar
