import OperatorGrammar.Proofs.Agreement
import OperatorGrammar.Proofs.Guarantees
import OperatorGrammar.Proofs.Scan.Lexeme

/-! # Argument lists that were seen ahead

A name is taken for a function if the opener of argument lists stands behind it and behind blanks.
When scanning comes to that place, it takes the longest delimiter there, which need not be the one
that was seen.  In a grammar whose symbols keep apart from that opener and from blanks
(`Grammar.ArgumentOpenerApart`) it is: behind every function its argument list begins, and no tree
is refused for want of one (`called_of_tokenize`).  In other grammars this may fail
(`not_called_of_longer_opener`). -/

namespace OperatorGrammar

variable {g : Grammar} {c d : Char} {rest text : List Char}

/-! ### Blanks -/

theorem toNat_of_isBlank (h : isBlank c = true) : c.toNat ≤ 32 ∨ 133 ≤ c.toNat := by
  simp only [isBlank, Bool.or_eq_true, Bool.and_eq_true, decide_eq_true_eq, beq_iff_eq] at h
  rcases h with ((((((((((h | h) | h) | h) | h) | h) | h) | h) | h) | h) | h)
  · have : c.toNat ≤ '\r'.toNat := h.2
    exact Or.inl (Nat.le_trans this (by decide))
  · exact Or.inl (h ▸ by decide)
  · exact Or.inr (h ▸ by decide)
  · exact Or.inr (h ▸ by decide)
  · exact Or.inr (h ▸ by decide)
  · have : '\u2000'.toNat ≤ c.toNat := h.1
    exact Or.inr (Nat.le_trans (by decide) this)
  all_goals exact Or.inr (h ▸ by decide)

theorem isBlank_of_isSeparator (h : isSeparator c = true) : isBlank c = true := by
  simp only [isSeparator, Bool.or_eq_true, beq_iff_eq] at h
  rcases h with (((h | h) | h) | h) | h <;> subst h <;> decide

theorem isBlank_of_sameChar {cs : Bool} (hc : isBlank c = true) (h : sameChar cs c d = true) :
    isBlank d = true := by
  have hrange := toNat_of_isBlank hc
  unfold sameChar at h
  cases cs with
  | true =>
      have h : c = d := by simpa using h
      rwa [← h]
  | false =>
      have h : c.toLower = d.toLower := by simpa using h
      have hlower : c.toLower = c := (toLower_eq_or c).resolve_right (by omega)
      rcases toLower_eq_or d with hd | ⟨ha, hz, hd⟩
      · rwa [← hd, ← h, hlower]
      · rw [← h, hlower] at hd
        omega

theorem isDigit_eq_false (h : isBlank c = true) : isDigit c = false := by
  have hrange := toNat_of_isBlank h
  rw [Bool.eq_false_iff]
  intro hd
  have hdigit := toNat_of_isDigit hd
  omega

theorem isNameStart_eq_false (h : isBlank c = true) : isNameStart c = false := by
  have hrange := toNat_of_isBlank h
  rw [Bool.eq_false_iff]
  intro hn
  simp only [isNameStart, Bool.or_eq_true, beq_iff_eq] at hn
  rcases hn with hn | rfl
  · have hletter := toNat_of_isAlpha hn
    omega
  · revert hrange
    decide

theorem dropWhile_dropWhile {α : Type} {p q : α → Bool} (h : ∀ a, q a = true → p a = true)
    (xs : List α) : (xs.dropWhile q).dropWhile p = xs.dropWhile p := by
  induction xs with
  | nil => rfl
  | cons x xs ih =>
      by_cases hx : q x = true
      · rw [List.dropWhile_cons_of_pos hx, List.dropWhile_cons_of_pos (h x hx), ih]
      · rw [List.dropWhile_cons_of_neg hx]

namespace Lexeme

theorem parts_of_isBlank (hb : isBlank c = true) (rest : List Char) :
    numberPart (c :: rest) = [] ∧ namePart (c :: rest) = [] := by
  have hpoint : c ≠ '.' := by
    rintro rfl
    cases hb
  refine ⟨numberPart_eq_nil (isDigit_eq_false hb) hpoint rest, ?_⟩
  simp [namePart, isNameStart_eq_false hb]

theorem read?_of_isBlank {kind : Lexeme} {piece : List Char} (hb : isBlank c = true)
    (h : read? (c :: rest) = some (kind, piece)) :
    kind = .separator ∧ piece = (c :: rest).takeWhile isSeparator := by
  obtain ⟨hnumber, hname⟩ := parts_of_isBlank hb rest
  simp only [read?, hnumber, hname, ne_eq, not_true_eq_false, if_false] at h
  split at h
  · cases h
    exact ⟨rfl, rfl⟩
  · cases h

theorem read?_of_isSeparator (hc : isSeparator c = true) (rest : List Char) :
    read? (c :: rest) = some (.separator, (c :: rest).takeWhile isSeparator) := by
  obtain ⟨hnumber, hname⟩ := parts_of_isBlank (isBlank_of_isSeparator hc) rest
  simp [read?, hnumber, hname, hc]

theorem skipBlanks_drop (text : List Char) :
    skipBlanks (text.drop (text.takeWhile isSeparator).length) = skipBlanks text := by
  have hdrop : text.drop (text.takeWhile isSeparator).length = text.dropWhile isSeparator := by
    have hsplit := List.takeWhile_append_dropWhile (p := isSeparator) (l := text)
    calc text.drop (text.takeWhile isSeparator).length
        = (text.takeWhile isSeparator ++ text.dropWhile isSeparator).drop
            (text.takeWhile isSeparator).length := by rw [hsplit]
      _ = text.dropWhile isSeparator := List.drop_left
  rw [hdrop]
  exact dropWhile_dropWhile (fun _ => isBlank_of_isSeparator) text

end Lexeme

/-! ### Symbols that keep apart from the argument opener -/

/-- Whether a symbol is not empty and does not begin with a blank. -/
def beginsVisibly (symbol : String) : Bool := symbol.toList.head?.any fun c => !isBlank c

/-- No symbol begins with a blank, and no delimiter begins with the opener of argument lists but
this opener itself and the closers of pairs of equal delimiters, which close no group behind a
function. -/
structure Grammar.ArgumentOpenerApart (g : Grammar) : Prop where
  delimiter : ∀ pair ∈ g.parentheticals,
    beginsVisibly pair.opener = true ∧ beginsVisibly pair.closer = true
  operator : ∀ symbol ∈ g.operatorSymbols, beginsVisibly symbol = true
  opener : ∀ pair ∈ g.parentheticals,
    g.startsWith pair.opener.toList g.argumentOpener = true → pair.opener = g.argumentOpener
  closer : ∀ pair ∈ g.parentheticals,
    g.startsWith pair.closer.toList g.argumentOpener = true → pair.opener = pair.closer

instance (g : Grammar) : Decidable g.ArgumentOpenerApart :=
  decidable_of_iff
    ((∀ pair ∈ g.parentheticals,
        beginsVisibly pair.opener = true ∧ beginsVisibly pair.closer = true) ∧
      (∀ symbol ∈ g.operatorSymbols, beginsVisibly symbol = true) ∧
      (∀ pair ∈ g.parentheticals,
        g.startsWith pair.opener.toList g.argumentOpener = true →
          pair.opener = g.argumentOpener) ∧
      ∀ pair ∈ g.parentheticals,
        g.startsWith pair.closer.toList g.argumentOpener = true → pair.opener = pair.closer)
    ⟨fun ⟨hd, ho, hopener, hcloser⟩ => ⟨hd, ho, hopener, hcloser⟩,
      fun ⟨hd, ho, hopener, hcloser⟩ => ⟨hd, ho, hopener, hcloser⟩⟩

theorem startsWith_nil_of_beginsVisibly {symbol : String} (hs : beginsVisibly symbol = true) :
    g.startsWith [] symbol = false := by
  unfold beginsVisibly at hs
  unfold Grammar.startsWith
  cases hl : symbol.toList with
  | nil =>
      rw [hl] at hs
      cases hs
  | cons d ds => rfl

theorem startsWith_eq_false_of_isBlank {symbol : String} (hb : isBlank c = true)
    (hs : beginsVisibly symbol = true) : g.startsWith (c :: rest) symbol = false := by
  unfold beginsVisibly at hs
  unfold Grammar.startsWith
  cases hl : symbol.toList with
  | nil =>
      rw [hl] at hs
      cases hs
  | cons d ds =>
      have hd : isBlank d = false := by simpa [hl] using hs
      rw [beginsWith, Bool.and_eq_false_imp]
      intro hsame
      rw [isBlank_of_sameChar hb hsame] at hd
      cases hd

namespace Scan

variable {s s' base : Scan} {count : Nat}

theorem Step.of_isBlank (apart : g.ArgumentOpenerApart)
    (step : Step g s (c :: rest) s' count) (hb : isBlank c = true) :
    s' = s ∧ 0 < count ∧ skipBlanks ((c :: rest).drop count) = skipBlanks (c :: rest) := by
  have notOperator {symbol : String} : ¬ OperatorNext g s (c :: rest) symbol := by
    intro next
    obtain ⟨hmem, hbegins⟩ := Grammar.operatorAt?_eq_some next.found
    rw [startsWith_eq_false_of_isBlank hb (apart.operator _ hmem)] at hbegins
    cases hbegins
  cases step with
  | opens found =>
      obtain ⟨known, hbegins, -⟩ := Grammar.openerAt?_eq_some (delimiterAt?_eq_opens found).1
      rw [startsWith_eq_false_of_isBlank hb (apart.delimiter _ known).1] at hbegins
      cases hbegins
  | closes found =>
      obtain ⟨known, hbegins, -⟩ := closerAt?_eq_some (delimiterAt?_eq_closes found).1
      rw [startsWith_eq_false_of_isBlank hb (apart.delimiter _ known).2] at hbegins
      cases hbegins
  | preUnary next | between next | postUnary next => exact absurd next notOperator
  | number next | name next => cases (Lexeme.read?_of_isBlank hb next.found).1
  | separator next =>
      obtain ⟨-, rfl⟩ := Lexeme.read?_of_isBlank hb next.found
      have hpos := List.length_pos_iff.mpr (Lexeme.read?_eq_some next.found).2
      exact ⟨rfl, hpos, Lexeme.skipBlanks_drop _⟩

/-- Where the opener of argument lists comes next and an operand is expected, it is read. -/
theorem delimiterAt?_of_argumentOpener (apart : g.ArgumentOpenerApart)
    (known : g.IsOpener g.argumentOpener) (he : s.expectsOperand = true)
    (hbegins : g.startsWith text g.argumentOpener = true) :
    ∃ pair, s.delimiterAt? g text = some (.opens pair) ∧ pair.opener = g.argumentOpener := by
  obtain ⟨argument, hmem, hopener⟩ := known
  have longest {other : Parenthetical} (ho : g.openerAt? text = some other) :
      symbolLength g.argumentOpener ≤ symbolLength other.opener := by
    obtain ⟨-, -, hmax⟩ := Grammar.openerAt?_eq_some ho
    have := hmax argument hmem (by rwa [hopener])
    rwa [hopener] at this
  have hopens : g.openerAt? text ≠ none := by
    intro hnone
    have := Grammar.openerAt?_eq_none.mp hnone argument hmem
    rw [hopener, hbegins] at this
    cases this
  cases hd : s.delimiterAt? g text with
  | none => exact absurd (delimiterAt?_eq_none hd) hopens
  | some delimiter =>
      cases delimiter with
      | opens pair =>
          obtain ⟨ho, -⟩ := delimiterAt?_eq_opens hd
          obtain ⟨hpair, hb, -⟩ := Grammar.openerAt?_eq_some ho
          exact ⟨pair, rfl,
            apart.opener pair hpair (beginsWith_of_byteLength_le hb hbegins (longest ho))⟩
      | closes pair =>
          -- Only a pair of equal delimiters has such a closer, and it does not close here.
          obtain ⟨hc, hlength⟩ := delimiterAt?_eq_closes hd
          obtain ⟨hpair, hb, hne⟩ := closerAt?_eq_some hc
          obtain ⟨other, ho⟩ := Option.ne_none_iff_exists'.mp hopens
          have hle := Nat.le_trans (longest ho) (hlength other ho)
          exact absurd (apart.closer _ hpair (beginsWith_of_byteLength_le hb hbegins hle)) (hne he)

/-! ### Behind a function its argument list begins -/

/-- Behind every function its argument list begins, or it is the last token and the argument list
begins in the text that is left. -/
inductive Announced (g : Grammar) (s : Scan) (text : List Char) : Prop
  | settled (called : Called g s.inOrder)
  | waiting {earlier : List Token} {function : Token} (last : s.inOrder = earlier ++ [function])
      (kind : function.kind = .function) (called : Called g earlier)
      (ahead : g.startsWith (skipBlanks text) g.argumentOpener = true)

theorem called_push (h : Called g s.inOrder) {word : String} {kind : TokenKind}
    (hk : kind ≠ .function) : Called g (s.push word kind).inOrder := by
  rw [inOrder_push]
  exact h.concat hk

theorem Room.called (room : Room g s base) (h : Called g s.inOrder) : Called g base.inOrder := by
  cases room with
  | here => exact h
  | @behind symbol => exact called_push h (g.infixKind_ne_function symbol)

/-- What was seen ahead is read, and what is read as a function was seen ahead. -/
theorem Step.announced (apart : g.ArgumentOpenerApart) (known : g.IsOpener g.argumentOpener)
    (hs : s.WellPlaced g) (step : Step g s (c :: rest) s' count)
    (h : Announced g s (c :: rest)) : Announced g s' (rest.drop (count - 1)) := by
  cases h with
  | settled called =>
      cases step with
      | opens _ room => exact Announced.settled (called_push (room.called called) (by simp))
      | closes => exact Announced.settled (called_push called (by simp))
      | preUnary _ _ room => exact Announced.settled (called_push (room.called called) (by simp))
      | @between symbol =>
          exact Announced.settled (called_push called (g.infixKind_ne_function symbol))
      | postUnary => exact Announced.settled (called_push called (by simp))
      | separator => exact Announced.settled called
      | number _ room => exact Announced.settled (called_push (room.called called) (by simp))
      | @name piece base next room =>
          have hcount := List.length_pos_iff.mpr (Lexeme.read?_eq_some next.found).2
          rcases nameKind_eq g (g.canonical (String.ofList piece))
            ((c :: rest).drop piece.length) with hk | hk
          · exact Announced.settled (called_push (room.called called) (by simp [hk]))
          · refine Announced.waiting (inOrder_push _ _ _) hk (room.called called) ?_
            have := (nameKind_eq_function.mp hk).2
            rwa [List.drop_cons hcount] at this
  | @waiting earlier function last kind called ahead =>
      have he : s.expectsOperand = true := by
        rw [expectsOperand_eq, last, endsOperand_concat, kind]
        rfl
      by_cases hb : isBlank c = true
      · obtain ⟨rfl, hcount, hskip⟩ := step.of_isBlank apart hb
        refine Announced.waiting last kind called ?_
        rwa [← List.drop_cons hcount, hskip]
      · have hskip : skipBlanks (c :: rest) = c :: rest := List.dropWhile_cons_of_neg hb
        rw [hskip] at ahead
        obtain ⟨pair, hd, hpair⟩ := delimiterAt?_of_argumentOpener apart known he ahead
        cases step with
        | opens found room =>
            rw [hd] at found
            cases found
            cases room with
            | here =>
                refine Announced.settled ?_
                show Called g (Scan.push _ _ _).inOrder
                rw [inOrder_push]
                show Called g (s.inOrder ++ [_])
                rw [last, List.append_assoc]
                exact called.concat_call ⟨rfl, hpair⟩
            | behind place =>
                rw [he] at place
                cases place
        | closes found =>
            rw [hd] at found
            cases found
        | preUnary next | between next | postUnary next | separator next | number next
        | name next =>
            have := next.plain
            rw [hd] at this
            cases this

theorem called_of_apart (apart : g.ArgumentOpenerApart) (known : g.IsOpener g.argumentOpener)
    {input : String} {tokens : List Token} (h : tokenize g input = .ok tokens) :
    Called g tokens := by
  obtain ⟨s, hrun, -, rfl⟩ := tokenize_eq_ok.mp h
  have start : ({} : Scan).WellPlaced g ∧ Announced g {} input.toList :=
    ⟨Scanned.nil, Announced.settled called_nil⟩
  have hs := run_induction (P := fun s text => s.WellPlaced g ∧ Announced g s text)
    (fun s c rest s' count hp step => ⟨step.wellPlaced hp.1, ?_⟩) start hrun
  · cases hs.2 with
    | settled called => exact called
    | waiting _ _ _ ahead =>
        -- Nothing is left that an opener could begin.
        obtain ⟨argument, hmem, hopener⟩ := known
        have hvisible := (apart.delimiter argument hmem).1
        rw [hopener] at hvisible
        have hnil := startsWith_nil_of_beginsVisibly (g := g) hvisible
        rw [show skipBlanks [] = [] from rfl, hnil] at ahead
        cases ahead
  · cases step.announced apart known hp.1 hp.2 with
    | settled called => exact Announced.settled called
    | waiting last kind called ahead => exact Announced.waiting last kind called ahead

end Scan

/-- **Argument lists follow.**  In a grammar whose symbols keep apart from the opener of argument
lists, this opener stands behind every function of a text, and no tree is refused because of a
token that cannot be read. -/
theorem called_of_tokenize {d : Declaration} (hd : d.build = .ok g)
    (apart : g.ArgumentOpenerApart) {input : String} {tokens : List Token}
    (h : tokenize g input = .ok tokens) :
    Called g tokens ∧
      ∀ text position, TokenTree.ofTokens g tokens ≠ .error (.unrecognized text position) := by
  have called := Scan.called_of_apart apart (Grammar.isOpener_argumentOpener hd) h
  refine ⟨called, fun text position he => ?_⟩
  generalize hu : ParseError.unrecognized text position = e at he
  cases (Scan.scanned_of_tokenize h).ofTokens.2 e he with
  | limit he | gap he =>
      rw [← hu] at he
      cases he
  | uncalled uncalled => exact uncalled called

/-- Blanks may stand before the argument list, and bars are no opener. -/
theorem called_of_tokenize_sample :
    Declaration.real.build = .ok Grammar.real ∧ Grammar.real.ArgumentOpenerApart ∧
      ∃ tokens, tokenize Grammar.real "sin \t(x) cos|x|" = .ok tokens ∧
        Called Grammar.real tokens ∧ ∀ text position,
          TokenTree.ofTokens Grammar.real tokens ≠ .error (.unrecognized text position) := by
  have hd : Declaration.real.build = .ok Grammar.real :=
    Declaration.build_eq_ok.mpr ⟨by decide +kernel, rfl⟩
  have apart : Grammar.real.ArgumentOpenerApart := by decide +kernel
  have ht : tokenize Grammar.real "sin \t(x) cos|x|" =
      .ok [⟨"sin", .function, 0⟩, ⟨"(", .opening, 5⟩, ⟨"x", .identifier, 6⟩, ⟨")", .closing, 7⟩,
        ⟨"*", .multary, 9⟩, ⟨"cos", .identifier, 9⟩, ⟨"*", .multary, 12⟩, ⟨"|", .opening, 12⟩,
        ⟨"x", .identifier, 13⟩, ⟨"|", .closing, 14⟩] := by decide +kernel
  exact ⟨hd, apart, _, ht, called_of_tokenize hd apart ht⟩

/-- A longer opener that begins with that of argument lists is read in its place, and the function
before it is left without arguments. -/
theorem not_called_of_longer_opener :
    ∃ g tokens, (Declaration.test.add (.parenthetical "((" "))")).build = .ok g ∧
      tokenize g "sin((x))" = .ok tokens ∧ ¬ Called g tokens ∧
      TokenTree.ofTokens g tokens = .error (.unrecognized "sin" 0) := by
  have hd : (Declaration.test.add (.parenthetical "((" "))")).build =
      .ok (Declaration.test.add (.parenthetical "((" "))")).assemble :=
    Declaration.build_eq_ok.mpr ⟨by decide +kernel, rfl⟩
  refine ⟨_, [⟨"sin", .function, 0⟩, ⟨"((", .opening, 3⟩, ⟨"x", .identifier, 5⟩,
    ⟨"))", .closing, 6⟩], hd, by decide +kernel, fun called => ?_, by decide +kernel⟩
  obtain ⟨opener, rest, hafter, -, ht⟩ := called [] _ _ rfl rfl
  obtain ⟨rfl, -⟩ := List.cons.inj hafter
  revert ht
  decide +kernel

end OperatorGrammar
