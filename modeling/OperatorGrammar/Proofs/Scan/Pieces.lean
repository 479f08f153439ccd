import OperatorGrammar.Proofs.Scan.Shape
import OperatorGrammar.Proofs.Scan.Source

/-! # A text that is scanned, piece by piece

A run of scanning reads its text in pieces: separators, and pieces of which a step makes one token
that is written and perhaps the implicit operator in front of it (`Scan.Makes`).  `Pieces` lists
them in their order with the tokens that are to come, so that what is said of a whole run is shown
by induction on its pieces (`pieces_of_run`). -/

namespace OperatorGrammar

variable {g : Grammar} {piece rest text : List Char} {tokens : List Token}

theorem byteLength_pos (ne : piece ≠ []) : 0 < byteLength piece := by
  obtain ⟨c, cs, rfl⟩ := List.exists_cons_of_ne_nil ne
  have := c.utf8Size_pos
  rw [byteLength_cons]
  omega

namespace Scan

variable {s next last : Scan} {count : Nat}

/-! ### Steps and their tokens -/

/-- The tokens that a step makes of a piece: one that is written, perhaps behind the implicit
operator. -/
structure Makes (s next : Scan) (piece : List Char) (made : List Token) : Prop where
  inOrder : next.inOrder = s.inOrder ++ made
  here : ∀ t ∈ made, t.position = s.position
  few : made.length ≤ 2
  written : ∃ token, writtenTokens made = [token] ∧ token.position = s.position ∧
    byteLength piece = symbolLength token.text

theorem Makes.inOrder_ne {made : List Token} (h : Makes s next piece made) :
    next.inOrder ≠ s.inOrder := by
  intro hsame
  obtain ⟨_, hwritten, -⟩ := h.written
  have hmade := h.inOrder
  rw [hsame, List.self_eq_append_right] at hmade
  rw [hmade] at hwritten
  cases hwritten

/-- A step makes no token of separators, and tokens of everything else. -/
theorem Emits.makes (h : Emits g s next piece) :
    (next.inOrder = s.inOrder ∧ ∀ c ∈ piece, isSeparator c = true) ∨
      ∃ made, Makes s next piece made := by
  cases h with
  | nothing tokens blank => exact Or.inl ⟨tokens, blank⟩
  | @token t tokens place same =>
      exact Or.inr ⟨[t], tokens, by simpa using place, by simp, t, rfl, place, same.byteLength_eq⟩
  | @behind t u tokens _ _ unwritten place same =>
      refine Or.inr ⟨[t, u], tokens, ?_, by simp, u, ?_, place, same.byteLength_eq⟩
      · simp [unwritten, place]
      · simp [writtenTokens, unwritten, place]

theorem Step.length_take (step : Step g s text next count) : (text.take count).length = count := by
  have symbolic {symbol : String} (h : g.startsWith text symbol = true) :
      (text.take symbol.toList.length).length = symbol.toList.length :=
    (Grammar.sameText_take h).length_eq
  have lexical {kind : Lexeme} {piece : List Char} (next : LexemeNext g s text kind piece) :
      (text.take piece.length).length = piece.length := by
    rw [next.take_eq.1]
  cases step with
  | opens found => exact symbolic (Grammar.openerAt?_eq_some (delimiterAt?_eq_opens found).1).2.1
  | closes found =>
      obtain ⟨-, hbegins, -⟩ := closerAt?_eq_some (delimiterAt?_eq_closes found).1
      exact symbolic hbegins
  | preUnary next | between next | postUnary next =>
      exact symbolic (Grammar.operatorAt?_eq_some next.found).2
  | separator next | number next | name next => exact lexical next

/-- A text that is scanned to its end begins with a piece that a step reads. -/
theorem exists_step_of_run (ne : g.NoEmptySymbol)
    (h : run g s text = .ok last) (hne : text ≠ []) :
    ∃ piece rest next, text = piece ++ rest ∧ piece ≠ [] ∧
      Step g s (piece ++ rest) next piece.length ∧ next.position = s.position ∧
      Emits g s next piece ∧ run g (next.advance piece) rest = .ok last := by
  obtain ⟨c, cs, rfl⟩ := List.exists_cons_of_ne_nil hne
  rw [run_cons] at h
  obtain ⟨⟨next, count⟩, hstep, hrun⟩ := bind_eq_ok.mp h
  have step := step_eq_ok.mp hstep
  obtain ⟨pos, position, emits⟩ := step.emits ne
  have hlength := step.length_take
  refine ⟨(c :: cs).take count, (c :: cs).drop count, next, ?_, ?_, ?_, position, emits, ?_⟩
  · rw [List.take_append_drop]
  · rw [List.take_cons pos]
    exact List.cons_ne_nil _ _
  · rwa [List.take_append_drop, hlength]
  · rwa [List.take_cons pos, List.drop_cons pos]

theorem Step.separators {c : Char} {cs : List Char} (apart : g.ArgumentOpenerApart)
    (hc : isSeparator c = true)
    (blank : ∀ d ∈ c :: cs, isSeparator d = true)
    (step : Step g s (c :: cs ++ rest) next (c :: cs).length) :
    next = s ∧ ∀ d ∈ rest.head?, isSeparator d = false := by
  have hall := step_separators apart s hc (cs ++ rest)
  have hsame := step.step_eq_ok.symm.trans hall.step_eq_ok
  rw [Except.ok.injEq, Prod.mk.injEq] at hsame
  refine ⟨hsame.1, fun d hd => ?_⟩
  -- Another separator would have been read with these.
  have hlength := hsame.2
  rw [← List.cons_append, List.takeWhile_append_of_pos blank, List.length_append] at hlength
  have hrest : rest.takeWhile isSeparator = [] := List.length_eq_zero_iff.mp (by omega)
  cases rest with
  | nil => cases hd
  | cons e rest =>
      cases hd
      by_contra hsep
      rw [Bool.not_eq_false] at hsep
      rw [List.takeWhile_cons_of_pos hsep] at hrest
      cases hrest

theorem run_places (ne : g.NoEmptySymbol) (h : run g s text = .ok last) :
    ∃ new, last.inOrder = s.inOrder ++ new ∧ ∀ t ∈ new, s.position ≤ t.position := by
  have start : s.position ≤ s.position ∧
      ∃ new, s.inOrder = s.inOrder ++ new ∧ ∀ t ∈ new, s.position ≤ t.position :=
    ⟨le_rfl, [], by simp, by simp⟩
  have hlast := run_induction (P := fun last _ => s.position ≤ last.position ∧
    ∃ new, last.inOrder = s.inOrder ++ new ∧ ∀ t ∈ new, s.position ≤ t.position) ?_ start h
  · exact hlast.2
  · rintro last c rest next count ⟨hplace, new, htokens, hnew⟩ step
    obtain ⟨-, position, emits⟩ := step.emits ne
    obtain ⟨later, hlater, hplaces, -⟩ := emits.exists_new
    refine ⟨?_, new ++ later, ?_, ?_⟩
    · show s.position ≤ next.position + _
      omega
    · show next.inOrder = _
      rw [hlater, htokens, List.append_assoc]
    · refine List.forall_mem_append.mpr ⟨hnew, fun t ht => ?_⟩
      rw [hplaces t ht]
      exact hplace

/-- Behind a state that scanning passes through come the tokens of what is left there. -/
theorem Visits.exists_later {input : String} (h : Visits g input s text) (ne : g.NoEmptySymbol)
    (ht : tokenize g input = .ok tokens) :
    ∃ later, tokens = s.inOrder ++ later ∧ ∀ t ∈ later, s.position ≤ t.position := by
  obtain ⟨last, hrun, -, rfl⟩ := tokenize_eq_ok.mp ht
  rw [h.run_eq] at hrun
  exact run_places ne hrun

/-! ### Runs and their pieces -/

/-- How a text is scanned from a state to the last one, with the tokens to come. -/
inductive Pieces (g : Grammar) (last : Scan) : Scan → List Char → List Token → Prop
  | done : Pieces g last last [] []
  | gap {s : Scan} {gap rest : List Char} {tokens : List Token}
      (step : Step g s (gap ++ rest) s gap.length) (ne : gap ≠ [])
      (blank : ∀ c ∈ gap, isSeparator c = true) (ends : ∀ c ∈ rest.head?, isSeparator c = false)
      (behind : ∀ t ∈ tokens, s.position + byteLength gap ≤ t.position) :
      Pieces g last (s.advance gap) rest tokens → Pieces g last s (gap ++ rest) tokens
  | token {s next : Scan} {piece rest : List Char} {made tokens : List Token}
      (placed : s.WellPlaced g) (step : Step g s (piece ++ rest) next piece.length)
      (position : (next.advance piece).position = s.position + byteLength piece)
      (makes : Makes s next piece made) (ne : piece ≠ [])
      (visible : ∀ c ∈ piece.head?, isBlank c = false)
      (behind : ∀ t ∈ tokens, s.position + byteLength piece ≤ t.position) :
      Pieces g last (next.advance piece) rest tokens →
        Pieces g last s (piece ++ rest) (made ++ tokens)

theorem Pieces.inOrder_eq (h : Pieces g last s text tokens) :
    last.inOrder = s.inOrder ++ tokens := by
  induction h with
  | done => rw [List.append_nil]
  | gap _ _ _ _ _ _ ih => exact ih
  | token _ _ _ makes _ _ _ _ ih =>
      rw [ih, ← List.append_assoc, ← makes.inOrder]
      rfl

/-- **A text that is scanned to its end consists of pieces.** -/
theorem pieces_of_run (noEmpty : g.NoEmptySymbol) (apart : g.ArgumentOpenerApart)
    (hs : s.WellPlaced g) (h : run g s text = .ok last) :
    ∃ tokens, Pieces g last s text tokens := by
  induction hn : text.length using Nat.strongRecOn generalizing s text with
  | _ n ih =>
      by_cases hnil : text = []
      · subst hnil
        rw [run, Except.ok.injEq] at h
        subst h
        exact ⟨[], Pieces.done⟩
      · obtain ⟨piece, rest, next, rfl, ne, step, position, emits, hrun⟩ :=
          exists_step_of_run noEmpty h hnil
        have placed : (next.advance piece).WellPlaced g := step.wellPlaced hs
        have hplace : (next.advance piece).position = s.position + byteLength piece := by
          rw [← position]
          rfl
        have hshort : rest.length < n := by
          have := List.length_pos_iff.mpr ne
          rw [← hn, List.length_append]
          omega
        obtain ⟨tokens, hrest⟩ := ih rest.length hshort placed hrun rfl
        have behind : ∀ t ∈ tokens, s.position + byteLength piece ≤ t.position := by
          obtain ⟨later, hlater, hplaces⟩ := run_places noEmpty hrun
          obtain rfl : tokens = later :=
            List.append_cancel_left (hrest.inOrder_eq.symm.trans hlater)
          rwa [hplace] at hplaces
        obtain ⟨c, cs, rfl⟩ := List.exists_cons_of_ne_nil ne
        rcases emits.makes with ⟨-, blank⟩ | ⟨made, makes⟩
        · obtain ⟨rfl, ends⟩ := step.separators apart (blank c List.mem_cons_self) blank
          exact ⟨tokens, Pieces.gap step ne blank ends behind hrest⟩
        · refine ⟨made ++ tokens, Pieces.token hs step hplace makes ne ?_ behind hrest⟩
          rintro _ ⟨⟩
          by_contra hb
          rw [Bool.not_eq_false] at hb
          exact makes.inOrder_ne (congrArg inOrder (step.of_isBlank apart hb).1)

end Scan

end OperatorGrammar
