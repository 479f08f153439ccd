import OperatorGrammar.Proofs.Scan.Cut
import OperatorGrammar.Proofs.Scan.Pieces

/-! # Separators between tokens carry no meaning

`Respaced` relates two texts that have the same pieces at the places of some tokens and any
separators between them, but for one thing: where one text has separators the other has some too.
If one of them is scanned to its end in a bundled grammar, so is the other, and the texts and roles
of the tokens are the same (`tokenize_respaced`).

Two runs are kept in step.  The places of the tokens say where the steps of the first run end, so
that the other text goes on behind every piece with the same pieces up to some separator
(`Scan.Aligned`, `Aligned.exists_cut`).  Up to there a step looks at most. -/

namespace OperatorGrammar

variable {g : Grammar} {gap gap' piece rest rest' text text' : List Char} {tokens : List Token}

/-- Two texts with the same pieces at the places of some tokens, of which the first one begins at a
place.  The separators between them differ, but where the first text has some the second one has
some too. -/
inductive Respaced : Nat → List Token → List Char → List Char → Prop
  | nil {place : Nat} {gap gap' : List Char} (blank : ∀ c ∈ gap, isSeparator c = true)
      (blank' : ∀ c ∈ gap', isSeparator c = true) (some : gap ≠ [] → gap' ≠ []) :
      Respaced place [] gap gap'
  | cons {place : Nat} {token : Token} {tokens : List Token}
      {gap gap' piece rest rest' : List Char} (blank : ∀ c ∈ gap, isSeparator c = true)
      (blank' : ∀ c ∈ gap', isSeparator c = true) (some : gap ≠ [] → gap' ≠ [])
      (begins : token.position = place + byteLength gap)
      (size : byteLength piece = symbolLength token.text) :
      Respaced (token.position + byteLength piece) tokens rest rest' →
        Respaced place (token :: tokens) (gap ++ (piece ++ rest)) (gap' ++ (piece ++ rest'))

/-! ### A text with its own separators -/

theorem Respaced.append_separator {place : Nat} {c : Char} (h : Respaced place tokens text text')
    (hc : isSeparator c = true) : Respaced place tokens (text ++ [c]) (text' ++ [c]) := by
  induction h with
  | nil blank blank' some =>
      refine Respaced.nil ?_ ?_ (by simp)
      · exact List.forall_mem_append.mpr ⟨blank, by simpa using hc⟩
      · exact List.forall_mem_append.mpr ⟨blank', by simpa using hc⟩
  | cons blank blank' some begins size _ ih =>
      rw [List.append_assoc, List.append_assoc, List.append_assoc, List.append_assoc]
      exact Respaced.cons blank blank' some begins size ih

theorem Respaced.append_token {place : Nat} {token : Token}
    (h : Respaced place tokens text text') (begins : token.position = place + byteLength text)
    (size : byteLength piece = symbolLength token.text) :
    Respaced place (tokens ++ [token]) (text ++ piece) (text' ++ piece) := by
  induction h with
  | nil blank blank' some =>
      have ends : Respaced (token.position + byteLength piece) [] [] [] :=
        Respaced.nil (by simp) (by simp) (by simp)
      have := Respaced.cons blank blank' some begins size ends
      rwa [List.append_nil] at this
  | cons blank blank' some begins' size' _ ih =>
      rw [byteLength_append, byteLength_append] at begins
      rw [List.append_assoc, List.append_assoc, List.append_assoc, List.append_assoc]
      exact Respaced.cons blank blank' some begins' size' (ih (by omega))

/-- What tokens and separators cover are the pieces of the tokens and the separators between
them. -/
theorem Covers.respaced (h : Covers g tokens text) : Respaced 0 tokens text text := by
  induction h with
  | nil => exact Respaced.nil (by simp) (by simp) (by simp)
  | separator _ blank ih => exact ih.append_separator blank
  | token _ place size _ ih => exact ih.append_token (by omega) size

/-- Every text that has tokens consists of their pieces and separators between them. -/
theorem respaced_self (ne : g.NoEmptySymbol) {input : String} (h : tokenize g input = .ok tokens) :
    Respaced 0 (writtenTokens tokens) input.toList input.toList := by
  obtain ⟨s, visits, -, rfl⟩ := Scan.exists_visits_of_tokenize h
  obtain ⟨done, hinput, accounted⟩ := visits.accounted ne
  rw [List.append_nil] at hinput
  exact hinput ▸ accounted.covers.respaced

namespace Scan

variable {s s' next last : Scan} {count : Nat}

/-- The steps in which a text is scanned, and another text with the same pieces and other
separators. -/
inductive Aligned (g : Grammar) : Scan → List Char → List Char → Prop
  | done {s : Scan} {gap' : List Char} (blank' : ∀ c ∈ gap', isSeparator c = true) :
      Aligned g s [] gap'
  | gap {s : Scan} {gap rest gap' rest' : List Char} (step : Step g s (gap ++ rest) s gap.length)
      (ne : gap ≠ []) (blank : ∀ c ∈ gap, isSeparator c = true)
      (blank' : ∀ c ∈ gap', isSeparator c = true) (ne' : gap' ≠ []) :
      Aligned g (s.advance gap) rest rest' → Aligned g s (gap ++ rest) (gap' ++ rest')
  | token {s next : Scan} {piece rest gap' rest' : List Char}
      (step : Step g s (piece ++ rest) next piece.length) (written : next.inOrder ≠ s.inOrder)
      (ne : piece ≠ []) (visible : ∀ c ∈ piece.head?, isBlank c = false)
      (blank' : ∀ c ∈ gap', isSeparator c = true) :
      Aligned g (next.advance piece) rest rest' →
        Aligned g s (piece ++ rest) (gap' ++ (piece ++ rest'))

/-! ### The second text is scanned in the same steps -/

theorem skipBlanks_append (blank : ∀ c ∈ gap, isSeparator c = true) (text : List Char) :
    skipBlanks (gap ++ text) = skipBlanks text :=
  List.dropWhile_append_of_pos fun c hc => isBlank_of_isSeparator (blank c hc)

theorem Aligned.head?_eq (h : Aligned g s text text') :
    (skipBlanks text').head? = (skipBlanks text).head? := by
  induction h with
  | @done s gap' blank' =>
      have := skipBlanks_append blank' []
      rw [List.append_nil] at this
      rw [this]
  | gap _ _ blank blank' _ _ ih => rw [skipBlanks_append blank', skipBlanks_append blank, ih]
  | @token s next piece rest gap' rest' _ _ ne visible blank' _ _ =>
      obtain ⟨c, cs, rfl⟩ := List.exists_cons_of_ne_nil ne
      have hc : ¬ isBlank c = true := by simp [visible c rfl]
      rw [skipBlanks_append blank', List.cons_append, List.cons_append]
      unfold skipBlanks
      rw [List.dropWhile_cons_of_neg hc, List.dropWhile_cons_of_neg hc, List.head?_cons,
        List.head?_cons]

/-- The texts are the same up to a place where the second one ends or has a separator. -/
theorem Aligned.exists_cut (h : Aligned g s text text') :
    ∃ front tail tail', text = front ++ tail ∧ text' = front ++ tail' ∧
      (∀ c ∈ tail'.head?, isSeparator c = true) ∧
      (skipBlanks tail').head? = (skipBlanks tail).head? := by
  -- Separators in the second text are such a place.
  have here {s : Scan} {text gap' rest' : List Char} (h : Aligned g s text (gap' ++ rest'))
      (blank' : ∀ c ∈ gap', isSeparator c = true) (ne' : gap' ≠ []) :
      ∃ front tail tail', text = front ++ tail ∧ gap' ++ rest' = front ++ tail' ∧
        (∀ c ∈ tail'.head?, isSeparator c = true) ∧
        (skipBlanks tail').head? = (skipBlanks tail).head? := by
    obtain ⟨c, cs, rfl⟩ := List.exists_cons_of_ne_nil ne'
    refine ⟨[], text, c :: cs ++ rest', rfl, rfl, ?_, h.head?_eq⟩
    rintro _ ⟨⟩
    exact blank' c List.mem_cons_self
  induction h with
  | @done s gap' blank' =>
      refine ⟨[], [], gap', rfl, rfl, ?_, (Aligned.done (g := g) (s := s) blank').head?_eq⟩
      exact fun c hc => blank' c (List.mem_of_head? hc)
  | gap step ne blank blank' ne' h _ =>
      exact here (Aligned.gap step ne blank blank' ne' h) blank' ne'
  | @token s next piece rest gap' rest' step written ne visible blank' h ih =>
      by_cases ne' : gap' = []
      · subst ne'
        obtain ⟨front, tail, tail', rfl, rfl, cut, ahead⟩ := ih
        exact ⟨piece ++ front, tail, tail', by simp, by simp, cut, ahead⟩
      · exact here (Aligned.token step written ne visible blank' h) blank' ne'

/-- **Both texts are scanned in the same steps.** -/
theorem Aligned.run_eq_ok (spaced : g.Spaced) (ne : g.NoEmptySymbol)
    (apart : g.ArgumentOpenerApart) (h : Aligned g s text text')
    (alike : Alike s s') (hrun : run g s text = .ok last) :
    ∃ last', run g s' text' = .ok last' ∧ Alike last last' := by
  induction h generalizing s' with
  | @done s gap' blank' =>
      rw [run, Except.ok.injEq] at hrun
      subst hrun
      have hskip := run_separators apart s' blank' []
      rw [List.append_nil, run] at hskip
      exact ⟨_, hskip, alike.advance [] gap'⟩
  | @gap s gap rest gap' rest' step hne blank blank' ne' _ ih =>
      rw [step.run_eq hne] at hrun
      rw [run_separators apart _ blank']
      exact ih (alike.advance gap gap') hrun
  | @token s next piece rest gap' rest' step written hne visible blank' h ih =>
      obtain ⟨front, tail, tail', rfl, rfl, cut, ahead⟩ := h.exists_cut
      -- The step is the same on the second text, and so it is in the other state.
      have step' : Step g s (piece ++ (front ++ tail')) next piece.length := by
        rw [← List.append_assoc] at step ⊢
        exact step.cut spaced ne cut ahead (by simp) written
      have halike : Alike s (s'.advance gap') := alike.advance [] gap'
      obtain ⟨next', hnext, alike'⟩ := step'.alike halike
      rw [step.run_eq hne] at hrun
      rw [run_separators apart _ blank', hnext.run_eq hne]
      exact ih (alike'.advance piece piece) hrun

end Scan

/-! ### Texts that differ in separators are aligned -/

namespace Scan

theorem eq_of_isPrefix_of_byteLength {front : List Char} (h : piece <+: text) (h' : front <+: text)
    (size : byteLength piece = byteLength front) : piece = front := by
  have ends {piece front : List Char} (h : piece <+: front)
      (size : byteLength piece = byteLength front) : piece = front := by
    obtain ⟨rest, rfl⟩ := h
    rw [byteLength_append] at size
    by_cases hrest : rest = []
    · rw [hrest, List.append_nil]
    · have := byteLength_pos hrest
      omega
  rcases List.prefix_or_prefix_of_prefix h h' with h | h
  · exact ends h size
  · exact (ends h size.symm).symm

theorem mem_of_mem_writtenTokens {t : Token} (h : t ∈ writtenTokens tokens) : t ∈ tokens := by
  induction tokens with
  | nil => exact h
  | cons u rest ih =>
      unfold writtenTokens at h
      split at h
      · exact List.mem_cons_of_mem _ (ih h)
      · rcases List.mem_cons.mp h with rfl | h
        · exact List.mem_cons_self
        · exact List.mem_cons_of_mem _ (ih h)

theorem writtenTokens_append_of_place {made later : List Token} {token : Token} {place : Nat}
    (written : writtenTokens made = [token]) (here : ∀ t ∈ made, t.position = place)
    (behind : ∀ t ∈ later, place < t.position) :
    writtenTokens (made ++ later) = token :: writtenTokens later := by
  rw [writtenTokens_append, written, List.singleton_append]
  intro t ht u hu
  rw [here t ht]
  exact behind u hu

end Scan

theorem Respaced.token {place : Nat} {token : Token}
    (h : Respaced place (token :: tokens) (piece ++ rest) text') (begins : token.position = place)
    (size : byteLength piece = symbolLength token.text) :
    ∃ gap' rest', text' = gap' ++ (piece ++ rest') ∧ (∀ c ∈ gap', isSeparator c = true) ∧
      Respaced (place + byteLength piece) tokens rest rest' := by
  generalize htext : piece ++ rest = text at h
  cases h with
  | @cons _ _ _ gap gap' piece' rest₀ rest₀' blank blank' some begins' size' h =>
      have hgap : [] = gap := by
        refine Scan.eq_of_isPrefix_of_byteLength List.nil_prefix (List.prefix_refl gap) ?_
        rw [byteLength_nil]
        omega
      subst hgap
      have hpiece : piece = piece' := by
        refine Scan.eq_of_isPrefix_of_byteLength (List.prefix_append piece rest) ?_
          (size.trans size'.symm)
        rw [htext]
        exact List.prefix_append piece' rest₀
      subst hpiece
      obtain rfl := List.append_cancel_left htext
      exact ⟨gap', rest₀', rfl, blank', begins ▸ h⟩

theorem Respaced.separators {place : Nat} (h : Respaced place tokens (gap ++ rest) text')
    (blank : ∀ c ∈ gap, isSeparator c = true) (ne : gap ≠ [])
    (ends : ∀ c ∈ rest.head?, isSeparator c = false)
    (later : ∀ t ∈ tokens, place + byteLength gap ≤ t.position) :
    ∃ gap' rest', text' = gap' ++ rest' ∧ (∀ c ∈ gap', isSeparator c = true) ∧ gap' ≠ [] ∧
      Respaced (place + byteLength gap) tokens rest rest' := by
  have nil_of_blank {more : List Char} (hmore : ∀ c ∈ more, isSeparator c = true)
      (h : more <+: rest) : more = [] := by
    obtain ⟨tail, rfl⟩ := h
    cases more with
    | nil => rfl
    | cons c more =>
        have := ends c rfl
        rw [hmore c List.mem_cons_self] at this
        cases this
  generalize htext : gap ++ rest = text at h
  cases h with
  | nil blank₀ blank' some =>
      subst htext
      have hrest := nil_of_blank (fun c hc => blank₀ c (List.mem_append_right gap hc))
        (List.prefix_refl rest)
      subst hrest
      refine ⟨text', [], by simp, blank', some (by simpa using ne), ?_⟩
      exact Respaced.nil (by simp) (by simp) (by simp)
  | @cons _ token tokens gap₀ gap' piece rest₀ rest' blank₀ blank' some begins size h =>
      have hplace := later token List.mem_cons_self
      have hgap : gap = gap₀ := by
        have hold : gap₀ <+: gap ++ rest := htext ▸ List.prefix_append gap₀ _
        rcases List.prefix_or_prefix_of_prefix hold (List.prefix_append gap rest) with hle | hle
        · obtain ⟨more, rfl⟩ := hle
          have hmore := List.prefix_append gap₀ more
          refine Scan.eq_of_isPrefix_of_byteLength (List.prefix_refl _) hmore ?_
          rw [byteLength_append] at hplace ⊢
          omega
        · obtain ⟨more, rfl⟩ := hle
          rw [List.append_assoc] at htext
          have hrest := List.append_cancel_left htext
          have hmore : more = [] := by
            refine nil_of_blank (fun c hc => blank₀ c (List.mem_append_right gap hc)) ?_
            exact hrest ▸ List.prefix_append more _
          rw [hmore, List.append_nil]
      subst hgap
      obtain rfl := List.append_cancel_left htext
      refine ⟨gap', piece ++ rest', rfl, blank', some ne, ?_⟩
      rw [← List.nil_append (piece ++ rest₀), ← List.nil_append (piece ++ rest')]
      exact Respaced.cons (by simp) (by simp) (by simp) (by simpa using begins) size h

namespace Scan

variable {s last : Scan}

/-- Scanning one of the texts aligns them. -/
theorem Pieces.aligned (h : Pieces g last s text tokens)
    (hr : Respaced s.position (writtenTokens tokens) text text') : Aligned g s text text' := by
  induction h generalizing text' with
  | done =>
      cases hr with
      | nil blank blank' => exact Aligned.done blank'
  | gap step ne blank ends behind _ ih =>
      obtain ⟨gap', rest', rfl, blank', ne', hr'⟩ := hr.separators blank ne ends
        fun t ht => behind t (mem_of_mem_writtenTokens ht)
      exact Aligned.gap step ne blank blank' ne' (ih hr')
  | @token s next piece rest made tokens placed step position makes ne visible behind _ ih =>
      obtain ⟨token, hwritten, begins, size⟩ := makes.written
      have later : ∀ t ∈ tokens, s.position < t.position := by
        intro t ht
        have := behind t ht
        have := byteLength_pos ne
        omega
      rw [writtenTokens_append_of_place hwritten makes.here later] at hr
      obtain ⟨gap', rest', rfl, blank', hr'⟩ := hr.token begins size
      rw [← position] at hr'
      exact Aligned.token step makes.inOrder_ne ne visible blank' (ih hr')

end Scan

/-- In a bundled grammar, a text with other separators between its tokens has the same tokens but
for their places. -/
theorem tokenize_respaced (hg : g ∈ Grammar.bundled) {input input' : String}
    (h : tokenize g input = .ok tokens)
    (hr : Respaced 0 (writtenTokens tokens) input.toList input'.toList) :
    ∃ tokens', tokenize g input' = .ok tokens' ∧
      tokens'.map Token.spelling = tokens.map Token.spelling := by
  have ne := Grammar.noEmptySymbol_of_bundled g hg
  have apart := Grammar.argumentOpenerApart_of_bundled g hg
  obtain ⟨last, hrun, hgroups, rfl⟩ := Scan.tokenize_eq_ok.mp h
  have start : ({} : Scan).WellPlaced g := Scanned.nil
  obtain ⟨new, pieces⟩ := Scan.pieces_of_run ne apart start hrun
  obtain rfl : last.tokens.reverse = new := pieces.inOrder_eq
  obtain ⟨last', hrun', alike⟩ := (pieces.aligned hr).run_eq_ok (Grammar.spaced_of_bundled g hg) ne
    apart ⟨rfl, rfl⟩ hrun
  exact alike.tokenize hgroups hrun'

end OperatorGrammar
