import OperatorGrammar.Proofs.Scan.Scanned

/-! # The states that scanning passes through

`Scan.Visits g input s text` says that scanning an input comes to a state `s` with `text` left of
it.  What every step keeps holds in all these states by induction, the last one is where a text has
become tokens (`exists_visits_of_tokenize`), and the tokens of each of them are the first ones of
the whole text (`Visits.inOrder_isPrefix`). -/

namespace OperatorGrammar

namespace Scan

variable {g : Grammar} {input : String} {s s' base : Scan} {text : List Char} {count : Nat}
  {tokens : List Token}

/-! ### Scanning only adds tokens -/

theorem Room.inOrder_isPrefix (room : Room g s base) : s.inOrder <+: base.inOrder := by
  cases room with
  | here => exact List.prefix_refl _
  | behind =>
      rw [inOrder_push]
      exact List.prefix_append _ _

/-- Scanning only adds tokens. -/
theorem Step.inOrder_isPrefix (step : Step g s text s' count) : s.inOrder <+: s'.inOrder := by
  have push (s : Scan) (word : String) (kind : TokenKind) :
      s.inOrder <+: (s.push word kind).inOrder := by
    rw [inOrder_push]
    exact List.prefix_append _ _
  cases step with
  | opens _ room => exact room.inOrder_isPrefix.trans (push _ _ _)
  | closes => exact push _ _ _
  | preUnary _ _ room => exact room.inOrder_isPrefix.trans (push _ _ _)
  | between => exact push _ _ _
  | postUnary => exact push _ _ _
  | separator => exact List.prefix_refl _
  | number _ room => exact room.inOrder_isPrefix.trans (push _ _ _)
  | name _ room => exact room.inOrder_isPrefix.trans (push _ _ _)

theorem run_inOrder_isPrefix (h : run g s text = .ok s') : s.inOrder <+: s'.inOrder :=
  run_induction (P := fun t _ => s.inOrder <+: t.inOrder)
    (fun _ _ _ _ _ hp step => hp.trans step.inOrder_isPrefix) (List.prefix_refl _) h

/-! ### Visited states -/

/-- The states that scanning an input passes through, with the text that is left in each. -/
inductive Visits (g : Grammar) (input : String) : Scan → List Char → Prop
  | start : Visits g input {} input.toList
  | step {s s' : Scan} {c : Char} {rest : List Char} {count : Nat} :
      Visits g input s (c :: rest) → Step g s (c :: rest) s' count →
        Visits g input (s'.advance (c :: rest.take (count - 1))) (rest.drop (count - 1))

theorem Visits.step_append {piece rest : List Char} (h : Visits g input s (piece ++ rest))
    (ne : piece ≠ []) (step : Step g s (piece ++ rest) s' piece.length) :
    Visits g input (s'.advance piece) rest := by
  obtain ⟨c, cs, rfl⟩ := List.exists_cons_of_ne_nil ne
  rw [List.cons_append] at h step
  have next := h.step step
  rwa [List.length_cons, Nat.add_sub_cancel, List.take_left, List.drop_left] at next

/-- What is left to scan in a visited state gives what the whole input gives. -/
theorem Visits.run_eq (h : Visits g input s text) : run g {} input.toList = run g s text := by
  induction h with
  | start => rfl
  | step _ step ih =>
      rw [ih, run_cons, step.step_eq_ok]
      rfl

theorem Visits.wellPlaced (h : Visits g input s text) : s.WellPlaced g := by
  induction h with
  | start => exact Scanned.nil
  | step _ step ih => exact step.wellPlaced ih

/-- The state at the end of a text that has become tokens. -/
theorem exists_visits_of_tokenize (h : tokenize g input = .ok tokens) :
    ∃ s, Visits g input s [] ∧ s.groups = [] ∧ tokens = s.inOrder := by
  obtain ⟨s, hrun, hgroups, htokens⟩ := tokenize_eq_ok.mp h
  exact ⟨s, run_induction (fun _ _ _ _ _ hv step => hv.step step) Visits.start hrun, hgroups,
    htokens⟩

theorem Visits.inOrder_isPrefix (h : Visits g input s text) (ht : tokenize g input = .ok tokens) :
    s.inOrder <+: tokens := by
  obtain ⟨last, hrun, -, rfl⟩ := tokenize_eq_ok.mp ht
  rw [h.run_eq] at hrun
  exact run_inOrder_isPrefix hrun

theorem Visits.inOrder_isPrefix_of_step {c : Char} {rest : List Char}
    (h : Visits g input s (c :: rest)) (step : Step g s (c :: rest) s' count)
    (ht : tokenize g input = .ok tokens) : s'.inOrder <+: tokens :=
  (h.step step).inOrder_isPrefix ht

end Scan

end OperatorGrammar
