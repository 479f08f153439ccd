import Mathlib.Data.List.TakeWhile
import OperatorGrammar.Proofs.Scan.Match
import OperatorGrammar.Token.Lexeme

/-! # What is read where neither a delimiter nor an operator begins

A number, a name and separators are each the longest piece of their kind at the front of a text
(`Lexeme.part`), and what is read is one of these pieces and not empty (`Lexeme.read?_eq_some`).
The characters of numbers and names are ASCII. -/

namespace OperatorGrammar

variable {c : Char} {cs piece : List Char}

/-! ### Characters -/

theorem toNat_of_isDigit (h : isDigit c = true) : 48 ≤ c.toNat ∧ c.toNat ≤ 57 := by
  obtain ⟨hlow, hhigh⟩ := Bool.and_eq_true_iff.mp h
  exact ⟨of_decide_eq_true hlow, of_decide_eq_true hhigh⟩

theorem toNat_of_isAlpha (h : c.isAlpha = true) :
    65 ≤ c.toNat ∧ c.toNat ≤ 90 ∨ 97 ≤ c.toNat ∧ c.toNat ≤ 122 := by
  rcases Bool.or_eq_true_iff.mp h with h | h
  · exact Or.inl (of_decide_eq_true h)
  · obtain ⟨hlow, hhigh⟩ := Bool.and_eq_true_iff.mp h
    exact Or.inr ⟨of_decide_eq_true hlow, of_decide_eq_true hhigh⟩

theorem isNameChar_of_isNameStart (h : isNameStart c = true) : isNameChar c = true := by
  simp only [isNameStart, isNameChar, Char.isAlphanum, Bool.or_eq_true] at h ⊢
  exact h.imp_left Or.inl

theorem isNameStart_eq_false_of_isNameChar (h : isNameChar c = false) : isNameStart c = false := by
  rw [Bool.eq_false_iff]
  intro hstart
  rw [isNameChar_of_isNameStart hstart] at h
  cases h

theorem isNameChar_of_isDigit (h : isDigit c = true) : isNameChar c = true := by
  have hdigit : c.isDigit = true := h
  simp [isNameChar, Char.isAlphanum, hdigit]

theorem toNat_of_isNameChar (h : isNameChar c = true) : c.toNat < 128 := by
  simp only [isNameChar, Char.isAlphanum, Bool.or_eq_true, beq_iff_eq] at h
  rcases h with (h | h) | rfl
  · have := toNat_of_isAlpha h
    omega
  · have := toNat_of_isDigit h
    omega
  · decide

namespace Lexeme

/-! ### Pieces at the front of a text -/

theorem append_isPrefix {ps qs : List Char} (h : ps <+: cs) (h' : qs <+: cs.drop ps.length) :
    ps ++ qs <+: cs := by
  obtain ⟨rest, rfl⟩ := h
  rw [List.drop_left] at h'
  exact (List.prefix_append_right_inj ps).mpr h'

theorem exponentPart_isPrefix (cs : List Char) : exponentPart cs <+: cs := by
  have digits (ds : List Char) : ds.takeWhile isDigit <+: ds := List.takeWhile_prefix _
  unfold exponentPart
  split
  · split
    · split
      · split
        · dsimp only
          split
          · exact List.nil_prefix
          · exact (List.prefix_cons_inj _).mpr ((List.prefix_cons_inj _).mpr (digits _))
        · dsimp only
          split
          · exact List.nil_prefix
          · exact (List.prefix_cons_inj _).mpr (digits _)
      · exact List.nil_prefix
    · exact List.nil_prefix
  · exact List.nil_prefix

theorem fractionPart_isPrefix (cs : List Char) : fractionPart cs <+: cs := by
  unfold fractionPart
  split
  · dsimp only
    split
    · exact List.nil_prefix
    · exact (List.prefix_cons_inj _).mpr (List.takeWhile_prefix _)
  · exact List.nil_prefix

theorem numberPart_isPrefix (cs : List Char) : numberPart cs <+: cs := by
  unfold numberPart
  dsimp only
  split
  · exact List.nil_prefix
  · refine append_isPrefix ?_ (exponentPart_isPrefix _)
    exact append_isPrefix (List.takeWhile_prefix _) (fractionPart_isPrefix _)

theorem namePart_isPrefix (cs : List Char) : namePart cs <+: cs := by
  unfold namePart
  split
  · split
    · exact (List.prefix_cons_inj _).mpr (List.takeWhile_prefix _)
    · exact List.nil_prefix
  · exact List.nil_prefix

theorem numberPart_eq_nil (hd : isDigit c = false) (hp : c ≠ '.') (cs : List Char) :
    numberPart (c :: cs) = [] := by
  have hwhole : (c :: cs).takeWhile isDigit = [] := by
    simp [hd]
  have hfraction : fractionPart (c :: cs) = [] := by
    unfold fractionPart
    split
    · next heq => exact absurd (List.cons.inj heq).1 hp
    · rfl
  simp [numberPart, hwhole, hfraction]

/-- The longest piece of a kind at the front of a text; nothing if there is none. -/
def part : Lexeme → List Char → List Char
  | .number => numberPart
  | .name => namePart
  | .separator => List.takeWhile isSeparator

theorem part_isPrefix (kind : Lexeme) (cs : List Char) : kind.part cs <+: cs := by
  cases kind with
  | number => exact numberPart_isPrefix cs
  | name => exact namePart_isPrefix cs
  | separator => exact List.takeWhile_prefix _

/-- What is read is the longest piece of its kind. -/
theorem read?_eq_some {kind : Lexeme} (h : read? cs = some (kind, piece)) :
    piece = kind.part cs ∧ piece ≠ [] := by
  simp only [read?] at h
  split at h
  · next hn =>
    cases h
    exact ⟨rfl, hn⟩
  · split at h
    · next hn =>
      cases h
      exact ⟨rfl, hn⟩
    · split at h
      · next hn =>
        cases h
        exact ⟨rfl, hn⟩
      · cases h

theorem read?_eq_number :
    read? cs = some (.number, piece) ↔ numberPart cs = piece ∧ piece ≠ [] := by
  unfold read?
  dsimp only
  split
  · next hn =>
    simp only [Option.some.injEq, Prod.mk.injEq, true_and]
    exact ⟨fun h => ⟨h, h ▸ hn⟩, fun h => h.1⟩
  · next hn =>
    rw [not_not] at hn
    have hnot : ¬ (numberPart cs = piece ∧ piece ≠ []) := fun h => h.2 (h.1 ▸ hn)
    simp only [hnot, iff_false]
    split
    · simp
    · split <;> simp

theorem read?_eq_name :
    read? cs = some (.name, piece) ↔ numberPart cs = [] ∧ namePart cs = piece ∧ piece ≠ [] := by
  unfold read?
  dsimp only
  split
  · next hn => simp [hn]
  · next hn =>
    rw [not_not] at hn
    split
    · next hname =>
      simp only [Option.some.injEq, Prod.mk.injEq, true_and, hn]
      exact ⟨fun h => ⟨h, h ▸ hname⟩, fun h => h.1⟩
    · next hname =>
      rw [not_not] at hname
      have hnot : ¬ (numberPart cs = [] ∧ namePart cs = piece ∧ piece ≠ []) :=
        fun h => h.2.2 (h.2.1 ▸ hname)
      simp only [hnot, iff_false]
      split <;> simp

theorem isNameChar_of_mem_namePart (h : c ∈ namePart cs) : isNameChar c = true := by
  unfold namePart at h
  split at h
  · split at h
    · next hstart =>
      rcases List.mem_cons.mp h with rfl | h
      · exact isNameChar_of_isNameStart hstart
      · exact List.mem_takeWhile_imp h
    · cases h
  · cases h

end Lexeme

end OperatorGrammar
