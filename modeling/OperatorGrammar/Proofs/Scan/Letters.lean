import OperatorGrammar.Proofs.Scan.ArgumentList

/-! # Letters and their case

Only capital ASCII letters have another lowercase form, which is an ASCII letter too.  So a
character before the letters is matched by itself alone (`eq_of_sameChar`), and the classes of
characters that numbers, names and separators are made of do not tell the case of a letter. -/

namespace OperatorGrammar

variable {c d : Char} {cs : List Char}

/-! ### Characters that are no letters -/

theorem eq_of_toLower_eq (hd : d.toNat < 65) (h : c.toLower = d.toLower) : c = d := by
  have lower : d.toLower = d := (toLower_eq_or d).resolve_right (by omega)
  rcases toLower_eq_or c with hc | ⟨ha, -, hc⟩
  · rw [← hc, h, lower]
  · rw [h, lower] at hc
    omega

theorem eq_of_map_toLower_eq {cs' : List Char} (h : ∀ c ∈ cs, c.toNat < 65)
    (same : cs'.map Char.toLower = cs.map Char.toLower) : cs' = cs := by
  induction cs generalizing cs' with
  | nil => exact List.map_eq_nil_iff.mp same
  | cons c cs ih =>
      obtain ⟨c', rest, rfl, hc, hrest⟩ := List.map_eq_cons_iff.mp same
      obtain ⟨hlow, hlows⟩ := List.forall_mem_cons.mp h
      rw [eq_of_toLower_eq hlow hc, ih hlows hrest]

/-- A character before the letters is matched by itself alone. -/
theorem eq_of_sameChar {caseSensitive : Bool} (hd : d.toNat < 65)
    (h : sameChar caseSensitive c d = true) : c = d := by
  unfold sameChar at h
  cases caseSensitive with
  | true => simpa using h
  | false => exact eq_of_toLower_eq hd (by simpa using h)

theorem sameChar_comm (caseSensitive : Bool) (c d : Char) :
    sameChar caseSensitive c d = sameChar caseSensitive d c := by
  unfold sameChar
  split <;> exact Bool.beq_comm

/-! ### Letters -/

theorem isNameStart_iff :
    isNameStart c = true ↔
      65 ≤ c.toNat ∧ c.toNat ≤ 90 ∨ 97 ≤ c.toNat ∧ c.toNat ≤ 122 ∨ c.toNat = 95 := by
  simp only [isNameStart, Bool.or_eq_true, beq_iff_eq]
  constructor
  · rintro (h | rfl)
    · have := toNat_of_isAlpha h
      omega
    · exact Or.inr (Or.inr rfl)
  · rintro (h | h | h)
    · exact Or.inl (Bool.or_eq_true_iff.mpr (Or.inl (decide_eq_true h)))
    · refine Or.inl (Bool.or_eq_true_iff.mpr (Or.inr (Bool.and_eq_true_iff.mpr ?_)))
      exact ⟨decide_eq_true h.1, decide_eq_true h.2⟩
    · exact Or.inr (Char.toNat_inj.mp h)

theorem isNameStart_toLower (c : Char) : isNameStart c.toLower = isNameStart c := by
  rcases toLower_eq_or c with h | ⟨ha, hz, h⟩
  · rw [h]
  · have hc : isNameStart c = true := isNameStart_iff.mpr (Or.inl ⟨ha, hz⟩)
    rw [hc, isNameStart_iff]
    omega

/-- Characters that match are of one class, if the case of a letter does not matter for it. -/
theorem class_eq_of_sameChar {p : Char → Bool} (hp : ∀ c, p c.toLower = p c)
    {caseSensitive : Bool} (h : sameChar caseSensitive c d = true) : p c = p d := by
  unfold sameChar at h
  cases caseSensitive with
  | true =>
      have h : c = d := by simpa using h
      rw [h]
  | false =>
      have h : c.toLower = d.toLower := by simpa using h
      rw [← hp c, h, hp]

theorem isNameStart_of_sameChar {caseSensitive : Bool} (h : sameChar caseSensitive c d = true) :
    isNameStart c = isNameStart d :=
  class_eq_of_sameChar isNameStart_toLower h

/-! ### Classes of characters -/

theorem toLower_eq_of_notLetter {p : Char → Bool}
    (h : ∀ c, p c = true → c.toNat < 65 ∨ 122 < c.toNat) (c : Char) : p c.toLower = p c := by
  rcases toLower_eq_or c with hc | ⟨ha, hz, hc⟩
  · rw [hc]
  · have notMem {d : Char} (hd : ¬ (d.toNat < 65 ∨ 122 < d.toNat)) : p d = false := by
      rw [Bool.eq_false_iff]
      exact mt (h d) hd
    rw [notMem (by omega), notMem (by omega)]

theorem isDigit_toLower (c : Char) : isDigit c.toLower = isDigit c := by
  refine toLower_eq_of_notLetter (fun c hc => Or.inl ?_) c
  have := toNat_of_isDigit hc
  omega

theorem isBlank_toLower (c : Char) : isBlank c.toLower = isBlank c := by
  refine toLower_eq_of_notLetter (fun c hc => ?_) c
  have := toNat_of_isBlank hc
  omega

theorem isSeparator_toLower (c : Char) : isSeparator c.toLower = isSeparator c := by
  refine toLower_eq_of_notLetter (fun c hc => ?_) c
  have := toNat_of_isBlank (isBlank_of_isSeparator hc)
  omega

theorem isNameChar_toLower (c : Char) : isNameChar c.toLower = isNameChar c := by
  have split (c : Char) : isNameChar c = (isNameStart c || isDigit c) := by
    unfold isNameChar isNameStart Char.isAlphanum
    rw [Bool.or_right_comm]
    rfl
  rw [split, split, isNameStart_toLower, isDigit_toLower]

theorem toLower_eq_iff (hd : d.toNat < 65) : c.toLower = d ↔ c = d := by
  have lower : d.toLower = d := (toLower_eq_or d).resolve_right (by omega)
  refine ⟨fun h => eq_of_toLower_eq hd (h.trans lower.symm), ?_⟩
  rintro rfl
  exact lower

theorem exponentLetter_toLower : (c.toLower = 'e' ∨ c.toLower = 'E') ↔ (c = 'e' ∨ c = 'E') := by
  have e : 'e'.toNat = 101 := rfl
  have E : 'E'.toNat = 69 := rfl
  rw [← Char.toNat_inj, ← Char.toNat_inj, ← Char.toNat_inj, ← Char.toNat_inj, e, E]
  rcases toLower_eq_or c with h | ⟨ha, hz, h⟩
  · rw [h]
  · omega

/-! ### Pieces -/

theorem takeWhile_toLower {p : Char → Bool} (hp : ∀ c, p c.toLower = p c) (cs : List Char) :
    (cs.map Char.toLower).takeWhile p = (cs.takeWhile p).map Char.toLower := by
  rw [List.takeWhile_map]
  congr 2
  exact funext hp

theorem dropWhile_toLower {p : Char → Bool} (hp : ∀ c, p c.toLower = p c) (cs : List Char) :
    (cs.map Char.toLower).dropWhile p = (cs.dropWhile p).map Char.toLower := by
  rw [List.dropWhile_map]
  congr 2
  exact funext hp

theorem byteLength_toLower (cs : List Char) : byteLength (cs.map Char.toLower) = byteLength cs := by
  induction cs with
  | nil => rfl
  | cons c cs ih => rw [List.map_cons, byteLength_cons, byteLength_cons, utf8Size_toLower, ih]

end OperatorGrammar
