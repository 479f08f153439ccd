import OperatorGrammar.Proofs.Scan.Lexeme

/-! # The numbers of a text are numerals

What is taken for a number at the front of a text has the form `IsNumber`: digits, a fraction or
both, and perhaps an exponent.  Every text of this form is read as a decimal (`IsNumber.read?`), so
that a number of a text is refused for its size only; and no longer one could have been taken
(`IsNumber.length_le`). -/

namespace OperatorGrammar

variable {c : Char} {cs ds rest whole fraction exponent : List Char}

/-! ### The form of numbers -/

/-- Nothing, or a point and digits. -/
def IsFraction (cs : List Char) : Prop :=
  cs = [] ∨ ∃ ds, cs = '.' :: ds ∧ ds ≠ [] ∧ ∀ c ∈ ds, isDigit c = true

/-- Nothing, or `e`, perhaps a sign, and digits. -/
def IsExponent (cs : List Char) : Prop :=
  cs = [] ∨ ∃ e rest negative ds, cs = e :: rest ∧ (e = 'e' ∨ e = 'E') ∧
    readSign rest = (negative, ds) ∧ ds ≠ [] ∧ ds.all isDigit = true

/-- Digits, a fraction or both, and perhaps an exponent. -/
def IsNumber (cs : List Char) : Prop :=
  ∃ whole fraction exponent, cs = whole ++ fraction ++ exponent ∧ whole ++ fraction ≠ [] ∧
    (∀ c ∈ whole, isDigit c = true) ∧ IsFraction fraction ∧ IsExponent exponent

/-- Whether a character can stand in a number, but for the letter of the exponent. -/
def isNumeric (c : Char) : Bool := isDigit c || c == '.' || c == '+' || c == '-'

theorem readSign_cons (c : Char) (cs : List Char) :
    readSign (c :: cs) =
      if c = '-' then (true, cs) else if c = '+' then (false, cs) else (false, c :: cs) := by
  unfold readSign
  split
  · next h =>
    cases h
    rfl
  · next h =>
    cases h
    rfl
  · next hminus hplus =>
    rw [if_neg fun h => hminus cs (by rw [h]), if_neg fun h => hplus cs (by rw [h])]

theorem readSign_of_isDigit (h : isDigit c = true) (cs : List Char) :
    readSign (c :: cs) = (false, c :: cs) := by
  have plain {sign : Char} (hs : isDigit sign = false) : ¬ c = sign := by
    rintro rfl
    rw [hs] at h
    cases h
  rw [readSign_cons, if_neg (plain rfl), if_neg (plain rfl)]

theorem eq_of_readSign {negative : Bool} (h : readSign cs = (negative, ds)) :
    cs = ds ∨ ∃ sign, (sign = '+' ∨ sign = '-') ∧ cs = sign :: ds := by
  cases cs with
  | nil =>
      cases h
      exact Or.inl rfl
  | cons c cs =>
      rw [readSign_cons] at h
      split at h
      · next hc =>
        cases h
        exact Or.inr ⟨c, Or.inr hc, rfl⟩
      · split at h
        · next hc =>
          cases h
          exact Or.inr ⟨c, Or.inl hc, rfl⟩
        · cases h
          exact Or.inl rfl

theorem isFraction_fractionPart (cs : List Char) : IsFraction (Lexeme.fractionPart cs) := by
  unfold Lexeme.fractionPart
  split
  · dsimp only
    split
    · exact Or.inl rfl
    · next hne => exact Or.inr ⟨_, rfl, hne, fun _ => List.mem_takeWhile_imp⟩
  · exact Or.inl rfl

theorem isExponent_exponentPart (cs : List Char) : IsExponent (Lexeme.exponentPart cs) := by
  have digits (ds : List Char) : (ds.takeWhile isDigit).all isDigit = true := List.all_takeWhile
  unfold Lexeme.exponentPart
  split
  · next e rest =>
    split
    · next he =>
      split
      · next sign tail =>
        split
        · next hsign =>
          dsimp only
          split
          · exact Or.inl rfl
          · next hne =>
            rcases hsign with rfl | rfl
            · exact Or.inr ⟨e, _, false, _, rfl, he, rfl, hne, digits _⟩
            · exact Or.inr ⟨e, _, true, _, rfl, he, rfl, hne, digits _⟩
        · dsimp only
          split
          · exact Or.inl rfl
          · next hne =>
            obtain ⟨d, ds, hds⟩ := List.exists_cons_of_ne_nil hne
            have hall := digits (sign :: tail)
            rw [hds] at hall ⊢
            have hd : isDigit d = true := (Bool.and_eq_true_iff.mp hall).1
            exact Or.inr ⟨e, _, false, _, rfl, he, readSign_of_isDigit hd ds,
              List.cons_ne_nil _ _, hall⟩
      · exact Or.inl rfl
    · exact Or.inl rfl
  · exact Or.inl rfl

theorem isNumber_numberPart (h : Lexeme.numberPart cs ≠ []) : IsNumber (Lexeme.numberPart cs) := by
  unfold Lexeme.numberPart at h ⊢
  dsimp only at h ⊢
  split at h
  · exact absurd rfl h
  · next hne =>
    rw [if_neg hne]
    exact ⟨_, _, _, rfl, hne, fun _ => List.mem_takeWhile_imp, isFraction_fractionPart _,
      isExponent_exponentPart _⟩

theorem isNumeric_of_isDigit (h : isDigit c = true) : isNumeric c = true := by
  simp [isNumeric, h]

theorem isNumeric_iff : isNumeric c = true ↔ isDigit c = true ∨ c = '.' ∨ c = '+' ∨ c = '-' := by
  simp [isNumeric, or_assoc]

theorem IsExponent.isNumeric (h : IsExponent cs) : ∀ c ∈ cs.tail, isNumeric c = true := by
  rcases h with rfl | ⟨e, rest, negative, ds, rfl, -, hsign, -, hall⟩
  · simp
  · have hds : ∀ c ∈ ds, OperatorGrammar.isNumeric c = true :=
      fun c hc => isNumeric_of_isDigit (List.all_eq_true.mp hall c hc)
    rcases eq_of_readSign hsign with rfl | ⟨sign, hs, rfl⟩
    · exact hds
    · refine List.forall_mem_cons.mpr ⟨?_, hds⟩
      rcases hs with rfl | rfl <;> rfl

/-- A number is a mantissa that ends with a digit, and an exponent. -/
theorem IsNumber.exists_mantissa (h : IsNumber cs) :
    ∃ mantissa exponent, cs = mantissa ++ exponent ∧ (∀ c ∈ mantissa, isNumeric c = true) ∧
      (∀ c ∈ mantissa.getLast?, isDigit c = true) ∧ IsExponent exponent := by
  obtain ⟨whole, fraction, exponent, rfl, -, hw, hf, he⟩ := h
  refine ⟨whole ++ fraction, exponent, rfl, ?_, ?_, he⟩
  · refine List.forall_mem_append.mpr ⟨fun c hc => isNumeric_of_isDigit (hw c hc), ?_⟩
    rcases hf with rfl | ⟨ds, rfl, -, hall⟩
    · simp
    · exact List.forall_mem_cons.mpr ⟨rfl, fun c hc => isNumeric_of_isDigit (hall c hc)⟩
  · intro c hc
    rcases hf with rfl | ⟨ds, rfl, hne, hall⟩
    · rw [List.append_nil] at hc
      exact hw c (List.mem_of_getLast? hc)
    · obtain ⟨d, hd⟩ := Option.ne_none_iff_exists'.mp (mt List.getLast?_eq_none_iff.mp hne)
      rw [List.getLast?_append, List.getLast?_cons, hd] at hc
      cases hc
      exact hall _ (List.mem_of_getLast? hd)

/-! ### How they are read -/

theorem takeWhile_append_isDigit (hds : ∀ c ∈ ds, isDigit c = true)
    (hrest : ∀ c ∈ rest.head?, isDigit c = false) :
    (ds ++ rest).takeWhile isDigit = ds ∧ (ds ++ rest).dropWhile isDigit = rest := by
  rw [List.takeWhile_append_of_pos hds, List.dropWhile_append_of_pos hds]
  cases rest with
  | nil => simp
  | cons c rest =>
      have hc := hrest c rfl
      simp [hc]

theorem IsExponent.read? (h : IsExponent cs) : ∃ k, Numeral.readExponent? cs = some k := by
  rcases h with rfl | ⟨e, rest, negative, ds, rfl, he, hsign, hne, hall⟩
  · exact ⟨0, rfl⟩
  · simp only [Numeral.readExponent?, if_pos he, hsign, if_pos (And.intro hne hall)]
    exact ⟨_, rfl⟩

theorem IsExponent.head? (h : IsExponent cs) : ∀ c ∈ cs.head?, isDigit c = false ∧ c ≠ '.' := by
  rcases h with rfl | ⟨e, rest, negative, ds, rfl, he, -⟩
  · simp
  · rw [List.head?_cons]
    rintro c ⟨⟩
    rcases he with rfl | rfl <;> exact ⟨rfl, by decide⟩

theorem readDecimal?_point (negative : Bool) (hw : ∀ c ∈ whole, isDigit c = true)
    (hds : ∀ c ∈ ds, isDigit c = true) (hne : ¬ (whole = [] ∧ ds = []))
    (he : IsExponent exponent) :
    ∃ n k, Numeral.readDecimal? negative (whole ++ '.' :: (ds ++ exponent)) =
      some (.decimal negative n k) := by
  obtain ⟨k, hk⟩ := he.read?
  have hpoint : ∀ c ∈ ('.' :: (ds ++ exponent)).head?, isDigit c = false := by
    rintro c ⟨⟩
    rfl
  obtain ⟨htake, hdrop⟩ := takeWhile_append_isDigit hw hpoint
  obtain ⟨htake', hdrop'⟩ := takeWhile_append_isDigit hds fun c hc => (he.head? c hc).1
  unfold Numeral.readDecimal?
  simp only [htake, hdrop, htake', hdrop', if_neg hne, hk]
  exact ⟨_, _, rfl⟩

theorem readDecimal?_append (negative : Bool) (hw : ∀ c ∈ whole, isDigit c = true)
    (hf : IsFraction fraction) (hne : whole ++ fraction ≠ []) (he : IsExponent exponent) :
    ∃ n k, Numeral.readDecimal? negative (whole ++ fraction ++ exponent) =
      some (.decimal negative n k) := by
  rcases hf with rfl | ⟨ds, rfl, hds, hall⟩
  · obtain ⟨k, hk⟩ := he.read?
    obtain ⟨htake, hdrop⟩ := takeWhile_append_isDigit hw fun c hc => (he.head? c hc).1
    -- So that the case of a point does not apply to what is left behind the digits.
    have hpoint : ∀ tail, exponent ≠ '.' :: tail := by
      rintro tail rfl
      exact (he.head? '.' rfl).2 rfl
    rw [List.append_nil]
    unfold Numeral.readDecimal?
    simp only [htake, hdrop, hk]
    rw [if_neg (by simpa using hne)]
    exact ⟨_, _, rfl⟩
  · rw [List.append_assoc, List.cons_append]
    exact readDecimal?_point negative hw hall (fun h => hds h.2) he

theorem read?_of_readSign {text : String} {negative : Bool}
    (hsign : readSign text.toList = (negative, c :: cs)) (hc : isDigit c = true ∨ c = '.') :
    Numeral.read? text = Numeral.readDecimal? negative (c :: cs) := by
  have hlower : c.toLower ≠ 'i' ∧ c.toLower ≠ 'n' := by
    rcases hc with hc | rfl
    · have hrange := toNat_of_isDigit hc
      have hsame : c.toLower = c := (toLower_eq_or c).resolve_right (by omega)
      rw [hsame]
      constructor <;> rintro rfl <;> revert hrange <;> decide
    · decide
  have hword {d : Char} {ds : List Char} (hd : c.toLower ≠ d) :
      String.ofList ((c :: cs).map Char.toLower) ≠ String.ofList (d :: ds) := by
    intro h
    rw [String.ofList_inj] at h
    exact hd (List.cons.inj h).1
  unfold Numeral.read?
  simp only [hsign]
  rw [if_neg (not_or.mpr ⟨hword hlower.1, hword hlower.1⟩), if_neg (hword hlower.2)]

theorem readSign_of_isDigit_or (hc : isDigit c = true ∨ c = '.') (cs : List Char) :
    readSign (c :: cs) = (false, c :: cs) := by
  rcases hc with hc | rfl
  · exact readSign_of_isDigit hc cs
  · rfl

theorem IsNumber.exists_cons (h : IsNumber cs) :
    ∃ c rest, cs = c :: rest ∧ (isDigit c = true ∨ c = '.') := by
  obtain ⟨whole, fraction, exponent, rfl, hne, hw, hf, -⟩ := h
  cases whole with
  | cons c whole => exact ⟨c, _, rfl, Or.inl (hw c List.mem_cons_self)⟩
  | nil =>
      rcases hf with rfl | ⟨ds, rfl, -⟩
      · exact absurd rfl hne
      · exact ⟨'.', _, rfl, Or.inr rfl⟩

/-- **A number is a numeral.** -/
theorem IsNumber.read? (h : IsNumber cs) :
    ∃ n k, Numeral.read? (String.ofList cs) = some (.decimal false n k) := by
  obtain ⟨c, rest, rfl, hc⟩ := h.exists_cons
  obtain ⟨whole, fraction, exponent, hcons, hne, hw, hf, he⟩ := h
  have hread := readDecimal?_append false hw hf hne he
  rw [← hcons] at hread
  rwa [read?_of_readSign (by rw [String.toList_ofList]; exact readSign_of_isDigit_or hc rest) hc]

/-! ### Nothing longer is a number -/

theorem length_takeWhile_append_le {p : Char → Bool} (h : ∀ c ∈ ds, p c = true)
    (rest : List Char) : ds.length ≤ ((ds ++ rest).takeWhile p).length := by
  rw [List.takeWhile_append_of_pos h, List.length_append]
  omega

theorem IsExponent.length_le (h : IsExponent exponent) (rest : List Char) :
    exponent.length ≤ (Lexeme.exponentPart (exponent ++ rest)).length := by
  rcases h with rfl | ⟨e, tail, negative, ds, rfl, he, hsign, hne, hall⟩
  · exact Nat.zero_le _
  · have hall : ∀ c ∈ ds, isDigit c = true := List.all_eq_true.mp hall
    have hle := length_takeWhile_append_le hall rest
    have hpos := List.length_pos_iff.mpr hne
    have htaken : (ds ++ rest).takeWhile isDigit ≠ [] := by
      intro hnil
      rw [hnil, List.length_nil] at hle
      omega
    rcases eq_of_readSign hsign with rfl | ⟨sign, hs, rfl⟩
    · cases tail with
      | nil => exact absurd rfl hne
      | cons d tail =>
          have hd := hall d List.mem_cons_self
          have hplain : ¬ (d = '+' ∨ d = '-') := by
            rintro (rfl | rfl) <;> cases hd
          rw [List.cons_append] at htaken hle
          simp only [Lexeme.exponentPart, List.cons_append, if_pos he]
          rw [if_neg hplain, if_neg htaken, List.length_cons, List.length_cons]
          simpa using hle
    · simp only [Lexeme.exponentPart, List.cons_append, if_pos he]
      rw [if_pos hs, if_neg htaken, List.length_cons, List.length_cons, List.length_cons,
        List.length_cons]
      omega

theorem takeWhile_append_point (hw : ∀ c ∈ whole, isDigit c = true) (tail : List Char) :
    (whole ++ '.' :: tail).takeWhile isDigit = whole := by
  refine (takeWhile_append_isDigit hw ?_).1
  rintro c ⟨⟩
  rfl

theorem fractionPart_point {ds : List Char} (hne : ds ≠ []) (hall : ∀ c ∈ ds, isDigit c = true)
    (tail : List Char) :
    Lexeme.fractionPart ('.' :: (ds ++ tail)) = '.' :: (ds ++ tail).takeWhile isDigit := by
  have hle := length_takeWhile_append_le hall tail
  have hpos := List.length_pos_iff.mpr hne
  refine if_neg fun hnil => ?_
  rw [hnil, List.length_nil] at hle
  omega

theorem length_le_numberPart (hw : ∀ c ∈ whole, isDigit c = true) (hf : IsFraction fraction)
    (tail : List Char) :
    (whole ++ fraction).length ≤ (Lexeme.numberPart (whole ++ fraction ++ tail)).length := by
  unfold Lexeme.numberPart
  dsimp only
  -- The mantissa that is taken is a part of the number.
  refine le_trans (b := (List.takeWhile isDigit (whole ++ fraction ++ tail) ++
    Lexeme.fractionPart ((whole ++ fraction ++ tail).drop
      (List.takeWhile isDigit (whole ++ fraction ++ tail)).length)).length) ?_ ?_
  · rcases hf with rfl | ⟨ds, rfl, hne, hall⟩
    · have hle := length_takeWhile_append_le hw tail
      rw [List.append_nil, List.length_append]
      omega
    · have hle := length_takeWhile_append_le hall tail
      rw [List.append_assoc, List.cons_append, takeWhile_append_point hw, List.drop_left,
        fractionPart_point hne hall]
      simp only [List.length_append, List.length_cons] at hle ⊢
      omega
  · split
    · next hnil => rw [hnil]
    · simp only [List.length_append]
      omega

theorem numberPart_append_exponent (hw : ∀ c ∈ whole, isDigit c = true) (hf : IsFraction fraction)
    (hne : whole ++ fraction ≠ []) {tail : List Char}
    (htail : ∀ c ∈ tail.head?, isDigit c = false ∧ c ≠ '.') :
    Lexeme.numberPart (whole ++ fraction ++ tail) =
      whole ++ fraction ++ Lexeme.exponentPart tail := by
  have hdigit : ∀ c ∈ tail.head?, isDigit c = false := fun c hc => (htail c hc).1
  rcases hf with rfl | ⟨ds, rfl, hds, hall⟩
  · obtain ⟨htake, -⟩ := takeWhile_append_isDigit hw hdigit
    have hpoint : Lexeme.fractionPart tail = [] := by
      unfold Lexeme.fractionPart
      split
      · exact absurd rfl (htail '.' rfl).2
      · rfl
    rw [List.append_nil] at hne ⊢
    simp only [Lexeme.numberPart, htake, List.drop_left, hpoint, List.append_nil, if_neg hne]
  · obtain ⟨htake, -⟩ := takeWhile_append_isDigit hall hdigit
    have hsplit : whole ++ '.' :: ds ++ tail = whole ++ '.' :: (ds ++ tail) := by simp
    have hwhole := takeWhile_append_point hw (ds ++ tail)
    have hfraction := fractionPart_point hds hall tail
    rw [htake] at hfraction
    simp only [Lexeme.numberPart]
    rw [hsplit, hwhole, List.drop_left, hfraction, if_neg hne, ← hsplit, List.drop_left]

/-- A number at the front of a text is no longer than the one that is taken. -/
theorem IsNumber.length_le (h : IsNumber cs) (rest : List Char) :
    cs.length ≤ (Lexeme.numberPart (cs ++ rest)).length := by
  obtain ⟨whole, fraction, exponent, rfl, hne, hw, hf, he⟩ := h
  by_cases hexp : exponent = []
  · subst hexp
    rw [List.append_nil]
    exact length_le_numberPart hw hf rest
  · have htail : ∀ c ∈ (exponent ++ rest).head?, isDigit c = false ∧ c ≠ '.' := by
      intro c hc
      refine he.head? c ?_
      cases exponent with
      | nil => exact absurd rfl hexp
      | cons e exponent => exact hc
    have hle := he.length_le rest
    rw [List.append_assoc (whole ++ fraction), numberPart_append_exponent hw hf hne htail]
    simp only [List.length_append] at hle ⊢
    omega

end OperatorGrammar
