import Mathlib.Data.List.TakeWhile
import OperatorGrammar.Proofs.Number.Rounding

/-! # The text of a number tells the number

A decimal is written so that its digits and the place of the point give it back
(`Decimal.readPositional_positional`), and the decimal that is written for a double tells the
double.  Signs and the words for what is no finite number cannot be taken for anything else, so that
two doubles with one text are the same (`Double.text_injective`), bit for bit
(`Double.ofFloat_injective`). -/

namespace OperatorGrammar

/-! ### Written decimals -/

/-- The number that digits with a point among them spell. -/
def readPositional (cs : List Char) : ℚ :=
  let whole := cs.takeWhile (· != '.')
  let fraction := (cs.dropWhile (· != '.')).tail
  (Nat.ofDigitChars 10 (whole ++ fraction) 0 : ℚ) / 10 ^ fraction.length

section readPositional

variable {whole fraction : List Char}

theorem readPositional_whole (h : ∀ c ∈ whole, c ≠ '.') :
    readPositional whole = Nat.ofDigitChars 10 whole 0 := by
  have hpoint : ∀ c ∈ whole, (c != '.') = true := fun c hc => bne_iff_ne.mpr (h c hc)
  unfold readPositional
  rw [List.takeWhile_eq_self_iff.mpr hpoint, List.dropWhile_eq_nil_iff.mpr hpoint]
  simp

theorem readPositional_point (h : ∀ c ∈ whole, c ≠ '.') :
    readPositional (whole ++ '.' :: fraction) =
      (Nat.ofDigitChars 10 (whole ++ fraction) 0 : ℚ) / 10 ^ fraction.length := by
  have hpoint : ∀ c ∈ whole, (c != '.') = true := fun c hc => bne_iff_ne.mpr (h c hc)
  unfold readPositional
  rw [List.takeWhile_append_of_pos hpoint, List.dropWhile_append_of_pos hpoint]
  simp

end readPositional

namespace Decimal

variable {c : Char} {n : ℕ} {d : Decimal}

theorem isDigit_of_mem_digits (h : c ∈ digits n) : c.isDigit = true :=
  Nat.isDigit_of_mem_toDigits (by decide) (by decide) h

theorem ne_point_of_isDigit (h : c.isDigit = true) : c ≠ '.' := by
  rintro rfl
  cases h

theorem mem_positional (h : c ∈ d.positional.toList) : c.isDigit = true ∨ c = '.' := by
  unfold positional at h
  rw [String.toList_ofList] at h
  have zero {k : ℕ} (hc : c ∈ List.replicate k '0') : c.isDigit = true := by
    rw [(List.mem_replicate.mp hc).2]
    rfl
  split at h
  · rcases List.mem_append.mp h with h | h
    · exact Or.inl (isDigit_of_mem_digits h)
    · exact Or.inl (zero h)
  · split at h
    · rcases List.mem_append.mp h with h | h
      · exact Or.inl (isDigit_of_mem_digits (List.mem_of_mem_take h))
      · rcases List.mem_cons.mp h with h | h
        · exact Or.inr h
        · exact Or.inl (isDigit_of_mem_digits (List.mem_of_mem_drop h))
    · simp only [List.cons_append, List.mem_cons, List.mem_append] at h
      rcases h with rfl | rfl | h | h
      · exact Or.inl rfl
      · exact Or.inr rfl
      · exact Or.inl (zero h)
      · exact Or.inl (isDigit_of_mem_digits h)

theorem positional_ne_nil (d : Decimal) : d.positional.toList ≠ [] := by
  unfold positional
  rw [String.toList_ofList]
  split
  · exact List.append_ne_nil_of_left_ne_nil Nat.toDigits_ne_nil _
  · split <;> simp

/-- **A written decimal spells its value.** -/
theorem readPositional_positional (d : Decimal) : readPositional d.positional.toList = d.value := by
  obtain ⟨coefficient, exponent⟩ := d
  unfold positional value
  rw [String.toList_ofList]
  have digits_eq : Nat.ofDigitChars 10 (digits coefficient) 0 = coefficient :=
    Nat.ofDigitChars_ten_toDigits
  have point : ∀ c ∈ digits coefficient, c ≠ '.' :=
    fun c hc => ne_point_of_isDigit (isDigit_of_mem_digits hc)
  simp only
  split
  · next hplaces =>
    -- A whole number: zeros stand behind the digits.
    obtain ⟨k, rfl⟩ : ∃ k : ℕ, exponent = k := ⟨exponent.toNat, by omega⟩
    rw [readPositional_whole, Nat.ofDigitChars_append, Nat.ofDigitChars_replicate_zero, digits_eq,
      Int.toNat_natCast, zpow_natCast]
    · push_cast
      ring
    · intro c hc
      rcases List.mem_append.mp hc with hc | hc
      · exact point c hc
      · rw [(List.mem_replicate.mp hc).2]
        decide
  · next hplaces =>
    obtain ⟨k, rfl⟩ : ∃ k : ℕ, exponent = -k := ⟨(-exponent).toNat, by omega⟩
    rw [neg_neg, Int.toNat_natCast, zpow_neg, zpow_natCast, ← div_eq_mul_inv]
    split
    · next hlt =>
      -- The point stands among the digits.
      rw [readPositional_point fun c hc => point c (List.mem_of_mem_take hc), List.take_append_drop,
        digits_eq, List.length_drop, Nat.sub_sub_self hlt.le]
    · next hle =>
      -- Zeros stand between the point and the digits.
      have hlength : (List.replicate (k - (digits coefficient).length) '0' ++
          digits coefficient).length = k := by
        rw [List.length_append, List.length_replicate]
        omega
      have hread : readPositional (['0'] ++ '.' ::
          (List.replicate (k - (digits coefficient).length) '0' ++ digits coefficient)) = _ :=
        readPositional_point (by simp)
      rw [hlength, ← List.append_assoc, Nat.ofDigitChars_append, Nat.ofDigitChars_append,
        Nat.ofDigitChars_replicate_zero] at hread
      simpa [Nat.ofDigitChars_cons, digits_eq] using hread

end Decimal

/-! ### The parts of a double -/

namespace Double

variable {x y : Float} {negative negative' : Bool} {m m' : ℕ} {e e' : ℤ}

theorem fields_of_finite (h : ofFloat x = .finite negative m e) :
    negative = (x.toBits.toNat / 9223372036854775808 == 1) ∧
    (x.toBits.toNat / 4503599627370496 % 2048 = 0 ∧ m = x.toBits.toNat % 4503599627370496 ∧
        e = -1074 ∨
      x.toBits.toNat / 4503599627370496 % 2048 ≠ 0 ∧
        x.toBits.toNat / 4503599627370496 % 2048 ≠ 2047 ∧
        m = 4503599627370496 + x.toBits.toNat % 4503599627370496 ∧
        e = (x.toBits.toNat / 4503599627370496 % 2048 : ℕ) - 1075) := by
  unfold ofFloat at h
  simp only [Nat.pow_eq, Nat.reducePow] at h
  split at h
  · split at h <;> cases h
  · next hfield =>
    split at h
    · next hzero =>
      cases h
      exact ⟨rfl, Or.inl ⟨hzero, rfl, rfl⟩⟩
    · next hzero =>
      cases h
      exact ⟨rfl, Or.inr ⟨hzero, hfield, rfl, rfl⟩⟩

theorem fields_of_infinite (h : ofFloat x = .infinite negative) :
    negative = (x.toBits.toNat / 9223372036854775808 == 1) ∧
    x.toBits.toNat / 4503599627370496 % 2048 = 2047 ∧
      x.toBits.toNat % 4503599627370496 = 0 := by
  unfold ofFloat at h
  simp only [Nat.pow_eq, Nat.reducePow] at h
  split at h
  · next hfield =>
    split at h
    · next hfraction =>
      cases h
      exact ⟨rfl, hfield, hfraction⟩
    · cases h
  · split at h <;> cases h

theorem fields_of_nan (h : ofFloat x = .nan) :
    x.toBits.toNat / 4503599627370496 % 2048 = 2047 ∧
      x.toBits.toNat % 4503599627370496 ≠ 0 := by
  unfold ofFloat at h
  simp only [Nat.pow_eq, Nat.reducePow] at h
  split at h
  · next hfield =>
    split at h
    · cases h
    · next hfraction => exact ⟨hfield, hfraction⟩
  · split at h <;> cases h

theorem normal_of_ofFloat (h : ofFloat x = .finite negative m e) : Normal m e := by
  have := Nat.mod_lt x.toBits.toNat (show 0 < 4503599627370496 by decide)
  obtain ⟨-, ⟨-, hm, he⟩ | ⟨hzero, -, hm, he⟩⟩ := fields_of_finite h
  · refine ⟨?_, ?_, Or.inr he⟩ <;> omega
  · refine ⟨?_, ?_, Or.inl ?_⟩ <;> omega

open Float.Model Float.Model.UnpackedFloat in
/-- There is one double that is not a number. -/
theorem toBits_of_nan (h : ofFloat x = .nan) : x.toBits.toNat = 0x7FF8000000000000 := by
  obtain ⟨hfield, hfraction⟩ := fields_of_nan h
  have hexponent : @unpackExponent Format.binary64 x.toBits.toBitVec = -1#_ := by
    apply BitVec.eq_of_toNat_eq
    simp only [unpackExponent, BitVec.toNat_cast, BitVec.extractLsb_toNat,
      Nat.shiftRight_eq_div_pow]
    exact hfield
  have hmantissa : @unpackMantissa Format.binary64 x.toBits.toBitVec ≠ 0#_ := by
    intro hzero
    apply hfraction
    have := congrArg BitVec.toNat hzero
    simp only [unpackMantissa, BitVec.toNat_cast, BitVec.extractLsb_toNat,
      Nat.shiftRight_eq_div_pow] at this
    simpa using this
  exact congrArg BitVec.toNat (x.toModel.valid.eq_packedNaN hexponent hmantissa)

/-- **The parts of a double are all of it.** -/
theorem ofFloat_injective : Function.Injective ofFloat := by
  intro x y h
  have hx := x.toBits.toNat_lt
  have hy := y.toBits.toNat_lt
  have words : x.toBits.toNat = y.toBits.toNat := by
    cases hd : ofFloat x with
    | nan => rw [toBits_of_nan hd, toBits_of_nan (h.symm.trans hd)]
    | infinite negative =>
        obtain ⟨hs, hf, hz⟩ := fields_of_infinite hd
        obtain ⟨hs', hf', hz'⟩ := fields_of_infinite (h.symm.trans hd)
        rw [hs, Bool.eq_iff_iff, beq_iff_eq, beq_iff_eq] at hs'
        omega
    | finite negative m e =>
        obtain ⟨hs, hparts⟩ := fields_of_finite hd
        obtain ⟨hs', hparts'⟩ := fields_of_finite (h.symm.trans hd)
        rw [hs, Bool.eq_iff_iff, beq_iff_eq, beq_iff_eq] at hs'
        omega
  obtain ⟨⟨bits, valid⟩⟩ := x
  obtain ⟨⟨bits', valid'⟩⟩ := y
  obtain rfl : bits = bits' := UInt64.toNat_inj.mp words
  rfl

/-! ### The text -/

section signed

variable {t t' : String} {c : Char}

theorem toList_signed (negative : Bool) (t : String) :
    (signed negative t).toList = if negative = true then '-' :: t.toList else t.toList := by
  cases negative with
  | false => rfl
  | true => exact String.toList_append

theorem mem_signed (h : c ∈ (signed negative t).toList) : c = '-' ∨ c ∈ t.toList := by
  rw [toList_signed] at h
  split at h
  · exact List.mem_cons.mp h
  · exact Or.inr h

theorem signed_injective (ht : '-' ∉ t.toList) (ht' : '-' ∉ t'.toList)
    (h : signed negative t = signed negative' t') : negative = negative' ∧ t = t' := by
  have hlists := congrArg String.toList h
  rw [toList_signed, toList_signed] at hlists
  cases negative with
  | false =>
      cases negative' with
      | false => exact ⟨rfl, String.toList_inj.mp hlists⟩
      | true =>
          refine absurd ?_ ht
          rw [show t.toList = '-' :: t'.toList from hlists]
          exact List.mem_cons_self
  | true =>
      cases negative' with
      | false =>
          refine absurd ?_ ht'
          rw [show t'.toList = '-' :: t.toList from hlists.symm]
          exact List.mem_cons_self
      | true => exact ⟨rfl, String.toList_inj.mp (List.cons.inj hlists).2⟩

end signed

/-- The text of a finite number without its sign. -/
def magnitude (significand : ℕ) (exponent : ℤ) : String :=
  if significand = 0 then "0" else (Decimal.shortest significand exponent).positional

theorem mem_magnitude {c : Char} (h : c ∈ (magnitude m e).toList) :
    c.isDigit = true ∨ c = '.' := by
  unfold magnitude at h
  split at h
  · rw [List.mem_singleton.mp h]
    exact Or.inl rfl
  · exact Decimal.mem_positional h

theorem magnitude_ne {t : String} {c : Char} (hc : c ∈ t.toList)
    (word : c.isDigit = false ∧ c ≠ '.') : magnitude m e ≠ t := by
  rintro rfl
  rcases mem_magnitude hc with h | h
  · rw [word.1] at h
    cases h
  · exact word.2 h

/-- The digits of a finite number tell its significand and its exponent. -/
theorem magnitude_injective (h : Normal m e) (h' : Normal m' e')
    (heq : magnitude m e = magnitude m' e') : m = m' ∧ e = e' := by
  have hzero : readPositional "0".toList = 0 := by
    rw [readPositional_whole (by simp)]
    rfl
  have hread := congrArg (fun t => readPositional t.toList) heq
  unfold magnitude at hread
  by_cases hm : m = 0
  · by_cases hm' : m' = 0
    · have hfull := h.full
      have hfull' := h'.full
      omega
    · simp only [if_pos hm, if_neg hm', hzero, Decimal.readPositional_positional] at hread
      exact absurd hread (Decimal.value_shortest_pos (Nat.pos_of_ne_zero hm') e').ne
  · by_cases hm' : m' = 0
    · simp only [if_neg hm, if_pos hm', hzero, Decimal.readPositional_positional] at hread
      exact absurd hread (Decimal.value_shortest_pos (Nat.pos_of_ne_zero hm) e).ne'
    · simp only [if_neg hm, if_neg hm', Decimal.readPositional_positional] at hread
      exact Decimal.eq_of_value_shortest h h' (Nat.pos_of_ne_zero hm) (Nat.pos_of_ne_zero hm')
        hread

/-- Whether a double has a sign in its text. -/
def isNegative : Double → Bool
  | .nan => false
  | .infinite negative => negative
  | .finite negative _ _ => negative

/-- The text of a double without its sign. -/
def unsigned : Double → String
  | .nan => "NaN"
  | .infinite _ => "inf"
  | .finite _ significand exponent => magnitude significand exponent

theorem text_eq_signed (x : Float) :
    text x = signed (ofFloat x).isNegative (ofFloat x).unsigned := by
  unfold text
  cases ofFloat x <;> rfl

theorem mem_unsigned {d : Double} {c : Char} (h : c ∈ d.unsigned.toList) :
    c.isAlphanum = true ∨ c = '.' := by
  cases d with
  | nan =>
      have word : "NaN".toList.all Char.isAlphanum = true := rfl
      exact Or.inl (List.all_eq_true.mp word c h)
  | infinite negative =>
      have word : "inf".toList.all Char.isAlphanum = true := rfl
      exact Or.inl (List.all_eq_true.mp word c h)
  | finite negative m e =>
      rcases mem_magnitude h with h | h
      · exact Or.inl (by rw [Char.isAlphanum, h, Bool.or_true])
      · exact Or.inr h

theorem magnitude_ne_nil (m : ℕ) (e : ℤ) : (magnitude m e).toList ≠ [] := by
  unfold magnitude
  split
  · decide
  · exact Decimal.positional_ne_nil _

theorem unsigned_ne_nil (d : Double) : d.unsigned.toList ≠ [] := by
  cases d with
  | nan => exact (by decide : "NaN".toList ≠ [])
  | infinite negative => exact (by decide : "inf".toList ≠ [])
  | finite negative m e => exact magnitude_ne_nil m e

theorem text_ne_nil (x : Float) : (text x).toList ≠ [] := by
  rw [text_eq_signed, toList_signed]
  split
  · exact List.cons_ne_nil _ _
  · exact unsigned_ne_nil _

theorem sign_notMem_unsigned (d : Double) : '-' ∉ d.unsigned.toList := by
  intro h
  have := mem_unsigned h
  revert this
  decide

theorem eq_of_unsigned {d d' : Double}
    (h : ∀ negative m e, d = .finite negative m e → Normal m e)
    (h' : ∀ negative m e, d' = .finite negative m e → Normal m e)
    (hsign : d.isNegative = d'.isNegative) (hbody : d.unsigned = d'.unsigned) : d = d' := by
  have hwords : ¬ "NaN" = "inf" := by decide
  have notNan {m : ℕ} {e : ℤ} : magnitude m e ≠ "NaN" :=
    magnitude_ne (c := 'N') (by decide) (by decide)
  have notInf {m : ℕ} {e : ℤ} : magnitude m e ≠ "inf" :=
    magnitude_ne (c := 'i') (by decide) (by decide)
  cases d with
  | nan =>
      cases d' with
      | nan => rfl
      | infinite => exact absurd hbody hwords
      | finite => exact absurd hbody.symm notNan
  | infinite =>
      cases d' with
      | nan => exact absurd hbody.symm hwords
      | infinite => exact congrArg Double.infinite hsign
      | finite => exact absurd hbody.symm notInf
  | finite negative m e =>
      cases d' with
      | nan => exact absurd hbody notNan
      | infinite => exact absurd hbody notInf
      | finite negative' m' e' =>
          obtain ⟨rfl, rfl⟩ := magnitude_injective (h _ _ _ rfl) (h' _ _ _ rfl) hbody
          rw [show negative = negative' from hsign]

/-- **Numbers with one text are one number**, bit for bit. -/
theorem text_injective : Function.Injective text := by
  intro x y h
  rw [text_eq_signed, text_eq_signed] at h
  obtain ⟨hsign, hbody⟩ :=
    signed_injective (sign_notMem_unsigned _) (sign_notMem_unsigned _) h
  exact ofFloat_injective (eq_of_unsigned (fun _ _ _ => normal_of_ofFloat)
    (fun _ _ _ => normal_of_ofFloat) hsign hbody)

end Double

end OperatorGrammar
