import OperatorGrammar.Grammar.Bundled
import OperatorGrammar.Proofs.Numeral
import OperatorGrammar.Proofs.Term.Binding

/-! # What is read as a literal

More is read as a literal than the numbers that scanning finds in a text.  Behind a sign or without
one there may stand such a number, or digits with a point and nothing behind it (`IsPointed`); these
are the texts that are read as decimals (`exists_decimal_iff`).  Words are read too, but what they
stand for is not finite, so that a literal is a decimal (`Double.readLiteral?_eq_some`).  It is a
number itself exactly if it has neither a sign nor a bare point (`literal_spelling`). -/

namespace OperatorGrammar

variable {cs whole : List Char} {negative : Bool} {numeral : Numeral}

/-! ### Numbers and what is taken for one -/

theorem isNumber_iff_read? : IsNumber cs ↔ Lexeme.read? cs = some (.number, cs) := by
  rw [Lexeme.read?_eq_number]
  constructor
  · intro h
    have hle := h.length_le []
    rw [List.append_nil] at hle
    obtain ⟨c, rest, hcs, -⟩ := h.exists_cons
    exact ⟨(Lexeme.numberPart_isPrefix cs).eq_of_length_le hle, by simp [hcs]⟩
  · rintro ⟨h, hne⟩
    rw [← h] at hne ⊢
    exact isNumber_numberPart hne

/-- Digits, a point with nothing behind it, and perhaps an exponent. -/
def IsPointed (cs : List Char) : Prop :=
  ∃ whole exponent, cs = whole ++ '.' :: exponent ∧ whole ≠ [] ∧
    (∀ c ∈ whole, isDigit c = true) ∧ IsExponent exponent

theorem IsPointed.exists_cons (h : IsPointed cs) :
    ∃ c rest, cs = c :: rest ∧ (isDigit c = true ∨ c = '.') := by
  obtain ⟨whole, exponent, rfl, hne, hw, -⟩ := h
  obtain ⟨c, rest, rfl⟩ := List.exists_cons_of_ne_nil hne
  exact ⟨c, _, rfl, Or.inl (hw c List.mem_cons_self)⟩

/-- Of such a text only the digits are taken for a number. -/
theorem IsPointed.not_isNumber (h : IsPointed cs) : ¬ IsNumber cs := by
  obtain ⟨whole, exponent, rfl, -, hw, he⟩ := h
  rintro ⟨whole', fraction, exponent', hcs, hne, hw', hf, he'⟩
  have hdigits : ∀ c ∈ (fraction ++ exponent').head?, isDigit c = false := by
    rcases hf with rfl | ⟨ds, rfl, -⟩
    · exact fun c hc => (he'.head? c hc).1
    · rintro c ⟨⟩
      rfl
  -- Both have the same digits in front, and so the same text behind them.
  have hwhole : whole = whole' := by
    rw [← takeWhile_append_point hw exponent, hcs, List.append_assoc]
    exact (takeWhile_append_isDigit hw' hdigits).1
  subst hwhole
  rw [List.append_assoc, List.append_cancel_left_eq] at hcs
  rcases hf with rfl | ⟨ds, rfl, hds, hall⟩
  · rw [List.nil_append] at hcs
    exact (he'.head? '.' (by rw [← hcs]; rfl)).2 rfl
  · obtain ⟨d, ds, rfl⟩ := List.exists_cons_of_ne_nil hds
    obtain ⟨-, rfl⟩ := List.cons.inj hcs
    have hdigit := (he.head? d rfl).1
    rw [hall d List.mem_cons_self] at hdigit
    cases hdigit

/-! ### Numerals without a sign -/

namespace Numeral

theorem isExponent_of_readExponent? {k : Int} (h : readExponent? cs = some k) : IsExponent cs := by
  cases cs with
  | nil => exact Or.inl rfl
  | cons c rest =>
      unfold readExponent? at h
      rcases hsign : readSign rest with ⟨negative, ds⟩
      simp only [hsign] at h
      split at h
      · next hc =>
        split at h
        · next hds => exact Or.inr ⟨c, rest, negative, ds, rfl, hc, hsign, hds⟩
        · cases h
      · cases h

theorem parts_of_eq_some {fraction rest : List Char}
    (h : (if whole = [] ∧ fraction = [] then none
      else (readExponent? rest).map fun exponent => Numeral.decimal negative
        (valueOfDigits (whole ++ fraction)) (exponent - fraction.length)) = some numeral) :
    ¬ (whole = [] ∧ fraction = []) ∧ IsExponent rest ∧ ∃ n k, numeral = .decimal negative n k := by
  split at h
  · cases h
  · next hne =>
    obtain ⟨k, hk, rfl⟩ := Option.map_eq_some_iff.mp h
    exact ⟨hne, isExponent_of_readExponent? hk, _, _, rfl⟩

theorem form_of_readDecimal? (h : readDecimal? negative cs = some numeral) :
    (IsNumber cs ∨ IsPointed cs) ∧ ∃ n k, numeral = .decimal negative n k := by
  have hcs : cs.takeWhile isDigit ++ cs.dropWhile isDigit = cs := List.takeWhile_append_dropWhile
  have hw : ∀ c ∈ cs.takeWhile isDigit, isDigit c = true := fun _ => List.mem_takeWhile_imp
  unfold readDecimal? at h
  dsimp only at h
  split at h
  · next tail hafter =>
    obtain ⟨hne, he, decimal⟩ := parts_of_eq_some h
    refine ⟨?_, decimal⟩
    have htail : tail.takeWhile isDigit ++ tail.dropWhile isDigit = tail :=
      List.takeWhile_append_dropWhile
    rw [hafter] at hcs
    by_cases hf : tail.takeWhile isDigit = []
    · rw [hf, List.nil_append] at htail
      rw [htail] at he
      exact Or.inr ⟨_, tail, hcs.symm, fun hnil => hne ⟨hnil, hf⟩, hw, he⟩
    · refine Or.inl ⟨_, '.' :: tail.takeWhile isDigit, _, ?_, by simp, hw,
        Or.inr ⟨_, rfl, hf, fun _ => List.mem_takeWhile_imp⟩, he⟩
      rw [List.append_assoc, List.cons_append, htail, hcs]
  · obtain ⟨hne, he, decimal⟩ := parts_of_eq_some h
    have hwhole : cs.takeWhile isDigit ≠ [] := fun hnil => hne ⟨hnil, rfl⟩
    refine ⟨Or.inl ⟨_, [], _, ?_, by simpa using hwhole, hw, Or.inl rfl, he⟩, decimal⟩
    rw [List.append_nil, hcs]

theorem readDecimal?_of_form (negative : Bool) (h : IsNumber cs ∨ IsPointed cs) :
    ∃ n k, readDecimal? negative cs = some (.decimal negative n k) := by
  rcases h with ⟨whole, fraction, exponent, rfl, hne, hw, hf, he⟩ | h
  · exact readDecimal?_append negative hw hf hne he
  · obtain ⟨whole, exponent, rfl, hne, hw, he⟩ := h
    exact readDecimal?_point negative hw (List.forall_mem_nil _) (fun h => hne h.1) he

end Numeral

/-- Behind a sign or without one, numbers and pointed digits are what is read as a decimal. -/
theorem exists_decimal_iff {text : String} :
    (∃ negative n k, Numeral.read? text = some (.decimal negative n k)) ↔
      ∃ negative cs, readSign text.toList = (negative, cs) ∧ (IsNumber cs ∨ IsPointed cs) := by
  constructor
  · rintro ⟨negative, n, k, h⟩
    rcases hsign : readSign text.toList with ⟨negative', cs⟩
    unfold Numeral.read? at h
    simp only [hsign] at h
    split at h
    · cases h
    · split at h
      · cases h
      · exact ⟨negative', cs, rfl, (Numeral.form_of_readDecimal? h).1⟩
  · rintro ⟨negative, cs, hsign, form⟩
    obtain ⟨n, k, h⟩ := Numeral.readDecimal?_of_form negative form
    obtain ⟨c, rest, rfl, hc⟩ := form.elim IsNumber.exists_cons IsPointed.exists_cons
    exact ⟨negative, n, k, (read?_of_readSign hsign hc).trans h⟩

/-! ### Literals -/

namespace Double

variable {text : String} {x : Float}

theorem isFinite_infinity (negative : Bool) : (infinity negative).isFinite = false := by
  cases negative <;> decide +kernel

theorem isFinite_notANumber : notANumber.isFinite = false := by
  decide +kernel

/-- **A literal is a decimal that is finite.** -/
theorem readLiteral?_eq_some :
    readLiteral? text = some x ↔
      ∃ negative n k, Numeral.read? text = some (.decimal negative n k) ∧
        (Numeral.decimal negative n k).toFloat = x ∧ x.isFinite = true := by
  unfold readLiteral? read?
  rw [Option.filter_eq_some_iff, Option.map_eq_some_iff]
  constructor
  · rintro ⟨⟨numeral, hread, hx⟩, hfinite⟩
    cases numeral with
    | nan =>
        rw [← hx, Numeral.toFloat, isFinite_notANumber] at hfinite
        cases hfinite
    | infinite negative =>
        rw [← hx, Numeral.toFloat, isFinite_infinity] at hfinite
        cases hfinite
    | decimal negative n k => exact ⟨negative, n, k, hread, hx, hfinite⟩
  · rintro ⟨negative, n, k, hread, hx, hfinite⟩
    exact ⟨⟨_, hread, hx⟩, hfinite⟩

end Double

theorem isNumber_iff_of_readLiteral? {text : String} {x : Float}
    (h : Double.readLiteral? text = some x) :
    IsNumber text.toList ↔
      readSign text.toList = (false, text.toList) ∧ ¬ IsPointed text.toList := by
  constructor
  · intro number
    obtain ⟨c, rest, htext, hc⟩ := number.exists_cons
    refine ⟨?_, fun pointed => pointed.not_isNumber number⟩
    rw [htext]
    exact readSign_of_isDigit_or hc rest
  · rintro ⟨hsign, notPointed⟩
    obtain ⟨negative, n, k, hread, -⟩ := Double.readLiteral?_eq_some.mp h
    obtain ⟨negative', cs, hsign', form⟩ := exists_decimal_iff.mp ⟨negative, n, k, hread⟩
    obtain ⟨-, rfl⟩ := Prod.mk.inj (hsign.symm.trans hsign')
    exact form.resolve_right notPointed

theorem Term.bind_number_eq_ok {g : Grammar} {name : String} {children : List TokenTree}
    {t : Term} :
    bind g (.node name .number children) = .ok t ↔
      children = [] ∧ ∃ x, Double.readLiteral? name = some x ∧ t = .constant name (.number x) := by
  cases children with
  | nil => rw [show TokenTree.node name .number [] = .leaf name .number from rfl, bind_number,
      ofLiteral_eq_ok, and_iff_right rfl]
  | cons child children => simp [bind]

/-- **What is read as a literal.**  A literal is a finite decimal, and decimals are spelled with a
sign or without one, and then as a number of a text or as digits with a bare point.  A literal is a
number of a text, which scanning takes as a whole, exactly if it has neither a sign nor a bare
point.  A node for a number has a term exactly if its name is a literal and nothing stands under
it. -/
theorem literal_spelling (text : String) :
    (∀ x, Double.readLiteral? text = some x ↔
      ∃ negative n k, Numeral.read? text = some (.decimal negative n k) ∧
        (Numeral.decimal negative n k).toFloat = x ∧ x.isFinite = true) ∧
    ((∃ negative n k, Numeral.read? text = some (.decimal negative n k)) ↔
      ∃ negative cs, readSign text.toList = (negative, cs) ∧ (IsNumber cs ∨ IsPointed cs)) ∧
    (∀ x, Double.readLiteral? text = some x →
      (IsNumber text.toList ↔
        readSign text.toList = (false, text.toList) ∧ ¬ IsPointed text.toList)) ∧
    (IsNumber text.toList ↔ Lexeme.read? text.toList = some (.number, text.toList)) ∧
    ∀ g children t, Term.bind g (.node text .number children) = .ok t ↔
      children = [] ∧ ∃ x, Double.readLiteral? text = some x ∧ t = .constant text (.number x) :=
  ⟨fun _ => Double.readLiteral?_eq_some, exists_decimal_iff,
    fun _ => isNumber_iff_of_readLiteral?, isNumber_iff_read?,
    fun _ _ _ => Term.bind_number_eq_ok⟩

/-- One literal that is a number and one that is none. -/
theorem literal_spelling_sample :
    Double.readLiteral? "1.e2" = some 100 ∧ ¬ IsNumber "1.e2".toList ∧
    Double.readLiteral? "1.0e2" = some 100 ∧ IsNumber "1.0e2".toList := by
  have hpointed : IsPointed "1.e2".toList :=
    ⟨['1'], ['e', '2'], rfl, by decide, List.forall_mem_singleton.mpr rfl,
      Or.inr ⟨'e', ['2'], false, ['2'], rfl, Or.inl rfl, rfl, by decide, rfl⟩⟩
  have hbare : Double.readLiteral? "1.e2" = some 100 := by decide +kernel
  have hfull : Double.readLiteral? "1.0e2" = some 100 := by decide +kernel
  refine ⟨hbare, fun number => ?_, hfull, (literal_spelling "1.0e2").2.2.2.1.mpr (by decide)⟩
  exact (((literal_spelling "1.e2").2.2.1 100 hbare).mp number).2 hpointed

/-- A sign is read as part of a literal, though scanning takes it for an operator. -/
theorem signed_literal_not_number :
    Double.readLiteral? "+1" = some 1 ∧ ¬ IsNumber "+1".toList ∧
    Term.bind Grammar.test (.leaf "+1" .number) = .ok (.constant "+1" (.number 1)) := by
  have hread : Double.readLiteral? "+1" = some 1 := by decide +kernel
  refine ⟨hread, ?_, Term.bind_number_eq_ok.mpr ⟨rfl, 1, hread, rfl⟩⟩
  rw [isNumber_iff_read?]
  decide

end OperatorGrammar
