import OperatorGrammar.Proofs.Number.Text
import OperatorGrammar.Value

/-! # The text of a value tells the value

The texts of numbers and truth values are words without brackets, commas and blanks, so that where
one of them ends can be seen from the next character, and where a list ends from its brackets
(`Value.ends`).  Hence values with one text are the same (`Value.text_injective`).  Every text is
one line (`Value.newline_notMem_text`). -/

namespace OperatorGrammar

namespace Value

/-- What holds of a list whenever it holds of its elements holds of every value. -/
@[elab_as_elim]
theorem induction {P : Value → Prop} (number : ∀ x, P (.number x)) (bool : ∀ b, P (.bool b))
    (list : ∀ vs, (∀ v ∈ vs, P v) → P (.list vs)) (v : Value) : P v := by
  refine @Value.rec P (fun vs => ∀ v ∈ vs, P v) number bool list ?_ ?_ v
  · intro v hv
    cases hv
  · intro v vs hv hvs w hw
    rcases List.mem_cons.mp hw with rfl | hw
    · exact hv
    · exact hvs w hw

/-! ### Words -/

/-- Whether a character may stand in the text of a number or a truth value. -/
def isPlain (c : Char) : Bool := c.isAlphanum || c == '.' || c == '-'

/-- Whether a value is no list. -/
def isScalar : Value → Bool
  | .list _ => false
  | _ => true

theorem isPlain_of_mem_text {v : Value} (h : v.isScalar = true) :
    ∀ c ∈ v.text.toList, isPlain c = true := by
  intro c hc
  cases v with
  | number x =>
      rw [text, Double.text_eq_signed] at hc
      rcases Double.mem_signed hc with rfl | hc
      · rfl
      · rcases Double.mem_unsigned hc with hc | rfl
        · rw [isPlain, hc]
          rfl
        · rfl
  | bool b =>
      have word : (Value.bool b).text.toList.all isPlain = true := by cases b <;> rfl
      exact List.all_eq_true.mp word c hc
  | list vs => cases h

theorem text_ne_nil {v : Value} (h : v.isScalar = true) : v.text.toList ≠ [] := by
  cases v with
  | number x => exact Double.text_ne_nil x
  | bool b => cases b <;> exact List.cons_ne_nil _ _
  | list vs => cases h

theorem text_number_ne (x : Float) (b : Bool) : (Value.number x).text ≠ (Value.bool b).text := by
  intro h
  have word : '-' ∉ (Value.bool b).text.toList ∧ 'e' ∈ (Value.bool b).text.toList := by
    cases b <;> decide
  rw [text, Double.text_eq_signed] at h
  have unsigned : Double.signed (Double.ofFloat x).isNegative (Double.ofFloat x).unsigned =
      Double.signed false (Value.bool b).text := h
  have body := (Double.signed_injective (Double.sign_notMem_unsigned _) word.1 unsigned).2
  cases hx : Double.ofFloat x with
  | nan =>
      rw [hx] at body
      cases b <;> exact absurd body (by decide)
  | infinite negative =>
      rw [hx] at body
      cases b <;> exact absurd (show "inf" = _ from body) (by decide)
  | finite negative m e =>
      rw [hx] at body
      exact Double.magnitude_ne word.2 (by decide) body

theorem eq_of_text_of_isScalar {v w : Value} (hv : v.isScalar = true) (hw : w.isScalar = true)
    (h : v.text = w.text) : v = w := by
  cases v with
  | number x =>
      cases w with
      | number y => rw [Double.text_injective h]
      | bool b => exact absurd h (text_number_ne x b)
      | list ws => cases hw
  | bool b =>
      cases w with
      | number y => exact absurd h.symm (text_number_ne y b)
      | bool b' =>
          cases b <;> cases b' <;> first | rfl | exact absurd h (by decide)
      | list ws => cases hw
  | list vs => cases hv

/-! ### Lists -/

/-- The texts of the elements behind the first one, each behind what separates it from the one
before. -/
def furtherText : List Value → List Char
  | [] => []
  | v :: vs => ',' :: ' ' :: v.text.toList ++ furtherText vs

theorem toList_intercalate_texts (v : Value) (vs : List Value) :
    (", ".intercalate (texts (v :: vs))).toList = v.text.toList ++ furtherText vs := by
  rw [String.toList_intercalate, texts_eq_map, List.map_map]
  induction vs generalizing v with
  | nil => simp [furtherText]
  | cons w vs ih =>
      rw [List.map_cons, List.map_cons, List.intercalate_cons_cons, ← List.map_cons, ih w]
      simp [furtherText]

theorem text_list_cons (v : Value) (vs : List Value) :
    (Value.list (v :: vs)).text.toList =
      '[' :: (v.text.toList ++ (furtherText vs ++ [']'])) := by
  rw [text, String.toList_append, String.toList_append, toList_intercalate_texts]
  simp

/-- Whether a text goes on with what may stand behind an element of a list. -/
def Stops (cs : List Char) : Prop := ∀ c ∈ cs.head?, c = ',' ∨ c = ']'

theorem stops_furtherText (vs : List Value) (cs : List Char) :
    Stops (furtherText vs ++ ']' :: cs) := by
  intro c hc
  cases vs with
  | nil => exact Or.inr (Option.some.inj hc).symm
  | cons v vs => exact Or.inl (Option.some.inj hc).symm

theorem exists_text_eq_cons (v : Value) :
    ∃ c cs, v.text.toList = c :: cs ∧ c ≠ ',' ∧ c ≠ ']' := by
  by_cases hv : v.isScalar = true
  · obtain ⟨c, cs, hcs⟩ := List.exists_cons_of_ne_nil (text_ne_nil hv)
    have plain := isPlain_of_mem_text hv c (hcs ▸ List.mem_cons_self)
    refine ⟨c, cs, hcs, ?_, ?_⟩ <;> rintro rfl <;> cases plain
  · cases v with
    | number x => exact absurd rfl hv
    | bool b => exact absurd rfl hv
    | list vs =>
        cases vs with
        | nil => exact ⟨'[', [']'], rfl, by decide, by decide⟩
        | cons v vs => exact ⟨'[', _, text_list_cons v vs, by decide, by decide⟩

/-- Whether the text of one value can be told from that of any other by what stands behind it. -/
def Ends (v : Value) : Prop :=
  ∀ w r s, Stops r → Stops s → v.text.toList ++ r = w.text.toList ++ s → v = w ∧ r = s

theorem takeWhile_isPlain {v : Value} (hv : v.isScalar = true) {r : List Char} (hr : Stops r) :
    (v.text.toList ++ r).takeWhile isPlain = v.text.toList := by
  rw [List.takeWhile_append_of_pos (isPlain_of_mem_text hv)]
  cases r with
  | nil => simp
  | cons c r =>
      have : isPlain c = false := by
        rcases hr c rfl with rfl | rfl <;> rfl
      simp [this]

theorem text_append_ne_list {v : Value} (hv : v.isScalar = true) (vs : List Value)
    (r s : List Char) : v.text.toList ++ r ≠ (Value.list vs).text.toList ++ s := by
  intro h
  obtain ⟨c, cs, hcs⟩ := List.exists_cons_of_ne_nil (text_ne_nil hv)
  have plain := isPlain_of_mem_text hv c (hcs ▸ List.mem_cons_self)
  have bracket : c = '[' := by
    rw [hcs] at h
    cases vs with
    | nil => exact (List.cons.inj h).1
    | cons w ws =>
        rw [text_list_cons] at h
        exact (List.cons.inj h).1
  rw [bracket] at plain
  cases plain

theorem ends_of_isScalar {v : Value} (hv : v.isScalar = true) : v.Ends := by
  intro w r s hr hs h
  by_cases hw : w.isScalar = true
  · have words := congrArg (List.takeWhile isPlain) h
    rw [takeWhile_isPlain hv hr, takeWhile_isPlain hw hs] at words
    rw [words] at h
    exact ⟨eq_of_text_of_isScalar hv hw (String.toList_inj.mp words), List.append_cancel_left h⟩
  · cases w with
    | number y => exact absurd rfl hw
    | bool b => exact absurd rfl hw
    | list ws => exact absurd h (text_append_ne_list hv ws r s)

theorem eq_of_furtherText {vs ws : List Value} {r s : List Char} (ih : ∀ v ∈ vs, v.Ends)
    (h : furtherText vs ++ ']' :: r = furtherText ws ++ ']' :: s) : vs = ws ∧ r = s := by
  induction vs generalizing ws with
  | nil =>
      cases ws with
      | nil => exact ⟨rfl, (List.cons.inj h).2⟩
      | cons w ws => exact absurd (List.cons.inj h).1 (by decide)
  | cons v vs ihvs =>
      rw [List.forall_mem_cons] at ih
      cases ws with
      | nil => exact absurd (List.cons.inj h).1 (by decide)
      | cons w ws =>
          simp only [furtherText, List.cons_append, List.append_assoc, List.cons.injEq,
            true_and] at h
          obtain ⟨rfl, hrest⟩ :=
            ih.1 w _ _ (stops_furtherText vs r) (stops_furtherText ws s) h
          obtain ⟨rfl, hrs⟩ := ihvs ih.2 hrest
          exact ⟨rfl, hrs⟩

theorem ends_list {vs : List Value} (ih : ∀ v ∈ vs, v.Ends) : (Value.list vs).Ends := by
  intro w r s hr hs h
  by_cases hw : w.isScalar = true
  · exact absurd h.symm (text_append_ne_list hw vs s r)
  · cases w with
    | number y => exact absurd rfl hw
    | bool b => exact absurd rfl hw
    | list ws =>
        cases vs with
        | nil =>
            cases ws with
            | nil => exact ⟨rfl, List.append_cancel_left h⟩
            | cons w ws =>
                obtain ⟨c, cs, hcs, -, hclose⟩ := exists_text_eq_cons w
                rw [text_list_cons, hcs] at h
                exact absurd (List.cons.inj (List.cons.inj h).2).1.symm hclose
        | cons v vs =>
            cases ws with
            | nil =>
                obtain ⟨c, cs, hcs, -, hclose⟩ := exists_text_eq_cons v
                rw [text_list_cons, hcs] at h
                exact absurd (List.cons.inj (List.cons.inj h).2).1 hclose
            | cons w ws =>
                -- The first elements end at the same place, and so does what stands behind them.
                rw [List.forall_mem_cons] at ih
                simp only [text_list_cons, List.cons_append, List.append_assoc, List.cons.injEq,
                  true_and, List.nil_append] at h
                obtain ⟨rfl, hrest⟩ :=
                  ih.1 w _ _ (stops_furtherText vs r) (stops_furtherText ws s) h
                obtain ⟨rfl, hrs⟩ := eq_of_furtherText ih.2 hrest
                exact ⟨rfl, hrs⟩

/-- Where the text of a value ends can be seen from what follows it. -/
theorem ends (v : Value) : v.Ends := by
  induction v using Value.induction with
  | number x => exact ends_of_isScalar rfl
  | bool b => exact ends_of_isScalar rfl
  | list vs ih => exact ends_list ih

/-- **Values with one text are one value.** -/
theorem text_injective : Function.Injective text := by
  intro v w h
  have stops : Stops [] := by
    intro c hc
    cases hc
  refine (v.ends w [] [] stops stops ?_).1
  rw [h]

/-- The text of a value is one line. -/
theorem newline_notMem_text (v : Value) : '\n' ∉ v.text.toList := by
  induction v using Value.induction with
  | number x => exact fun h => absurd (isPlain_of_mem_text rfl _ h) (by decide)
  | bool b => exact fun h => absurd (isPlain_of_mem_text rfl _ h) (by decide)
  | list vs ih =>
      have further : ∀ ws : List Value, (∀ w ∈ ws, '\n' ∉ w.text.toList) →
          '\n' ∉ furtherText ws := by
        intro ws hws
        induction ws with
        | nil => exact List.not_mem_nil
        | cons w ws ihws =>
            rw [List.forall_mem_cons] at hws
            simp [furtherText, hws.1, ihws hws.2]
      cases vs with
      | nil => decide
      | cons v vs =>
          rw [List.forall_mem_cons] at ih
          rw [text_list_cons]
          simp [ih.1, further vs ih.2]

end Value

end OperatorGrammar
