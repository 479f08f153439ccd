import Mathlib.Data.List.Induction
import OperatorGrammar.Token.Scan

/-! # What is matched at the front of a text

Of the symbols at the front of a text a longest one is taken, the first (`firstLongest`) or the last
(`lastLongest`).  Symbols are compared by their bytes; since all of them begin the same text, of two
symbols the one that is no longer begins the other (`beginsWith_of_byteLength_le`). -/

namespace OperatorGrammar

/-! ### The longest element -/

section longest

variable {α : Type} {length : α → Nat} {xs : List α} {x : α}

/-- The first of the longest elements of a list. -/
def firstLongest (length : α → Nat) : List α → Option α
  | [] => none
  | a :: rest =>
    match firstLongest length rest with
    | none => some a
    | some b => if length a < length b then some b else some a

theorem firstLongest_eq_none : firstLongest length xs = none ↔ xs = [] := by
  cases xs with
  | nil => simp [firstLongest]
  | cons y ys =>
      unfold firstLongest
      split
      · simp
      · split <;> simp

theorem exists_append_of_firstLongest (h : firstLongest length xs = some x) :
    ∃ before after, xs = before ++ x :: after ∧
      (∀ y ∈ before, length y < length x) ∧ ∀ y ∈ after, length y ≤ length x := by
  induction xs generalizing x with
  | nil => cases h
  | cons y ys ih =>
      unfold firstLongest at h
      split at h
      · next hn =>
        obtain rfl := firstLongest_eq_none.mp hn
        obtain rfl := Option.some.inj h
        exact ⟨[], [], rfl, by simp, by simp⟩
      · next z hz =>
        obtain ⟨before, after, rfl, hbefore, hafter⟩ := ih hz
        by_cases hlt : length y < length z
        · rw [if_pos hlt] at h
          obtain rfl := Option.some.inj h
          exact ⟨y :: before, after, rfl, List.forall_mem_cons.mpr ⟨hlt, hbefore⟩, hafter⟩
        · rw [if_neg hlt] at h
          obtain rfl := Option.some.inj h
          have hle : length z ≤ length y := Nat.le_of_not_lt hlt
          refine ⟨[], before ++ z :: after, rfl, by simp, fun w hw => ?_⟩
          rcases List.mem_append.mp hw with hw | hw
          · exact Nat.le_trans (Nat.le_of_lt (hbefore w hw)) hle
          · rcases List.mem_cons.mp hw with rfl | hw
            · exact hle
            · exact Nat.le_trans (hafter w hw) hle

theorem firstLongest_eq_some (h : firstLongest length xs = some x) :
    x ∈ xs ∧ ∀ y ∈ xs, length y ≤ length x := by
  obtain ⟨before, after, rfl, hbefore, hafter⟩ := exists_append_of_firstLongest h
  refine ⟨by simp, fun y hy => ?_⟩
  rcases List.mem_append.mp hy with hy | hy
  · exact Nat.le_of_lt (hbefore y hy)
  · rcases List.mem_cons.mp hy with rfl | hy
    · exact Nat.le_refl _
    · exact hafter y hy

/-- Of the elements before the one that is taken all are shorter, and behind it none is longer. -/
theorem firstLongest_eq_some_iff_append :
    firstLongest length xs = some x ↔ ∃ before after, xs = before ++ x :: after ∧
      (∀ y ∈ before, length y < length x) ∧ ∀ y ∈ after, length y ≤ length x := by
  refine ⟨exists_append_of_firstLongest, ?_⟩
  rintro ⟨before, after, rfl, hbefore, hafter⟩
  induction before with
  | nil =>
      rw [List.nil_append, firstLongest]
      split
      · rfl
      · next y hy => exact if_neg (Nat.not_lt.mpr (hafter y (firstLongest_eq_some hy).1))
  | cons y ys ih =>
      obtain ⟨hy, hys⟩ := List.forall_mem_cons.mp hbefore
      rw [List.cons_append, firstLongest, ih hys]
      exact if_pos hy

theorem lastLongest_concat (xs : List α) (x : α) :
    lastLongest length (xs ++ [x]) =
      if (lastLongest length xs).all (length · ≤ length x) then some x
      else lastLongest length xs :=
  List.foldl_append

/-- As it is looked for, the last element that no other one is longer than is kept. -/
theorem lastLongest_spec (xs : List α) :
    (lastLongest length xs = none → xs = []) ∧
      ∀ x, lastLongest length xs = some x → x ∈ xs ∧ ∀ y ∈ xs, length y ≤ length x := by
  induction xs using List.reverseRecOn with
  | nil => simp [lastLongest]
  | append_singleton xs x ih =>
      obtain ⟨hnone, hsome⟩ := ih
      rw [lastLongest_concat]
      cases h : lastLongest length xs with
      | none => simp [hnone h]
      | some best =>
          obtain ⟨hmem, hmax⟩ := hsome best h
          by_cases hle : length best ≤ length x
          · have hall : ∀ y ∈ xs, length y ≤ length x := fun y hy =>
              Nat.le_trans (hmax y hy) hle
            simpa [hle, or_imp, forall_and] using hall
          · simpa [hle, hmem, or_imp, forall_and] using ⟨hmax, Nat.le_of_not_le hle⟩

theorem lastLongest_eq_none : lastLongest length xs = none ↔ xs = [] := by
  refine ⟨(lastLongest_spec xs).1, ?_⟩
  rintro rfl
  rfl

theorem lastLongest_eq_some (h : lastLongest length xs = some x) :
    x ∈ xs ∧ ∀ y ∈ xs, length y ≤ length x :=
  (lastLongest_spec xs).2 x h

end longest

/-! ### Symbols at the front of one text -/

section symbols

variable {cs : Bool} {c d e : Char}

theorem toLower_eq_or (c : Char) :
    c.toLower = c ∨ 65 ≤ c.toNat ∧ c.toNat ≤ 90 ∧ c.toLower.toNat = c.toNat + 32 := by
  unfold Char.toLower
  split
  · next h =>
    have ha : 65 ≤ c.toNat := UInt32.le_iff_toNat_le.mp h.1
    have hz : c.toNat ≤ 90 := UInt32.le_iff_toNat_le.mp h.2
    have hshift : ('a'.val - 'A'.val).toNat = 32 := rfl
    refine Or.inr ⟨ha, hz, ?_⟩
    show (c.val + ('a'.val - 'A'.val)).toNat = c.toNat + 32
    rw [UInt32.toNat_add, hshift]
    exact Nat.mod_eq_of_lt (by show c.toNat + 32 < 2 ^ 32; omega)
  · exact Or.inl rfl

theorem utf8Size_toLower (c : Char) : c.toLower.utf8Size = c.utf8Size := by
  rcases toLower_eq_or c with h | ⟨-, hz, h⟩
  · rw [h]
  · have ascii (d : Char) (hd : d.toNat ≤ 127) : d.utf8Size = 1 :=
      Char.utf8Size_eq_one_iff.mpr (UInt32.le_iff_toNat_le.mpr hd)
    rw [ascii c (by omega), ascii c.toLower (by omega)]

theorem toLower_toLower (c : Char) : c.toLower.toLower = c.toLower := by
  rcases toLower_eq_or c with h | ⟨ha, hz, h⟩
  · rw [h, h]
  · exact (toLower_eq_or c.toLower).resolve_right (by omega)

theorem sameChar_utf8Size (h : sameChar cs c d = true) : c.utf8Size = d.utf8Size := by
  unfold sameChar at h
  cases cs with
  | true =>
      have h : c = d := by simpa using h
      rw [h]
  | false =>
      have h : c.toLower = d.toLower := by simpa using h
      rw [← utf8Size_toLower c, h, utf8Size_toLower]

theorem sameChar_of_sameChar (h : sameChar cs c d = true) (h' : sameChar cs c e = true) :
    sameChar cs d e = true := by
  unfold sameChar at *
  cases cs with
  | true => simp_all
  | false => simp_all

/-- Of two symbols at the front of one text, the longer one begins with the other. -/
theorem beginsWith_of_byteLength_le {text a b : List Char} (ha : beginsWith cs text a = true)
    (hb : beginsWith cs text b = true) (h : byteLength b ≤ byteLength a) :
    beginsWith cs a b = true := by
  induction b generalizing text a with
  | nil => unfold beginsWith; rfl
  | cons d b ih =>
      cases text with
      | nil => cases hb
      | cons c text =>
          cases a with
          | nil =>
              have := d.utf8Size_pos
              simp only [byteLength_cons, byteLength_nil] at h
              omega
          | cons e a =>
              simp only [beginsWith, Bool.and_eq_true] at ha hb ⊢
              have hc := sameChar_utf8Size ha.1
              have hd := sameChar_utf8Size hb.1
              simp only [byteLength_cons] at h
              exact ⟨sameChar_of_sameChar ha.1 hb.1, ih ha.2 hb.2 (by omega)⟩

end symbols

/-! ### Operators -/

theorem Grammar.operatorAt?_eq_some {g : Grammar} {text : List Char} {symbol : String}
    (h : g.operatorAt? text = some symbol) :
    symbol ∈ g.operatorSymbols ∧ g.startsWith text symbol = true := by
  have hfound := List.find?_some h
  rw [Bool.and_eq_true] at hfound
  exact ⟨List.mem_of_find?_eq_some h, hfound.1⟩

end OperatorGrammar
