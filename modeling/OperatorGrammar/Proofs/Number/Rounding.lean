import Mathlib.Algebra.Order.Field.Power
import Mathlib.Algebra.Order.Ring.Rat
import Mathlib.Tactic.Linarith
import Mathlib.Tactic.Ring
import OperatorGrammar.Number.Decimal

/-! # Decimals that round to a double

A decimal that is printed for a double lies in the range of the numbers that round to it
(`roundsTo_shortest`).  The range reaches halfway to the doubles next to it, and the point halfway
belongs to the one of the two whose significand is even, so that no number is in the ranges of two
doubles (`eq_of_roundsTo`).  Hence the decimal tells the double that it was printed for
(`eq_of_value_shortest`). -/

namespace OperatorGrammar

/-- The number that a decimal stands for. -/
def Decimal.value (d : Decimal) : ℚ := d.coefficient * 10 ^ d.exponent

/-- The form in which a double is taken apart: its significand has at most 53 bits, and has fewer
only at the least exponent. -/
structure Double.Normal (significand : ℕ) (exponent : ℤ) : Prop where
  lt_pow : significand < 2 ^ 53
  le_exponent : -1074 ≤ exponent
  full : 2 ^ 52 ≤ significand ∨ exponent = -1074

/-- How many quarters of a unit the range of a double reaches downwards. -/
def quartersBelow (significand : ℕ) (exponent : ℤ) : ℕ :=
  if significand = 2 ^ 52 ∧ -1074 < exponent then 1 else 2

/-- The numbers that round to `significand · 2 ^ exponent`, in quarters of its unit; those at the
ends round to an even significand only. -/
structure RoundsTo (significand : ℕ) (exponent : ℤ) (q : ℚ) : Prop where
  low : ((4 * significand - quartersBelow significand exponent : ℕ) : ℚ) * 2 ^ (exponent - 2) ≤ q
  high : q ≤ ((4 * significand + 2 : ℕ) : ℚ) * 2 ^ (exponent - 2)
  inside : significand % 2 = 1 →
    ((4 * significand - quartersBelow significand exponent : ℕ) : ℚ) * 2 ^ (exponent - 2) < q ∧
      q < ((4 * significand + 2 : ℕ) : ℚ) * 2 ^ (exponent - 2)

section ranges

variable {m m' : ℕ} {e e' : ℤ} {q : ℚ}

theorem quartersBelow_cases (m : ℕ) (e : ℤ) :
    m = 2 ^ 52 ∧ -1074 < e ∧ quartersBelow m e = 1 ∨
      ¬ (m = 2 ^ 52 ∧ -1074 < e) ∧ quartersBelow m e = 2 := by
  unfold quartersBelow
  by_cases h : m = 2 ^ 52 ∧ -1074 < e
  · rw [if_pos h]
    exact Or.inl ⟨h.1, h.2, rfl⟩
  · rw [if_neg h]
    exact Or.inr ⟨h, rfl⟩

/-- The range of a double ends where that of the next one begins, or before it; they have the point
in common only if one of the two significands is odd. -/
theorem ends_of_lt (h : Double.Normal m e) (h' : Double.Normal m' e') {k : ℕ} (he : e' = e + k)
    (lt : 0 < k ∨ m < m') :
    4 * m + 2 ≤ (4 * m' - quartersBelow m' e') * 2 ^ k ∧
      (4 * m + 2 = (4 * m' - quartersBelow m' e') * 2 ^ k → m % 2 = 1 ∨ m' % 2 = 1) := by
  have hm := h.lt_pow
  have hle := h.le_exponent
  cases k with
  | zero =>
      rw [pow_zero, mul_one]
      rcases quartersBelow_cases m' e' with ⟨-, -, hb⟩ | ⟨-, hb⟩
      · omega
      · omega
  | succ k =>
      have hfull : 2 ^ 52 ≤ m' := h'.full.resolve_right (by omega)
      have hone : 1 ≤ 2 ^ k := Nat.one_le_two_pow
      -- One exponent further up a unit is at least twice as large.
      have htwice : (4 * m' - quartersBelow m' e') * 2 ≤
          (4 * m' - quartersBelow m' e') * 2 ^ (k + 1) :=
        Nat.mul_le_mul_left _ (by omega)
      generalize (4 * m' - quartersBelow m' e') * 2 ^ (k + 1) = high at htwice ⊢
      rcases quartersBelow_cases m' e' with ⟨-, -, hb⟩ | ⟨hb', hb⟩
      · omega
      · have : m' ≠ 2 ^ 52 := fun heq => hb' ⟨heq, by omega⟩
        omega

theorem not_roundsTo_of_lt (h : Double.Normal m e) (h' : Double.Normal m' e') {k : ℕ}
    (he : e' = e + k) (lt : 0 < k ∨ m < m') (hq : RoundsTo m e q) : ¬ RoundsTo m' e' q := by
  intro hq'
  obtain ⟨hends, hodd⟩ := ends_of_lt h h' he lt
  have hunit : (0 : ℚ) < 2 ^ (e - 2) := zpow_pos two_pos _
  have hscale : ((4 * m' - quartersBelow m' e' : ℕ) : ℚ) * 2 ^ (e' - 2) =
      (((4 * m' - quartersBelow m' e') * 2 ^ k : ℕ) : ℚ) * 2 ^ (e - 2) := by
    rw [he, show e + k - 2 = (k : ℤ) + (e - 2) by ring, zpow_add₀ two_ne_zero, zpow_natCast]
    push_cast
    ring
  have hlow := hq'.low
  have hinside := hq'.inside
  rw [hscale] at hlow hinside
  have hmeet : 4 * m + 2 = (4 * m' - quartersBelow m' e') * 2 ^ k := by
    apply Nat.le_antisymm hends
    have := le_of_mul_le_mul_right (hlow.trans hq.high) hunit
    exact_mod_cast this
  rw [← hmeet] at hlow hinside
  rcases hodd hmeet with hm | hm'
  · exact absurd hlow (not_le.mpr (hq.inside hm).2)
  · exact absurd hq.high (not_le.mpr (hinside hm').1)

theorem eq_of_roundsTo (h : Double.Normal m e) (h' : Double.Normal m' e') (hq : RoundsTo m e q)
    (hq' : RoundsTo m' e' q) : m = m' ∧ e = e' := by
  rcases lt_trichotomy e e' with hlt | rfl | hlt
  · obtain ⟨k, hk⟩ := Int.eq_ofNat_of_zero_le (Int.sub_nonneg_of_le hlt.le)
    exact absurd hq' (not_roundsTo_of_lt h h' (k := k) (by omega) (Or.inl (by omega)) hq)
  · rcases lt_trichotomy m m' with hlt | rfl | hlt
    · exact absurd hq' (not_roundsTo_of_lt h h' (k := 0) (by simp) (Or.inr hlt) hq)
    · exact ⟨rfl, rfl⟩
    · exact absurd hq (not_roundsTo_of_lt h' h (k := 0) (by simp) (Or.inr hlt) hq')
  · obtain ⟨k, hk⟩ := Int.eq_ofNat_of_zero_le (Int.sub_nonneg_of_le hlt.le)
    exact absurd hq (not_roundsTo_of_lt h' h (k := k) (by omega) (Or.inl (by omega)) hq')

end ranges

/-! ### The decimal that is printed -/

namespace Decimal

theorem value_ofBinary_one (e : ℤ) : (ofBinary 1 e).value = 2 ^ e := by
  unfold ofBinary value
  by_cases he : 0 ≤ e
  · rw [if_pos he]
    lift e to ℕ using he
    simp
  · rw [if_neg he]
    obtain ⟨k, rfl⟩ : ∃ k : ℕ, e = -k := ⟨(-e).toNat, by omega⟩
    simp only [neg_neg, Int.toNat_natCast, one_mul, Nat.pow_eq, Nat.cast_pow, Nat.cast_ofNat,
      zpow_neg, zpow_natCast]
    rw [show (10 : ℚ) = 5 * 2 by norm_num, mul_pow, mul_inv,
      mul_inv_cancel_left₀ (pow_ne_zero k (by norm_num))]

namespace RoundingRange

variable {r : RoundingRange} {m n : ℕ} {e : ℤ}

/-- Whatever is given up of the value, the decimal that is left lies in the range. -/
theorem exists_shortest (h : r.contains r.value = true) (drop : ℕ) :
    ∃ j : ℕ, (r.shortest drop).exponent = r.exponent + j ∧
      r.contains ((r.shortest drop).coefficient * 10 ^ j) = true := by
  induction drop with
  | zero => exact ⟨0, by simp [shortest], by simpa [shortest] using h⟩
  | succ drop ih =>
      unfold shortest
      simp only [Nat.pow_eq]
      split
      · next hdown hup =>
        split
        · exact ⟨drop + 1, rfl, hdown⟩
        · exact ⟨drop + 1, rfl, hup⟩
      · next hdown _ => exact ⟨drop + 1, rfl, hdown⟩
      · next _ hup => exact ⟨drop + 1, rfl, hup⟩
      · exact ih

theorem mul_quarter (a : ℕ) (e : ℤ) : (a : ℚ) * 2 ^ (e - 2) =
    ((a * (Decimal.ofBinary 1 (e - 2)).coefficient : ℕ) : ℚ) *
      10 ^ (Decimal.ofBinary 1 (e - 2)).exponent := by
  rw [← value_ofBinary_one, Decimal.value, Nat.cast_mul, mul_assoc]

theorem contains_eq_true : (ofBinary m e).contains n = true ↔
    ((4 * m - quartersBelow m e) * (Decimal.ofBinary 1 (e - 2)).coefficient ≤ n ∧
      n ≤ (4 * m + 2) * (Decimal.ofBinary 1 (e - 2)).coefficient) ∧
    (m % 2 = 1 →
      (4 * m - quartersBelow m e) * (Decimal.ofBinary 1 (e - 2)).coefficient < n ∧
        n < (4 * m + 2) * (Decimal.ofBinary 1 (e - 2)).coefficient) := by
  have hquarters : (if m = Nat.pow 2 52 ∧ -1074 < e then 1 else 2) = quartersBelow m e := rfl
  unfold contains ofBinary
  simp only [hquarters, decide_eq_true_eq]
  split
  · next heven => simp [heven]
  · next hodd =>
    have hodd : m % 2 = 1 := by omega
    simp only [Bool.and_eq_true, decide_eq_true_eq, hodd, true_implies]
    omega

/-- The numbers of the range round to the double. -/
theorem roundsTo_of_contains (h : (ofBinary m e).contains n = true) :
    RoundsTo m e (n * 10 ^ (ofBinary m e).exponent) := by
  obtain ⟨⟨hlow, hhigh⟩, hinside⟩ := contains_eq_true.mp h
  have hscale : (0 : ℚ) < 10 ^ (Decimal.ofBinary 1 (e - 2)).exponent := zpow_pos (by norm_num) _
  refine ⟨?_, ?_, fun hodd => ?_⟩
  · rw [mul_quarter]
    exact mul_le_mul_of_nonneg_right (Nat.cast_le.mpr hlow) hscale.le
  · rw [mul_quarter]
    exact mul_le_mul_of_nonneg_right (Nat.cast_le.mpr hhigh) hscale.le
  · obtain ⟨hlow, hhigh⟩ := hinside hodd
    rw [mul_quarter, mul_quarter]
    exact ⟨mul_lt_mul_of_pos_right (Nat.cast_lt.mpr hlow) hscale,
      mul_lt_mul_of_pos_right (Nat.cast_lt.mpr hhigh) hscale⟩

theorem coefficient_ofBinary_one_pos (e : ℤ) : 0 < (Decimal.ofBinary 1 e).coefficient := by
  unfold Decimal.ofBinary
  split <;> simp

theorem contains_value (pos : 0 < m) (e : ℤ) :
    (ofBinary m e).contains (ofBinary m e).value = true := by
  have hunit := coefficient_ofBinary_one_pos (e - 2)
  have hbelow : 4 * m - quartersBelow m e < 4 * m := by
    rcases quartersBelow_cases m e with ⟨-, -, hb⟩ | ⟨-, hb⟩ <;> omega
  have hlow := Nat.mul_lt_mul_of_pos_right hbelow hunit
  have hhigh := Nat.mul_lt_mul_of_pos_right (show 4 * m < 4 * m + 2 by omega) hunit
  exact contains_eq_true.mpr ⟨⟨hlow.le, hhigh.le⟩, fun _ => ⟨hlow, hhigh⟩⟩

end RoundingRange

/-- **The decimal that is printed rounds to the double that it is printed for.** -/
theorem roundsTo_shortest {m : ℕ} (pos : 0 < m) (e : ℤ) : RoundsTo m e (shortest m e).value := by
  obtain ⟨j, hexponent, hcontains⟩ := RoundingRange.exists_shortest
    (RoundingRange.contains_value pos e) (digits (RoundingRange.ofBinary m e).value).length
  have hrounds := RoundingRange.roundsTo_of_contains hcontains
  unfold value shortest
  rw [hexponent, zpow_add₀ (by norm_num), zpow_natCast]
  push_cast at hrounds
  rwa [mul_assoc, mul_comm (10 ^ j : ℚ)] at hrounds

/-- Two doubles for which decimals of one value are printed are the same. -/
theorem eq_of_value_shortest {m m' : ℕ} {e e' : ℤ} (h : Double.Normal m e)
    (h' : Double.Normal m' e') (pos : 0 < m) (pos' : 0 < m')
    (heq : (shortest m e).value = (shortest m' e').value) :
    m = m' ∧ e = e' :=
  eq_of_roundsTo h h' (roundsTo_shortest pos e) (heq ▸ roundsTo_shortest pos' e')

theorem value_shortest_pos {m : ℕ} (pos : 0 < m) (e : ℤ) : 0 < (shortest m e).value := by
  have hlow := (roundsTo_shortest pos e).low
  have hbelow : 0 < 4 * m - quartersBelow m e := by
    rcases quartersBelow_cases m e with ⟨-, -, hb⟩ | ⟨-, hb⟩ <;> omega
  exact (mul_pos (Nat.cast_pos.mpr hbelow) (zpow_pos two_pos _)).trans_le hlow

end Decimal

end OperatorGrammar
