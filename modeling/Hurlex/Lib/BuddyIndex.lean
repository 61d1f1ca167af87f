import Mathlib.Data.Nat.Bitwise
import Mathlib.Tactic.Ring

/-!
# Buddy indexes

Two segments of `2 ^ o` cells whose first cells differ in bit `o` only are buddies. `buddy i o` is
the other one of the pair and `mergeBase i o` the lower of the two, written with the bit operations
a program uses; the theorems turn both into sums and differences. None of them asks for `i` to be a
multiple of `2 ^ o`: the two segments touch for every `i`.
-/

namespace Hurlex.Lib

/-- `i` with bit `o` flipped. -/
def buddy (i o : Nat) : Nat := i ^^^ (1 <<< o)

/-- `i` and its buddy, bit by bit. -/
def mergeBase (i o : Nat) : Nat := i &&& buddy i o

theorem buddy_buddy (i o : Nat) : buddy (buddy i o) o = i := by
  rw [buddy, buddy, Nat.xor_assoc, Nat.xor_self, Nat.xor_zero]

theorem testBit_iff_odd {i o : Nat} : i.testBit o = true ↔ Odd (i / 2 ^ o) := by
  rw [Nat.testBit_eq_decide_div_mod_eq, decide_eq_true_iff, Nat.odd_iff]

/-- A number is its part from bit `o` on and the rest. -/
theorem div_add_mod_two_pow (i o : Nat) : i = 2 ^ o * (i / 2 ^ o) + i % 2 ^ o :=
  (Nat.div_add_mod i (2 ^ o)).symm

theorem buddy_eq (i o : Nat) : buddy i o = 2 ^ o * (i / 2 ^ o ^^^ 1) + i % 2 ^ o := by
  have h1 : (buddy i o) / 2 ^ o = i / 2 ^ o ^^^ 1 := by
    rw [buddy, Nat.one_shiftLeft, Nat.xor_div_two_pow, Nat.div_self (Nat.two_pow_pos o)]
  have h2 : (buddy i o) % 2 ^ o = i % 2 ^ o := by
    rw [buddy, Nat.one_shiftLeft, Nat.xor_mod_two_pow, Nat.mod_self, Nat.xor_zero]
  conv_lhs => rw [div_add_mod_two_pow (buddy i o) o, h1, h2]

/-- Without bit `o` the buddy is the segment behind. -/
theorem buddy_of_clear {i o : Nat} (h : i.testBit o = false) : buddy i o = i + 2 ^ o := by
  have heven : Even (i / 2 ^ o) := by
    rw [← Nat.not_odd_iff_even, ← testBit_iff_odd, h]
    simp
  rw [buddy_eq, Nat.xor_one_of_even heven]
  conv_rhs => rw [div_add_mod_two_pow i o]
  ring

/-- With bit `o` the buddy is the segment in front. -/
theorem buddy_of_set {i o : Nat} (h : i.testBit o = true) : buddy i o + 2 ^ o = i := by
  have hodd := testBit_iff_odd.mp h
  obtain ⟨k, hk⟩ := hodd
  rw [buddy_eq, Nat.xor_one_of_odd (testBit_iff_odd.mp h), hk]
  conv_rhs => rw [div_add_mod_two_pow i o, hk]
  simp only [Nat.add_sub_cancel]
  ring

theorem mergeBase_of_clear {i o : Nat} (h : i.testBit o = false) : mergeBase i o = i := by
  refine Nat.eq_of_testBit_eq fun k => ?_
  rw [mergeBase, buddy, Nat.one_shiftLeft, Nat.testBit_and, Nat.testBit_xor, Nat.testBit_two_pow]
  by_cases hk : o = k
  · rw [← hk, h, Bool.false_and]
  · simp [hk]

theorem mergeBase_of_set {i o : Nat} (h : i.testBit o = true) : mergeBase i o = buddy i o := by
  refine Nat.eq_of_testBit_eq fun k => ?_
  rw [mergeBase, buddy, Nat.one_shiftLeft, Nat.testBit_and, Nat.testBit_xor, Nat.testBit_two_pow]
  by_cases hk : o = k
  · rw [← hk, h]
    simp
  · simp [hk]

/-- **Two buddies touch**: the lower one of them is the merged segment's first cell. -/
theorem mergeBase_cases (i o : Nat) :
    (mergeBase i o = i ∧ buddy i o = i + 2 ^ o) ∨
      (mergeBase i o = buddy i o ∧ buddy i o + 2 ^ o = i) := by
  cases h : i.testBit o with
  | false => exact Or.inl ⟨mergeBase_of_clear h, buddy_of_clear h⟩
  | true => exact Or.inr ⟨mergeBase_of_set h, buddy_of_set h⟩

/-! ## Aligned indexes -/

theorem clear_of_dvd {i o : Nat} (h : 2 ^ (o + 1) ∣ i) : i.testBit o = false := by
  obtain ⟨k, rfl⟩ := h
  rw [← Bool.not_eq_true, testBit_iff_odd, pow_succ, Nat.mul_assoc,
    Nat.mul_div_cancel_left _ (Nat.two_pow_pos o)]
  simp

/-- An aligned segment and its buddy make an aligned segment of twice the size. -/
theorem mergeBase_aligned {i o : Nat} (h : 2 ^ o ∣ i) : 2 ^ (o + 1) ∣ mergeBase i o := by
  obtain ⟨q, rfl⟩ := h
  have hq : 2 ^ o * q / 2 ^ o = q := Nat.mul_div_cancel_left _ (Nat.two_pow_pos o)
  cases hbit : (2 ^ o * q).testBit o with
  | false =>
    have heven : Even q := by
      rw [← Nat.not_odd_iff_even, ← hq, ← testBit_iff_odd, hbit]
      simp
    obtain ⟨k, rfl⟩ := heven.two_dvd
    rw [mergeBase_of_clear hbit]
    exact ⟨k, by ring⟩
  | true =>
    have hodd := testBit_iff_odd.mp hbit
    rw [hq] at hodd
    obtain ⟨k, rfl⟩ := hodd
    have := buddy_of_set hbit
    rw [mergeBase_of_set hbit]
    refine ⟨k, ?_⟩
    have hsum : 2 ^ o * (2 * k + 1) = 2 ^ (o + 1) * k + 2 ^ o := by ring
    omega

theorem buddy_aligned {i o : Nat} (h : 2 ^ o ∣ i) : 2 ^ o ∣ buddy i o := by
  rw [buddy_eq, Nat.mod_eq_zero_of_dvd h, Nat.add_zero]
  exact Nat.dvd_mul_right _ _

/-! ## The bits of a size, from the lowest -/

/-- Taking the lowest bit off. -/
theorem lt_of_two_pow_le {n o k : Nat} (hle : 2 ^ o ≤ n) (hn : n < 2 ^ k) : o < k :=
  (Nat.pow_lt_pow_iff_right Nat.one_lt_two).mp (hle.trans_lt hn)

theorem dvd_sub_of_and {n o : Nat} (hd : 2 ^ o ∣ n) (h : n &&& 2 ^ o ≠ 0) :
    2 ^ (o + 1) ∣ n - 2 ^ o := by
  obtain ⟨q, rfl⟩ := hd
  have hodd : Odd q := by
    rw [Nat.and_two_pow, ne_eq, Nat.mul_eq_zero, not_or] at h
    have hbit : (2 ^ o * q).testBit o = true := by
      by_contra hb
      rw [Bool.not_eq_true] at hb
      simp [hb] at h
    have := testBit_iff_odd.mp hbit
    rwa [Nat.mul_div_cancel_left _ (Nat.two_pow_pos o)] at this
  obtain ⟨k, rfl⟩ := hodd
  refine ⟨k, ?_⟩
  have : 2 ^ o * (2 * k + 1) = 2 ^ (o + 1) * k + 2 ^ o := by ring
  omega

/-- A clear bit. -/
theorem dvd_of_and {n o : Nat} (hd : 2 ^ o ∣ n) (h : n &&& 2 ^ o = 0) : 2 ^ (o + 1) ∣ n := by
  obtain ⟨q, rfl⟩ := hd
  have heven : Even q := by
    rw [← Nat.not_odd_iff_even]
    intro hodd
    have hbit : (2 ^ o * q).testBit o = true := by
      rw [testBit_iff_odd, Nat.mul_div_cancel_left _ (Nat.two_pow_pos o)]
      exact hodd
    rw [Nat.and_two_pow, hbit] at h
    simp at h
  obtain ⟨k, rfl⟩ := heven.two_dvd
  exact ⟨k, by ring⟩

end Hurlex.Lib
