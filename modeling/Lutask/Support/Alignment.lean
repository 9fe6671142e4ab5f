import Mathlib.Data.Nat.Bitwise
import Mathlib.Tactic.Ring

/-!
# Rounding to a power of two

A mask with `k` low bits clear rounds a machine word down to a multiple of `2 ^ k`. Rounding up is its
lower adjoint on the naturals, so a bound on a rounded word is a bound on the word itself.
-/

namespace Alignment

/-- The least multiple of `2 ^ k` that is not below `a`. -/
def roundUp (k a : ℕ) : ℕ := (a + (2 ^ k - 1)) / 2 ^ k * 2 ^ k

/-- `x & ~(2 ^ k - 1)`. -/
def alignDown {w : ℕ} (k : ℕ) (x : BitVec w) : BitVec w := x &&& ~~~BitVec.ofNat w (2 ^ k - 1)

variable {w k : ℕ} {x : BitVec w} {a b : ℕ}

/-- Clearing the low bits is a division and a multiplication. -/
theorem toNat_alignDown (k : ℕ) (x : BitVec w) : (alignDown k x).toNat = x.toNat / 2 ^ k * 2 ^ k := by
  apply Nat.eq_of_testBit_eq
  intro i
  rw [Nat.testBit_mul_two_pow, Nat.testBit_div_two_pow, alignDown, BitVec.testBit_toNat, BitVec.getLsbD_and,
    BitVec.getLsbD_not, BitVec.getLsbD_ofNat, Nat.testBit_two_pow_sub_one, BitVec.testBit_toNat]
  by_cases hi : i < w
  · by_cases hk : k ≤ i
    · simp [hi, hk, Nat.not_lt.mpr hk]
    · simp [hi, hk, Nat.lt_of_not_le hk]
  · have hx : x.getLsbD i = false := BitVec.getLsbD_of_ge x i (by omega)
    by_cases hk : k ≤ i <;> simp [hx, hk]

theorem alignDown_le (k : ℕ) (x : BitVec w) : (alignDown k x).toNat ≤ x.toNat := by
  rw [toNat_alignDown]
  exact Nat.div_mul_le_self _ _

theorem dvd_alignDown (k : ℕ) (x : BitVec w) : 2 ^ k ∣ (alignDown k x).toNat := by
  rw [toNat_alignDown]
  exact Nat.dvd_mul_left _ _

/-- Rounding up is adjoint to rounding down. -/
theorem le_div_mul_iff : a ≤ b / 2 ^ k * 2 ^ k ↔ roundUp k a ≤ b := by
  have hpos : 0 < 2 ^ k := Nat.two_pow_pos k
  unfold roundUp
  constructor
  · intro h
    calc (a + (2 ^ k - 1)) / 2 ^ k * 2 ^ k
        ≤ (b / 2 ^ k * 2 ^ k + (2 ^ k - 1)) / 2 ^ k * 2 ^ k :=
          Nat.mul_le_mul_right _ (Nat.div_le_div_right (Nat.add_le_add_right h _))
      _ = b / 2 ^ k * 2 ^ k := by
          rw [Nat.add_comm, Nat.add_mul_div_right _ _ hpos, Nat.div_eq_of_lt (by omega), Nat.zero_add]
      _ ≤ b := Nat.div_mul_le_self _ _
  · intro h
    have hup : a ≤ (a + (2 ^ k - 1)) / 2 ^ k * 2 ^ k := by
      have hsplit := Nat.div_add_mod' (a + (2 ^ k - 1)) (2 ^ k)
      have hmod := Nat.mod_lt (a + (2 ^ k - 1)) hpos
      omega
    exact hup.trans (Nat.mul_le_mul_right _ ((Nat.le_div_iff_mul_le hpos).mpr h))

theorem le_alignDown_iff : a ≤ (alignDown k x).toNat ↔ roundUp k a ≤ x.toNat := by
  rw [toNat_alignDown, le_div_mul_iff]

/-- Rounding up does not depend on a multiple that is added. -/
theorem roundUp_add (k a : ℕ) (hb : 2 ^ k ∣ b) : roundUp k (a + b) = roundUp k a + b := by
  obtain ⟨c, rfl⟩ := hb
  have hpos : 0 < 2 ^ k := Nat.two_pow_pos k
  unfold roundUp
  rw [show a + 2 ^ k * c + (2 ^ k - 1) = a + (2 ^ k - 1) + 2 ^ k * c by ring,
    Nat.add_mul_div_left _ _ hpos]
  ring

theorem dvd_roundUp (k a : ℕ) : 2 ^ k ∣ roundUp k a := Nat.dvd_mul_left _ _

end Alignment
