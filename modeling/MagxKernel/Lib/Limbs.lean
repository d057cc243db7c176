import Mathlib.Algebra.Group.Nat.Defs
import Mathlib.Algebra.Order.Group.Nat
import Mathlib.Data.Nat.Bitwise

namespace MagxKernel.Limbs

variable {w : Nat} {words other : Nat → BitVec w} {n : Nat}

/-- The number in the first words of an array, least significant word first. -/
def value (words : Nat → BitVec w) : Nat → Nat
  | 0 => 0
  | n + 1 => value words n + (words n).toNat * 2 ^ (w * n)

theorem value_lt (words : Nat → BitVec w) (n : Nat) : value words n < 2 ^ (w * n) := by
  induction n with
  | zero => exact Nat.one_pos
  | succ n ih =>
    have word := (words n).isLt
    calc value words n + (words n).toNat * 2 ^ (w * n)
        < 2 ^ (w * n) + (words n).toNat * 2 ^ (w * n) := Nat.add_lt_add_right ih _
      _ = ((words n).toNat + 1) * 2 ^ (w * n) := by rw [Nat.add_mul, Nat.one_mul, Nat.add_comm]
      _ ≤ 2 ^ w * 2 ^ (w * n) := Nat.mul_le_mul_right _ word
      _ = 2 ^ (w * (n + 1)) := by rw [← Nat.pow_add, Nat.mul_add, Nat.mul_one, Nat.add_comm]

theorem value_congr (same : ∀ k < n, words k = other k) : value words n = value other n := by
  induction n with
  | zero => rfl
  | succ n ih =>
    rw [value, value, ih fun k below => same k (by omega), same n (Nat.lt_succ_self n)]

theorem value_eq_zero (zero : ∀ k < n, words k = 0) : value words n = 0 := by
  induction n with
  | zero => rfl
  | succ n ih =>
    rw [value, ih fun k below => zero k (by omega), zero n (Nat.lt_succ_self n)]
    simp

theorem value_succ (words : Nat → BitVec w) (n : Nat) :
    value words (n + 1) = (words 0).toNat + 2 ^ w * value (fun k => words (k + 1)) n := by
  induction n with
  | zero => simp [value]
  | succ n ih =>
    have power : 2 ^ (w * (n + 1)) = 2 ^ w * 2 ^ (w * n) := by
      rw [← Nat.pow_add, Nat.mul_add, Nat.mul_one, Nat.add_comm]
    rw [value, ih, value, power, Nat.mul_add, Nat.mul_left_comm, Nat.add_assoc]

theorem testBit_value {bit : Nat} (inside : bit < w * n) :
    (value words n).testBit bit = (words (bit / w)).getLsbD (bit % w) := by
  induction n with
  | zero => exact absurd inside (Nat.not_lt_zero _)
  | succ n ih =>
    rw [value, Nat.add_comm, Nat.mul_comm (words n).toNat,
      Nat.testBit_two_pow_mul_add _ (value_lt words n)]
    split
    next low => exact ih low
    next high =>
      have quotient : bit / w = n := by
        apply Nat.div_eq_of_lt_le
        · rw [Nat.mul_comm]
          exact Nat.not_lt.mp high
        · rw [Nat.mul_comm]
          exact inside
      have remainder : bit % w = bit - w * n := by
        rw [Nat.mod_eq_sub_mul_div, quotient]
      rw [quotient, remainder]
      rfl

end MagxKernel.Limbs
