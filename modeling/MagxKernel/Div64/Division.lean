import Mathlib.Algebra.Group.Nat.Defs

namespace MagxKernel.Div64

/-- The first loop: the divisor is doubled as long as it is positive as an
`int64_t` and less than `rem`. `none` when `fuel` turns do not end the loop. -/
def scale (rem : Nat) : (fuel b d : Nat) → Option (Nat × Nat)
  | 0, _, _ => none
  | fuel + 1, b, d =>
    if (0 < b ∧ b < 2 ^ 63) ∧ b < rem then
      scale rem fuel ((b + b) % 2 ^ 64) ((d + d) % 2 ^ 64)
    else some (b, d)

/-- The second loop, which ends when `d` has been shifted out. -/
def subtract : (fuel rem b res d : Nat) → Option (Nat × Nat)
  | 0, _, _, _, _ => none
  | fuel + 1, rem, b, res, d =>
    let left := if b ≤ rem then (rem - b) % 2 ^ 64 else rem
    let sum := if b ≤ rem then (res + d) % 2 ^ 64 else res
    if d / 2 = 0 then some (sum, left) else subtract fuel left (b / 2) sum (d / 2)

/-- Both loops. -/
def divide (fuel rem res base : Nat) : Option (Nat × Nat) := do
  let (b, d) ← scale rem fuel base 1
  let (res, rem) ← subtract fuel rem b res d
  return (res, rem % 2 ^ 32)

/-- `__div64_32`: what it stores in `*n` and what it returns. -/
def div6432 (fuel n base : Nat) : Option (Nat × Nat) :=
  let high := n / 2 ^ 32
  if base ≤ high then
    divide fuel (n - high / base * base % 2 ^ 32 * 2 ^ 32) (high / base * 2 ^ 32 % 2 ^ 64) base
  else divide fuel n 0 base

section

variable {base rem : Nat} (positive : 1 ≤ base)

include positive

theorem exponent_lt (k : Nat) (fits : base * 2 ^ k < 2 ^ 64) : k < 64 := by
  have power : 2 ^ k ≤ base * 2 ^ k := Nat.le_mul_of_pos_left _ positive
  exact (Nat.pow_lt_pow_iff_right (by decide)).mp (Nat.lt_of_le_of_lt power fits)

/-- The scaled divisor is more than half of `rem`. -/
theorem scale_spec (rem_lt : rem < 2 ^ 64) (fuel k : Nat) (fits : base * 2 ^ k < 2 ^ 64)
    (enough : 64 ≤ k + fuel) : ∃ j, scale rem fuel (base * 2 ^ k) (2 ^ k) =
      some (base * 2 ^ j, 2 ^ j) ∧ j < 64 ∧ rem < 2 * (base * 2 ^ j) := by
  have bound := exponent_lt positive k fits
  induction fuel generalizing k with
  | zero => omega
  | succ fuel ih =>
    have power : 2 ^ k ≤ base * 2 ^ k := Nat.le_mul_of_pos_left _ positive
    rw [scale]
    split
    · have double : base * 2 ^ k + base * 2 ^ k = base * 2 ^ (k + 1) := by
        rw [Nat.pow_succ, ← Nat.mul_assoc, Nat.mul_two]
      have fits' : base * 2 ^ (k + 1) < 2 ^ 64 := by omega
      rw [Nat.mod_eq_of_lt (by omega), Nat.mod_eq_of_lt (by omega), double, ← Nat.two_pow_succ]
      exact ih (k + 1) fits' (by omega) (exponent_lt positive _ fits')
    · have filled := Nat.two_pow_pos k
      exact ⟨k, rfl, bound, by omega⟩

/-- A turn of the second loop takes a multiple of `base` out of `rem` and adds it to `res`. -/
theorem subtract_turn (fuel res d : Nat) (below : rem < 2 * (base * d)) (rem_lt : rem < 2 ^ 64)
    (fits : res + rem / base < 2 ^ 64) : ∃ left sum, left < base * d ∧ left ≤ rem ∧
      sum + left / base = res + rem / base ∧ left % base = rem % base ∧
      subtract (fuel + 1) rem (base * d) res d = if d / 2 = 0 then some (sum, left)
        else subtract fuel left (base * d / 2) sum (d / 2) := by
  by_cases more : base * d ≤ rem
  · obtain ⟨left, rfl⟩ := Nat.exists_eq_add_of_le' more
    have quotient := Nat.zero_le (left / base)
    rw [Nat.add_mul_div_left _ _ positive] at fits ⊢
    refine ⟨left, res + d, by omega, by omega, by omega, (Nat.add_mul_mod_self_left ..).symm, ?_⟩
    rw [subtract, if_pos more, if_pos more, Nat.add_sub_cancel, Nat.mod_eq_of_lt (by omega),
      Nat.mod_eq_of_lt (by omega)]
  · refine ⟨rem, res, by omega, Nat.le_refl _, rfl, rfl, ?_⟩
    rw [subtract, if_neg more, if_neg more]

theorem subtract_spec (fuel k res : Nat) (enough : k < fuel) (below : rem < 2 * (base * 2 ^ k))
    (rem_lt : rem < 2 ^ 64) (fits : res + rem / base < 2 ^ 64) :
    subtract fuel rem (base * 2 ^ k) res (2 ^ k) = some (res + rem / base, rem % base) := by
  induction k generalizing fuel rem res with
  | zero =>
    obtain ⟨fuel, rfl⟩ := Nat.exists_eq_add_one_of_ne_zero (Nat.ne_zero_of_lt enough)
    obtain ⟨left, sum, small, _, quotient, remainder, stepped⟩ :=
      subtract_turn positive fuel res _ below rem_lt fits
    rw [Nat.pow_zero, Nat.mul_one] at small
    rw [stepped, if_pos (by decide), ← quotient, ← remainder, Nat.div_eq_of_lt small,
      Nat.mod_eq_of_lt small, Nat.add_zero]
  | succ k ih =>
    obtain ⟨fuel, rfl⟩ := Nat.exists_eq_add_one_of_ne_zero (Nat.ne_zero_of_lt enough)
    obtain ⟨left, sum, small, less, quotient, remainder, stepped⟩ :=
      subtract_turn positive fuel res _ below rem_lt fits
    rw [Nat.pow_succ, ← Nat.mul_assoc] at small stepped ⊢
    rw [Nat.mul_div_cancel _ (by decide), Nat.mul_div_cancel _ (by decide),
      if_neg (Nat.ne_of_gt (Nat.two_pow_pos k))] at stepped
    rw [stepped, ← quotient, ← remainder]
    exact ih fuel sum (by omega) (by omega) (by omega) (by omega)

/-- The loops divide what the reduction of the high word has left. -/
theorem divide_eq {n fuel res : Nat} (n_lt : n < 2 ^ 64) (base_lt : base < 2 ^ 32)
    (enough : 64 ≤ fuel) (split : rem + base * res = n) :
    divide fuel rem res base = some (n / base, n % base) := by
  obtain ⟨j, scaled, bound, below⟩ := scale_spec positive (by omega : rem < 2 ^ 64) fuel 0
    (by omega) (by omega)
  have quotient : res + rem / base = n / base := by
    rw [← split, Nat.add_mul_div_left _ _ positive, Nat.add_comm]
  have remainder : rem % base = n % base := by
    rw [← split, Nat.add_mul_mod_self_left]
  have whole := Nat.div_le_self n base
  have small := Nat.mod_lt n positive
  have divided := subtract_spec positive fuel j res (by omega) below (by omega) (by omega)
  rw [Nat.pow_zero, Nat.mul_one] at scaled
  rw [quotient, remainder] at divided
  simp only [divide, scaled, divided, Option.bind_eq_bind, Option.bind_some, Option.pure_def]
  rw [Nat.mod_eq_of_lt (by omega)]

theorem div6432_eq (fuel n : Nat) (n_lt : n < 2 ^ 64) (base_lt : base < 2 ^ 32)
    (enough : 64 ≤ fuel) : div6432 fuel n base = some (n / base, n % base) := by
  unfold div6432
  extract_lets high
  split
  · have product : high / base * base ≤ high := Nat.div_mul_le_self high base
    have quotient : high / base ≤ high := Nat.div_le_self high base
    apply divide_eq positive n_lt base_lt enough
    rw [Nat.mod_eq_of_lt (by omega), Nat.mod_eq_of_lt (by omega), ← Nat.mul_assoc,
      Nat.mul_comm base, Nat.sub_add_cancel (by omega)]
  · exact divide_eq positive n_lt base_lt enough rfl

end

theorem div6432_eq_thousand :
    div6432 64 (2 ^ 64 - 1) 1000 = some ((2 ^ 64 - 1) / 1000, (2 ^ 64 - 1) % 1000) :=
  div6432_eq (by decide) 64 (2 ^ 64 - 1) (by decide) (by decide) (by decide)

end MagxKernel.Div64
