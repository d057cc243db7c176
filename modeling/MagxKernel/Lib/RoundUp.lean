import Mathlib.Algebra.Group.Nat.Defs
import Mathlib.Algebra.Order.Group.Nat

namespace MagxKernel.RoundUp

/-- The least multiple of `align` that is not below `x`. -/
def roundUp (x align : Nat) : Nat := (x + align - 1) / align * align

variable {x y align : Nat}

theorem dvd_roundUp (x align : Nat) : align ∣ roundUp x align :=
  Nat.dvd_mul_left align _

theorem le_roundUp (x : Nat) (positive : 0 < align) : x ≤ roundUp x align := by
  have division := Nat.div_add_mod (x + align - 1) align
  have remainder := Nat.mod_lt (x + align - 1) positive
  rw [Nat.mul_comm] at division
  unfold roundUp
  omega

theorem roundUp_le (positive : 0 < align) (multiple : align ∣ y) (below : x ≤ y) :
    roundUp x align ≤ y := by
  obtain ⟨count, rfl⟩ := multiple
  have quotient : (x + align - 1) / align < count + 1 := by
    apply Nat.div_lt_of_lt_mul
    rw [Nat.mul_add]
    omega
  unfold roundUp
  rw [Nat.mul_comm]
  exact Nat.mul_le_mul_left align (Nat.le_of_lt_succ quotient)

theorem roundUp_mono (positive : 0 < align) (order : x ≤ y) : roundUp x align ≤ roundUp y align :=
  roundUp_le positive (dvd_roundUp y align) (Nat.le_trans order (le_roundUp y positive))

theorem add_le_of_dvd_of_lt (lower : align ∣ x) (upper : align ∣ y) (less : x < y) :
    x + align ≤ y := by
  have gap : align ∣ y - x := Nat.dvd_sub upper lower
  have step := Nat.le_of_dvd (by omega) gap
  omega

/-- No wrap in a machine word whose size is a multiple of `align`. -/
theorem wrapped_roundUp {word : Nat} (positive : 0 < align) (whole : align ∣ word)
    (small : roundUp x align < word) :
    (x + align - 1) % word / align * align = roundUp x align := by
  have above := le_roundUp x positive
  have room := add_le_of_dvd_of_lt (dvd_roundUp x align) whole small
  rw [Nat.mod_eq_of_lt (by omega)]
  rfl

end MagxKernel.RoundUp
