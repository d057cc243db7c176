import Mathlib.Algebra.Group.Nat.Defs
import MagxKernel.Lib.Buffer

namespace MagxKernel.BitStream

open List

/-- The number that `count` bits from `start` on write, the first bit the highest. -/
def value (bit : Nat → Bool) (start : Nat) : Nat → Nat
  | 0 => 0
  | count + 1 => 2 * value bit start count + (bit (start + count)).toNat

variable {bit other : Nat → Bool}

theorem value_lt (bit : Nat → Bool) (start count : Nat) : value bit start count < 2 ^ count := by
  induction count with
  | zero => exact Nat.one_pos
  | succ count ih =>
    have top := Bool.toNat_le (bit (start + count))
    rw [value, Nat.pow_succ]
    omega

theorem value_congr {start count : Nat}
    (same : ∀ index, start ≤ index → index < start + count → bit index = other index) :
    value bit start count = value other start count := by
  induction count with
  | zero => rfl
  | succ count ih =>
    rw [value, value, ih fun index low high => same index low (by omega),
      same (start + count) (by omega) (by omega)]

theorem value_succ_left (bit : Nat → Bool) (start count : Nat) :
    value bit start (count + 1) = (bit start).toNat * 2 ^ count + value bit (start + 1) count := by
  induction count with
  | zero => simp [value]
  | succ count ih =>
    rw [value, ih, value, show start + 1 + count = start + (count + 1) by omega, Nat.pow_succ]
    have expand : (bit start).toNat * (2 ^ count * 2) = 2 * ((bit start).toNat * 2 ^ count) := by
      rw [← Nat.mul_assoc, Nat.mul_comm]
    omega

/-- The register loses its first bit and takes in the next one. -/
theorem value_shift (bit : Nat → Bool) (start count : Nat) :
    value bit (start + 1) (count + 1) =
      2 * (value bit start (count + 1) % 2 ^ count) + (bit (start + (count + 1))).toNat := by
  have tail : value bit start (count + 1) % 2 ^ count = value bit (start + 1) count := by
    rw [value_succ_left, Nat.mul_comm, Nat.mul_add_mod]
    exact Nat.mod_eq_of_lt (value_lt bit (start + 1) count)
  rw [tail, value, show start + 1 + count = start + (count + 1) by omega]

/-- When the register is inside the doubled interval after a shift, it was inside
the interval before. -/
theorem inside_of_shift {start count low width : Nat} (narrow : low < 2 ^ (count + 1))
    (first : bit start = decide (2 ^ count ≤ low))
    (above : 2 * (low % 2 ^ count) ≤ value bit (start + 1) (count + 1))
    (below : value bit (start + 1) (count + 1) < 2 * (low % 2 ^ count) + 2 * width) :
    low ≤ value bit start (count + 1) ∧ value bit start (count + 1) < low + width := by
  have top := Bool.toNat_le (bit (start + 1 + count))
  rw [value] at above below
  rw [value_succ_left, first]
  by_cases high : 2 ^ count ≤ low
  · have rest : low % 2 ^ count = low - 2 ^ count := by
      rw [Nat.mod_eq_sub_mod high, Nat.mod_eq_of_lt (by omega)]
    rw [decide_eq_true high, Bool.toNat_true, Nat.one_mul]
    omega
  · have rest : low % 2 ^ count = low := Nat.mod_eq_of_lt (by omega)
    rw [decide_eq_false high, Bool.toNat_false, Nat.zero_mul]
    omega

/-- The bits of a buffer, each byte from its highest bit on. -/
def bitAt (buffer : List UInt8) (index : Nat) : Bool :=
  (buffer.getD (index / 8) 0).toBitVec.getLsbD (7 - index % 8)

/-- A byte with one bit set or cleared. -/
def putBit (byte : UInt8) (place : Nat) (bit : Bool) : UInt8 :=
  if bit then ⟨byte.toBitVec ||| (1#8 <<< place)⟩ else ⟨byte.toBitVec &&& ~~~(1#8 <<< place)⟩

theorem getLsbD_putBit (byte : UInt8) {place index : Nat} (bit : Bool) (small : place < 8)
    (inside : index < 8) :
    (putBit byte place bit).toBitVec.getLsbD index =
      if index = place then bit else byte.toBitVec.getLsbD index := by
  unfold putBit
  by_cases here : index = place
  · cases bit <;> simp [here, small, Nat.mod_eq_of_lt small]
  by_cases before : index < place
  · cases bit <;> simp [here, before, inside]
  · cases bit <;> simp [here, before, inside] <;> omega

theorem bitAt_set {buffer : List UInt8} {place : Nat} (inside : place / 8 < buffer.length)
    (bit : Bool) (index : Nat) :
    bitAt (buffer.set (place / 8) (putBit buffer[place / 8] (7 - place % 8) bit)) index =
      if index = place then bit else bitAt buffer index := by
  unfold bitAt
  by_cases byte : index / 8 = place / 8
  · rw [byte, getD_eq_getElem?_getD, getElem?_set_self inside, Option.getD_some,
      getLsbD_putBit _ _ (by omega) (by omega), getD_eq_getElem?_getD,
      getElem?_eq_getElem inside, Option.getD_some]
    by_cases here : index = place
    · rw [if_pos here, if_pos (by rw [here])]
    · rw [if_neg here, if_neg (by omega)]
  · rw [if_neg fun wrong => byte (by rw [wrong]), getD_eq_getElem?_getD,
      getElem?_set_ne (Ne.symm byte), ← getD_eq_getElem?_getD]

theorem bitAt_take (buffer : List UInt8) {count index : Nat} (inside : index < 8 * count) :
    bitAt (buffer.take count) index = bitAt buffer index := by
  unfold bitAt
  rw [getD_eq_getElem?_getD, getElem?_take_of_lt (by omega),
    ← getD_eq_getElem?_getD]

end MagxKernel.BitStream
