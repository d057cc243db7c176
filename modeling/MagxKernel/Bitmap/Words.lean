import MagxKernel.Lib.Limbs
import MagxKernel.Lib.MachineInt

namespace MagxKernel.Bitmap

open Function
open MachineInt (s32 s32_of_range)

/-- An `unsigned long` of a bitmap. -/
abbrev Word := BitVec 32

/-- The array a bitmap is in. -/
abbrev Mask := Nat → Word

def bitsPerLong : Nat := 32

/-- `BITS_TO_LONGS`, in an `int`. A negative number of words counts as none. -/
def bitsToLongs (bits : Nat) : Nat := ((s32 (bits + 31)).tdiv 32).toNat

def testBit (mask : Mask) (bit : Nat) : Bool :=
  (mask (bit / bitsPerLong)).getLsbD (bit % bitsPerLong)

/-- A negative length is a huge one for `memset`, which then leaves the array and has no
result. -/
def bitmapZero (mask : Mask) (nbits : Nat) : Option Mask :=
  if nbits ≤ bitsPerLong then some (Function.update mask 0 0)
  else if s32 (nbits + 31) < 0 then none
  else some fun k => if k < bitsToLongs nbits then 0 else mask k

/-- The number in a bitmap. -/
def maskValue (mask : Mask) (nbits : Nat) : Nat := Limbs.value mask (bitsToLongs nbits)

variable {mask : Mask} {nbits : Nat}

section

variable (small : nbits + 31 < 2 ^ 31)

include small

theorem bitsToLongs_eq : bitsToLongs nbits = (nbits + 31) / 32 := by
  unfold bitsToLongs
  rw [s32_of_range _ (by omega) (by omega), Int.tdiv_eq_ediv_of_nonneg (by omega)]
  omega

theorem testBit_maskValue {bit : Nat} (inside : bit < nbits) :
    (maskValue mask nbits).testBit bit = testBit mask bit := by
  apply Limbs.testBit_value
  rw [bitsToLongs_eq small]
  omega

theorem maskValue_bitmapZero (mask : Mask) (positive : 0 < nbits) :
    ∃ zeroed, bitmapZero mask nbits = some zeroed ∧ maskValue zeroed nbits = 0 := by
  unfold bitmapZero bitsPerLong
  rw [s32_of_range _ (by omega) (by omega)]
  split
  next single =>
    refine ⟨_, rfl, Limbs.value_eq_zero fun k below => ?_⟩
    rw [bitsToLongs_eq small] at below
    obtain rfl : k = 0 := by omega
    rw [update_self]
  next =>
    exact ⟨_, rfl, Limbs.value_eq_zero fun k below => if_pos below⟩

theorem maskValue_update (positive : 0 < nbits) (first : mask 0 = 0) (word : Word) :
    maskValue (update mask 0 word) nbits = maskValue mask nbits + word.toNat := by
  obtain ⟨n, words⟩ : ∃ n, bitsToLongs nbits = n + 1 :=
    ⟨(nbits + 31) / 32 - 1, by rw [bitsToLongs_eq small]; omega⟩
  have others : ∀ k < n, update mask 0 word (k + 1) = mask (k + 1) :=
    fun k _ => update_of_ne (Nat.succ_ne_zero k) ..
  unfold maskValue
  rw [words, Limbs.value_succ, Limbs.value_succ, Limbs.value_congr others, update_self, first]
  simp [Nat.add_comm]

end

end MagxKernel.Bitmap
