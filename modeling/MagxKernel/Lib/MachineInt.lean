import Mathlib.Algebra.Group.Int.Defs
import Mathlib.Algebra.Group.Nat.Defs

namespace MagxKernel.MachineInt

/-- The value a signed type of 32 bits keeps of an integer. -/
def s32 (value : Int) : Int := value.bmod (2 ^ 32)

/-- The value a signed type of 16 bits keeps of an integer. -/
def s16 (value : Int) : Int := value.bmod (2 ^ 16)

theorem s32_of_range (value : Int) (low : -2 ^ 31 ≤ value) (high : value < 2 ^ 31) :
    s32 value = value := by
  apply Int.bmod_eq_of_le
  · simpa using low
  · simpa using high

theorem s16_of_range (value : Int) (low : -2 ^ 15 ≤ value) (high : value < 2 ^ 15) :
    s16 value = value := by
  apply Int.bmod_eq_of_le
  · simpa using low
  · simpa using high

/-- The word at a place in a table of words, lowest byte first. -/
def loadWord (bytes : Nat → UInt8) (index : Nat) : Nat :=
  (bytes (4 * index)).toNat + 2 ^ 8 * (bytes (4 * index + 1)).toNat +
    2 ^ 16 * (bytes (4 * index + 2)).toNat + 2 ^ 24 * (bytes (4 * index + 3)).toNat

def storeWord (bytes : Nat → UInt8) (index word : Nat) : Nat → UInt8 :=
  fun place => if place / 4 = index then UInt8.ofNat (word / 2 ^ (8 * (place % 4))) else bytes place

@[simp] theorem loadWord_zero (index : Nat) : loadWord (fun _ => 0) index = 0 := rfl

theorem loadWord_storeWord (bytes : Nat → UInt8) (index other : Nat) {word : Nat}
    (narrow : word < 2 ^ 32) :
    loadWord (storeWord bytes index word) other =
      if other = index then word else loadWord bytes other := by
  have first : 4 * other / 4 = other := by omega
  have second : (4 * other + 1) / 4 = other := by omega
  have third : (4 * other + 2) / 4 = other := by omega
  have fourth : (4 * other + 3) / 4 = other := by omega
  by_cases same : other = index
  · subst same
    have digits : (4 * other) % 4 = 0 ∧ (4 * other + 1) % 4 = 1 ∧ (4 * other + 2) % 4 = 2 ∧
        (4 * other + 3) % 4 = 3 := by omega
    have byte : ∀ value, (UInt8.ofNat value).toNat = value % 2 ^ 8 := fun _ => rfl
    simp only [loadWord, storeWord, first, second, third, fourth, if_true, digits.1, digits.2.1,
      digits.2.2.1, digits.2.2.2, byte]
    omega
  · simp [loadWord, storeWord, second, third, fourth, same]

end MagxKernel.MachineInt
