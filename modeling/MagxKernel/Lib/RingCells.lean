import Mathlib.Data.Nat.ModEq

namespace MagxKernel.RingCells

open List

variable {α : Type} {dst src cells : Nat → α} {dstAt srcAt size start count cell n : Nat}

/-- Copy `count` cells of `src` from `srcAt` on over `dst` from `dstAt` on. -/
def memcpy (dst : Nat → α) (dstAt : Nat) (src : Nat → α) (srcAt count : Nat) : Nat → α :=
  fun cell =>
    if dstAt ≤ cell ∧ cell < dstAt + count then src (srcAt + (cell - dstAt)) else dst cell

theorem memcpy_inside (low : dstAt ≤ cell) (high : cell < dstAt + count) :
    memcpy dst dstAt src srcAt count cell = src (srcAt + (cell - dstAt)) :=
  if_pos ⟨low, high⟩

theorem memcpy_outside (outside : cell < dstAt ∨ dstAt + count ≤ cell) :
    memcpy dst dstAt src srcAt count cell = dst cell := by
  apply if_neg
  omega

/-- The cells of a ring of `size` cells from position `start` on. -/
def window (cells : Nat → α) (size start count : Nat) : List α :=
  (List.range count).map fun n => cells ((start + n) % size)

@[simp] theorem window_length : (window cells size start count).length = count := by
  simp [window]

theorem window_getElem (cells : Nat → α) (size start count n : Nat)
    (bound : n < (window cells size start count).length) :
    (window cells size start count)[n] = cells ((start + n) % size) := by
  simp [window]

theorem window_add (cells : Nat → α) (size start first second : Nat) :
    window cells size start (first + second) =
      window cells size start first ++ window cells size (start + first) second := by
  simp [window, range_add, Nat.add_assoc]

theorem window_congr {before after : Nat → α}
    (same : ∀ n, n < count → after ((start + n) % size) = before ((start + n) % size)) :
    window after size start count = window before size start count := by
  apply map_congr_left
  intro n member
  exact same n (mem_range.mp member)

theorem window_start {left right : Nat} (same : left % size = right % size) :
    window cells size left count = window cells size right count := by
  apply map_congr_left
  intro n _
  rw [Nat.add_mod left, Nat.add_mod right, same]

/-- A cell after the end of the array is found at its beginning. -/
theorem slot_split (bound : n < size) :
    (start + n) % size =
      if start % size + n < size then start % size + n else start % size + n - size := by
  have low : start % size < size := Nat.mod_lt _ (by omega)
  rw [Nat.add_mod, Nat.mod_eq_of_lt bound]
  split
  next fits => exact Nat.mod_eq_of_lt fits
  next beyond =>
    rw [Nat.mod_eq_sub_mod (by omega)]
    exact Nat.mod_eq_of_lt (by omega)

/-- Write `count` cells from position `start` on, in two copies where the end of
the array comes between. -/
def copyIn (cells : Nat → α) (size start : Nat) (src : Nat → α) (count : Nat) : Nat → α :=
  let first := min count (size - start % size)
  memcpy (memcpy cells (start % size) src 0 first) 0 src first (count - first)

theorem copyIn_slot (room : count ≤ size) (bound : n < count) :
    copyIn cells size start src count ((start + n) % size) = src n := by
  have low : start % size < size := Nat.mod_lt _ (by omega)
  rw [slot_split (by omega), copyIn]
  split
  next fits =>
    rw [memcpy_outside (by omega), memcpy_inside (by omega) (by omega)]
    congr 1
    omega
  next beyond =>
    rw [memcpy_inside (by omega) (by omega)]
    congr 1
    omega

theorem copyIn_other (old : count ≤ n) (bound : n < size) :
    copyIn cells size start src count ((start + n) % size) = cells ((start + n) % size) := by
  rw [slot_split bound, copyIn]
  split <;> rw [memcpy_outside (by omega), memcpy_outside (by omega)]

/-- The write stays inside the array. -/
theorem copyIn_beyond (room : count ≤ size) (positive : 0 < size) (beyond : size ≤ cell) :
    copyIn cells size start src count cell = cells cell := by
  rw [copyIn, memcpy_outside (by omega), memcpy_outside (by omega)]

/-- Read `count` cells from position `start` on to the beginning of `dst`. -/
def copyOut (dst cells : Nat → α) (size start count : Nat) : Nat → α :=
  let first := min count (size - start % size)
  memcpy (memcpy dst 0 cells (start % size) first) first cells 0 (count - first)

theorem copyOut_inside (room : count ≤ size) (bound : n < count) :
    copyOut dst cells size start count n = cells ((start + n) % size) := by
  have low : start % size < size := Nat.mod_lt _ (by omega)
  rw [slot_split (by omega), copyOut]
  split
  next fits =>
    rw [memcpy_outside (by omega), memcpy_inside (by omega) (by omega)]
    congr 1
  next beyond =>
    rw [memcpy_inside (by omega) (by omega)]
    congr 1
    omega

theorem copyOut_outside (beyond : count ≤ n) : copyOut dst cells size start count n = dst n := by
  rw [copyOut, memcpy_outside (by omega), memcpy_outside (by omega)]

end MagxKernel.RingCells
