import MagxKernel.Pramfs.Blocks

namespace MagxKernel.Pramfs

open MachineInt

section Arithmetic

variable {n r s j l : Nat}

theorem index_div (inside : j < n) : (r * n + j) / n = r := by
  rw [Nat.mul_comm, Nat.mul_add_div (by omega), Nat.div_eq_of_lt inside, Nat.add_zero]

theorem index_mod (inside : j < n) : (r * n + j) % n = j := by
  rw [Nat.mul_comm, Nat.mul_add_mod, Nat.mod_eq_of_lt inside]

theorem index_eq_iff (first : j < n) (second : l < n) : r * n + j = s * n + l ↔ r = s ∧ j = l := by
  constructor
  · intro same
    have row := congrArg (· / n) same
    have column := congrArg (· % n) same
    simp only [index_div first, index_div second] at row
    simp only [index_mod first, index_mod second] at column
    exact ⟨row, column⟩
  · intro same
    rw [same.1, same.2]

end Arithmetic

namespace Geometry

variable {geo : Geometry} {b : Nat}

theorem pointers_pos (geo : Geometry) : 0 < geo.pointers := Nat.two_pow_pos _

theorem getBlockOff_eq (inside : b < geo.blocksCount) :
    geo.getBlockOff b = geo.bitmapStart + b * 2 ^ geo.bits ∧
      geo.bitmapStart + b * 2 ^ geo.bits < 2 ^ 32 := by
  have narrow := geo.narrow
  have step : b * 2 ^ geo.bits + 2 ^ geo.bits ≤ geo.blocksCount * 2 ^ geo.bits := by
    rw [← Nat.succ_mul]
    exact Nat.mul_le_mul_right _ inside
  have positive := Nat.two_pow_pos geo.bits
  exact ⟨Nat.mod_eq_of_lt (by omega), by omega⟩

theorem getBlockOff_lt (geo : Geometry) (b : Nat) : geo.getBlockOff b < 2 ^ 32 :=
  Nat.mod_lt _ (by decide)

theorem getBlockOff_ne_zero (inside : b < geo.blocksCount) : geo.getBlockOff b ≠ 0 := by
  have behind := geo.behind
  rw [(getBlockOff_eq inside).1]
  omega

theorem getBlocknr_getBlockOff (inside : b < geo.blocksCount) :
    geo.getBlocknr (geo.getBlockOff b) = b := by
  have places := getBlockOff_eq inside
  have apart : (geo.bitmapStart + b * 2 ^ geo.bits + 2 ^ 32 - geo.bitmapStart) % 2 ^ 32 =
      b * 2 ^ geo.bits := by omega
  rw [getBlocknr, places.1, apart, Nat.mul_div_cancel _ (Nat.two_pow_pos _)]

end Geometry

/-- Sixteen blocks of 512 bytes; the first one is the bitmap. -/
def smallGeometry : Geometry :=
  ⟨9, 1024, 1, 16, by decide, by decide, by decide⟩

section Pointers

variable {fs : Pram} (fs : Pram)

theorem pointer_setPointer (block index : Nat) {word : Nat} (narrow : word < 2 ^ 32)
    (other place : Nat) :
    (fs.setPointer block index word).pointer other place =
      if other = block ∧ place = index then word else fs.pointer other place := by
  unfold Pram.setPointer Pram.pointer
  by_cases here : other = block
  · subst here
    simp only [Function.update_self, true_and]
    exact loadWord_storeWord _ _ _ narrow
  · simp only [here, false_and, if_false]
    rw [Function.update_of_ne here]

@[simp] theorem pointer_freeBlock (b block index : Nat) :
    (pramFreeBlock fs b).pointer block index = fs.pointer block index := rfl

@[simp] theorem bitmap_setPointer (block index word : Nat) :
    (fs.setPointer block index word).bitmap = fs.bitmap := rfl

theorem bitmap_freeBlock (b other : Nat) :
    (pramFreeBlock fs b).bitmap other = true ↔ fs.bitmap other = true ∧ other ≠ b := by
  unfold pramFreeBlock
  by_cases same : other = b
  · subst same
    simp
  · simp [same]

end Pointers

/-- What a block is used for: the rows of a file, one of its columns, or its data. -/
inductive Role where
  | row (ino : Nat)
  | column (ino index : Nat)
  | data (ino index : Nat)
deriving DecidableEq

/-- Blocks with a use lie behind the bitmap and are marked. -/
def Owned (geo : Geometry) (fs : Pram) (roles : Nat → Option Role) : Prop :=
  ∀ b role, roles b = some role →
    geo.bitmapBlocks ≤ b ∧ b < geo.blocksCount ∧ fs.bitmap b = true

/-- The word is the offset of a block with this use. -/
def PointsTo (geo : Geometry) (roles : Nat → Option Role) (word : Nat) (role : Role) : Prop :=
  ∃ b, roles b = some role ∧ word = geo.getBlockOff b

/-- The first `n` file blocks are reached through the row block at `row`, and no others.
A column block without pointers may be left from an allocation that failed. -/
structure Tables (geo : Geometry) (fs : Pram) (roles : Nat → Option Role) (ino row n : Nat) :
    Prop where
  columns : ∀ r < geo.pointers, fs.pointer row r = 0 ∨
    PointsTo geo roles (fs.pointer row r) (.column ino r)
  full : ∀ r < geo.pointers, r * geo.pointers < n → fs.pointer row r ≠ 0
  data : ∀ r < geo.pointers, fs.pointer row r ≠ 0 → ∀ j < geo.pointers, r * geo.pointers + j < n →
    PointsTo geo roles (fs.pointer (fs.pointer row r) j) (.data ino (r * geo.pointers + j))
  rest : ∀ r < geo.pointers, fs.pointer row r ≠ 0 → ∀ j < geo.pointers,
    n ≤ r * geo.pointers + j → fs.pointer (fs.pointer row r) j = 0

/-- A regular file: `i_blocks` counts its mapped blocks. -/
structure Maps (geo : Geometry) (fs : Pram) (roles : Nat → Option Role) (ino : Nat)
    (inode : Inode) : Prop where
  count : inode.iBlocks ≤ geo.pointers * geo.pointers
  row : inode.rowBlock = 0 ∧ inode.iBlocks = 0 ∨
    PointsTo geo roles inode.rowBlock (.row ino) ∧
      Tables geo fs roles ino inode.rowBlock inode.iBlocks

section Uses

variable {geo : Geometry} {fs : Pram} {roles : Nat → Option Role} {ino row n : Nat}

section

variable (owned : Owned geo fs roles) {word : Nat} {role : Role}
  (points : PointsTo geo roles word role)

include owned points

theorem PointsTo.ne_zero : word ≠ 0 := by
  obtain ⟨b, use, rfl⟩ := points
  exact Geometry.getBlockOff_ne_zero (owned b role use).2.1

/-- The number of the block a word points to has the use the word shows. -/
theorem PointsTo.blocknr :
    roles (geo.getBlocknr word) = some role ∧ word = geo.getBlockOff (geo.getBlocknr word) := by
  obtain ⟨b, use, rfl⟩ := points
  rw [Geometry.getBlocknr_getBlockOff (owned b role use).2.1]
  exact ⟨use, rfl⟩

end

theorem PointsTo.role_eq (owned : Owned geo fs roles) {word : Nat} {role other : Role}
    (points : PointsTo geo roles word role) (also : PointsTo geo roles word other) :
    role = other :=
  Option.some.inj ((points.blocknr owned).1.symm.trans (also.blocknr owned).1)

theorem pramFindDataBlock_eq {inode : Inode} (present : inode.rowBlock ≠ 0) (r j : Nat)
    (inside : j < geo.pointers) :
    pramFindDataBlock geo fs inode (r * geo.pointers + j) =
      if fs.pointer inode.rowBlock r = 0 then 0
      else fs.pointer (fs.pointer inode.rowBlock r) j := by
  simp only [pramFindDataBlock, index_div inside, index_mod inside]
  rw [if_neg present]

theorem exists_index {i : Nat} (inside : i < geo.pointers * geo.pointers) :
    ∃ r < geo.pointers, ∃ j < geo.pointers, i = r * geo.pointers + j :=
  ⟨i / geo.pointers, Nat.div_lt_of_lt_mul inside, i % geo.pointers,
    Nat.mod_lt _ geo.pointers_pos, (Nat.div_add_mod' i geo.pointers).symm⟩

theorem Tables.find_zero {inode : Inode} {i : Nat}
    (tables : Tables geo fs roles ino inode.rowBlock n) (present : inode.rowBlock ≠ 0)
    (past : n ≤ i) (inside : i < geo.pointers * geo.pointers) :
    pramFindDataBlock geo fs inode i = 0 := by
  obtain ⟨r, small, j, within, rfl⟩ := exists_index inside
  rw [pramFindDataBlock_eq present r j within]
  split
  · rfl
  · rename_i mapped
    exact tables.rest r small mapped j within past

/-- How far a loop from block `k` to block `n - 1` has come when the rows before `r` are
done. -/
def reached (geo : Geometry) (k n r : Nat) : Nat := min n (max k (r * geo.pointers))

/-- The columns of a row that the loop goes through. -/
theorem row_bounds {n k r : Nat} (some_left : k < n) (first : k / geo.pointers ≤ r)
    (last : r ≤ (n - 1) / geo.pointers) {firstColIndex lastColIndex : Nat}
    (firstCol : firstColIndex = if r = k / geo.pointers then k % geo.pointers else 0)
    (lastCol : lastColIndex =
      if r = (n - 1) / geo.pointers then (n - 1) % geo.pointers else geo.pointers - 1) :
    reached geo k n r = r * geo.pointers + firstColIndex ∧
      reached geo k n (r + 1) = r * geo.pointers + (lastColIndex + 1) ∧
      lastColIndex < geo.pointers ∧ firstColIndex ≤ lastColIndex + 1 ∧
      (firstColIndex = 0 ↔ k ≤ r * geo.pointers) := by
  have positive := geo.pointers_pos
  have split_first := Nat.div_add_mod' k geo.pointers
  have split_last := Nat.div_add_mod' (n - 1) geo.pointers
  have low := Nat.mul_le_mul_right geo.pointers first
  have high := Nat.mul_le_mul_right geo.pointers last
  have first_mod := Nat.mod_lt k positive
  have last_mod := Nat.mod_lt (n - 1) positive
  have next : (r + 1) * geo.pointers = r * geo.pointers + geo.pointers := Nat.succ_mul _ _
  have first_place : reached geo k n r = r * geo.pointers + firstColIndex ∧
      (firstColIndex = 0 ↔ k ≤ r * geo.pointers) := by
    unfold reached
    split at firstCol
    · rename_i begins
      rw [← begins] at split_first
      omega
    · have above := Nat.mul_le_mul_right geo.pointers (show k / geo.pointers + 1 ≤ r by omega)
      rw [Nat.succ_mul] at above
      omega
  have last_place : reached geo k n (r + 1) = r * geo.pointers + (lastColIndex + 1) ∧
      lastColIndex < geo.pointers := by
    unfold reached
    split at lastCol
    · rename_i ends
      rw [← ends] at split_last
      omega
    · have below := Nat.mul_le_mul_right geo.pointers (show r + 1 ≤ (n - 1) / geo.pointers by omega)
      omega
  have order : reached geo k n r ≤ reached geo k n (r + 1) := by
    unfold reached
    omega
  exact ⟨first_place.1, last_place.1, last_place.2, by omega, first_place.2⟩

theorem reached_first {n k : Nat} (order : k ≤ n) : reached geo k n (k / geo.pointers) = k := by
  have begins := Nat.div_mul_le_self k geo.pointers
  rw [reached]
  omega

theorem reached_last {n k : Nat} (some_left : k < n) :
    reached geo k n ((n - 1) / geo.pointers + 1) = n := by
  have ends := Nat.div_add_mod' (n - 1) geo.pointers
  have rest := Nat.mod_lt (n - 1) geo.pointers_pos
  rw [reached, Nat.succ_mul]
  omega

end Uses

end MagxKernel.Pramfs
