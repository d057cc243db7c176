import MagxKernel.Pramfs.Tables

namespace MagxKernel.Pramfs

/-- The blocks `k` to `c - 1` have been taken from the tables of `fs`, and the columns
before `rd` that lost all their pointers. -/
structure Cut (geo : Geometry) (fs : Pram) (row k c rd : Nat) (now : Pram) : Prop where
  column : ∀ r < geo.pointers, fs.pointer row r ≠ 0 → ∀ j < geo.pointers,
    now.pointer (fs.pointer row r) j =
      if k ≤ r * geo.pointers + j ∧ r * geo.pointers + j < c then 0
      else fs.pointer (fs.pointer row r) j
  rows : ∀ r < geo.pointers, now.pointer row r =
    if k ≤ r * geo.pointers ∧ r < rd then 0 else fs.pointer row r
  bitmap : ∀ b, now.bitmap b = true ↔ fs.bitmap b = true ∧
    ¬ (∃ r < geo.pointers, ∃ j < geo.pointers, k ≤ r * geo.pointers + j ∧
        r * geo.pointers + j < c ∧ b = geo.getBlocknr (fs.pointer (fs.pointer row r) j)) ∧
    ¬ (∃ r < geo.pointers, k ≤ r * geo.pointers ∧ r < rd ∧
        b = geo.getBlocknr (fs.pointer row r))

section Loops

variable {geo : Geometry} {fs now : Pram} {roles : Nat → Option Role} {ino row n k c r : Nat}

theorem Cut.start (fs : Pram) (row k : Nat) : Cut geo fs row k k (k / geo.pointers) fs := by
  have empty : ∀ r, k ≤ r * geo.pointers → r < k / geo.pointers → False := by
    intro r low high
    have := (Nat.lt_div_iff_mul_lt geo.pointers_pos).mp high
    omega
  constructor
  · intro r _ _ j _
    rw [if_neg (by omega)]
  · intro r _
    rw [if_neg fun both => empty r both.1 both.2]
  · intro b
    constructor
    · intro used
      refine ⟨used, ?_, ?_⟩
      · rintro ⟨r, _, j, _, low, high, _⟩
        omega
      · rintro ⟨r, _, low, high, _⟩
        exact empty r low high
    · intro used
      exact used.1

section

variable (owned : Owned geo fs roles) (rows : PointsTo geo roles row (.row ino))
  (tables : Tables geo fs roles ino row n)

include owned rows tables

/-- One pointer of a column is dropped. -/
theorem Cut.step {j : Nat} (small : r < geo.pointers) (inside : j < geo.pointers)
    (low : k ≤ r * geo.pointers + j) (high : r * geo.pointers + j < n)
    (cut : Cut geo fs row k (r * geo.pointers + j) r now) :
    Cut geo fs row k (r * geo.pointers + (j + 1)) r
      ((pramFreeBlock now (geo.getBlocknr (now.pointer (fs.pointer row r) j))).setPointer
        (fs.pointer row r) j 0) := by
  have mapped : fs.pointer row r ≠ 0 := tables.full r small (by omega)
  have column := (tables.columns r small).resolve_left mapped
  have word : now.pointer (fs.pointer row r) j = fs.pointer (fs.pointer row r) j := by
    rw [cut.column r small mapped j inside, if_neg (by omega)]
  have here : ∀ s < geo.pointers, ∀ l < geo.pointers,
      (s * geo.pointers + l < r * geo.pointers + (j + 1) ↔
        s * geo.pointers + l < r * geo.pointers + j ∨ (s = r ∧ l = j)) := by
    intro s _ l within
    rw [← index_eq_iff within inside]
    omega
  constructor
  · intro s below present l within
    rw [pointer_setPointer _ _ _ (by decide), pointer_freeBlock]
    by_cases same : fs.pointer row s = fs.pointer row r ∧ l = j
    · have other := (tables.columns s below).resolve_left present
      rw [same.1] at other
      have rows_eq : s = r := by
        have uses := other.role_eq owned column
        injection uses
      rw [if_pos same, if_pos]
      exact ⟨by rw [rows_eq, same.2]; exact low,
        (here s below l within).mpr (.inr ⟨rows_eq, same.2⟩)⟩
    · rw [if_neg same, cut.column s below present l within]
      have strict : (s * geo.pointers + l < r * geo.pointers + (j + 1)) =
          (s * geo.pointers + l < r * geo.pointers + j) := by
        rw [eq_iff_iff, here s below l within]
        exact or_iff_left fun equal => same ⟨by rw [equal.1], equal.2⟩
      simp only [strict]
  · intro s below
    rw [pointer_setPointer _ _ _ (by decide), pointer_freeBlock, if_neg, cut.rows s below]
    intro same
    rw [← same.1] at column
    exact Role.noConfusion (rows.role_eq owned column)
  · intro b
    rw [bitmap_setPointer, bitmap_freeBlock, cut.bitmap b, word, and_assoc, and_assoc,
      and_comm (b := b ≠ _), ← and_assoc (b := b ≠ _), ← not_or]
    refine and_congr_right fun _ => and_congr_left fun _ => not_congr ⟨?_, ?_⟩
    · rintro (⟨s, below, l, within, above, before, same⟩ | same)
      · exact ⟨s, below, l, within, above, (here s below l within).mpr (.inl before), same⟩
      · exact ⟨r, small, j, inside, low, (here r small j inside).mpr (.inr ⟨rfl, rfl⟩), same⟩
    · rintro ⟨s, below, l, within, above, before, same⟩
      rcases (here s below l within).mp before with earlier | ⟨rfl, rfl⟩
      · exact .inl ⟨s, below, l, within, above, earlier, same⟩
      · exact .inr same

theorem truncateColumn_cut (small : r < geo.pointers) (count j : Nat) (now : Pram)
    (inside : j + count ≤ geo.pointers) (low : k ≤ r * geo.pointers + j)
    (high : r * geo.pointers + (j + count) ≤ n)
    (cut : Cut geo fs row k (r * geo.pointers + j) r now) :
    Cut geo fs row k (r * geo.pointers + (j + count)) r
      (truncateColumn geo (fs.pointer row r) count j now) := by
  induction count generalizing j now with
  | zero => exact cut
  | succ count ih =>
    have next := ih (j + 1) _ (by omega) (by omega) (by omega)
      (cut.step owned rows tables small (by omega) low (by omega))
    rw [show j + (count + 1) = j + 1 + count by omega]
    exact next

/-- The column block goes when the row begins at or behind the cut. -/
theorem Cut.endRow (small : r < geo.pointers) (low : k ≤ r * geo.pointers)
    (cut : Cut geo fs row k c r now) :
    Cut geo fs row k c (r + 1)
      ((pramFreeBlock now (geo.getBlocknr (now.pointer row r))).setPointer row r 0) := by
  have word : now.pointer row r = fs.pointer row r := by
    rw [cut.rows r small, if_neg (by omega)]
  constructor
  · intro s below present l within
    rw [pointer_setPointer _ _ _ (by decide), pointer_freeBlock, if_neg,
      cut.column s below present l within]
    intro same
    have column := (tables.columns s below).resolve_left present
    rw [same.1] at column
    exact Role.noConfusion (rows.role_eq owned column)
  · intro s below
    rw [pointer_setPointer _ _ _ (by decide), pointer_freeBlock, cut.rows s below]
    by_cases same : s = r
    · rw [if_pos ⟨rfl, same⟩, if_pos ⟨by rw [same]; exact low, by omega⟩]
    · have strict : (s < r + 1) = (s < r) := by
        rw [eq_iff_iff]
        omega
      rw [if_neg fun both => same both.2]
      simp only [strict]
  · intro b
    rw [bitmap_setPointer, bitmap_freeBlock, cut.bitmap b, word, and_assoc, and_assoc, ← not_or]
    refine and_congr_right fun _ => and_congr_right fun _ => not_congr ⟨?_, ?_⟩
    · rintro (⟨s, below, above, before, same⟩ | same)
      · exact ⟨s, below, above, by omega, same⟩
      · exact ⟨r, small, low, by omega, same⟩
    · rintro ⟨s, below, above, before, same⟩
      rcases Nat.lt_succ_iff_lt_or_eq.mp before with earlier | rfl
      · exact .inl ⟨s, below, above, earlier, same⟩
      · exact .inr same

end

/-- The column block stays when the row begins before the cut. -/
theorem Cut.keepRow (before : r * geo.pointers < k) (cut : Cut geo fs row k c r now) :
    Cut geo fs row k c (r + 1) now := by
  have same : ∀ s, k ≤ s * geo.pointers → (s < r ↔ s < r + 1) := by
    intro s above
    have apart : s ≠ r := by
      rintro rfl
      omega
    omega
  constructor
  · exact cut.column
  · intro s below
    rw [cut.rows s below]
    simp [and_congr_right (same s)]
  · intro b
    rw [cut.bitmap b]
    refine and_congr_right fun _ => and_congr_right fun _ => not_congr (exists_congr fun s => ?_)
    exact and_congr_right fun _ => and_congr_right fun above => and_congr_left fun _ => same s above

section

variable (owned : Owned geo fs roles) (rows : PointsTo geo roles row (.row ino))
  (tables : Tables geo fs roles ino row n)

include owned rows tables

theorem truncateRow_cut (small : r < geo.pointers) (some_left : k < n)
    (first : k / geo.pointers ≤ r) (last : r ≤ (n - 1) / geo.pointers)
    (cut : Cut geo fs row k (reached geo k n r) r now) :
    ∃ now', truncateRow geo row k (n - 1) r now = some now' ∧
      Cut geo fs row k (reached geo k n (r + 1)) (r + 1) now' := by
  generalize firstCol : (if r = k / geo.pointers then k % geo.pointers else 0) = firstColIndex
  generalize lastCol : (if r = (n - 1) / geo.pointers then (n - 1) % geo.pointers
    else geo.pointers - 1) = lastColIndex
  obtain ⟨begins, ends, within, order, whole⟩ :=
    @row_bounds geo n k r some_left first last firstColIndex lastColIndex firstCol.symm lastCol.symm
  have high : r * geo.pointers < n := by
    have down := Nat.div_mul_le_self (n - 1) geo.pointers
    have up := Nat.mul_le_mul_right geo.pointers last
    omega
  have mapped : fs.pointer row r ≠ 0 := tables.full r small high
  have word : now.pointer row r = fs.pointer row r := by
    rw [cut.rows r small, if_neg (by omega)]
  have above : k ≤ r * geo.pointers + firstColIndex := by
    rw [← begins, reached]
    omega
  have below : r * geo.pointers + (lastColIndex + 1) ≤ n := by
    rw [← ends, reached]
    omega
  have emptied := truncateColumn_cut owned rows tables small (lastColIndex + 1 - firstColIndex)
    firstColIndex now (by omega) above (by omega) (by rw [← begins]; exact cut)
  rw [show firstColIndex + (lastColIndex + 1 - firstColIndex) = lastColIndex + 1 by omega,
    ← ends] at emptied
  simp only [truncateRow]
  rw [firstCol, lastCol, word, if_neg mapped]
  split
  · rename_i starts
    exact ⟨_, rfl, emptied.endRow owned rows tables small (whole.mp starts)⟩
  · exact ⟨_, rfl, emptied.keepRow (by omega)⟩

theorem truncateRows_cut (fits : n ≤ geo.pointers * geo.pointers) (some_left : k < n)
    (count r : Nat) (now : Pram) (first : k / geo.pointers ≤ r)
    (last : r + count = (n - 1) / geo.pointers + 1)
    (cut : Cut geo fs row k (reached geo k n r) r now) :
    ∃ now', truncateRows geo row k (n - 1) count r now = some now' ∧
      Cut geo fs row k (reached geo k n ((n - 1) / geo.pointers + 1)) ((n - 1) / geo.pointers + 1)
        now' := by
  induction count generalizing r now with
  | zero =>
    rw [← last]
    exact ⟨now, rfl, cut⟩
  | succ count ih =>
    have small : r < geo.pointers := by
      have := Nat.div_lt_of_lt_mul (show n - 1 < geo.pointers * geo.pointers by omega)
      omega
    obtain ⟨next, done, after⟩ :=
      truncateRow_cut owned rows tables small some_left first (by omega) cut
    obtain ⟨final, executed, ends⟩ := ih (r + 1) next (by omega) (by omega) after
    refine ⟨final, ?_, ends⟩
    rw [truncateRows, done, Option.bind_some]
    exact executed

end

end Loops

section Truncation

variable {geo : Geometry} {fs : Pram} {roles : Nat → Option Role} {ino k : Nat} {inode : Inode}

/-- The blocks to be freed: data blocks from `k` on, columns that lose their last pointer, and
the row block when nothing is left. -/
def Freed (geo : Geometry) (fs : Pram) (inode : Inode) (k : Nat) (after : Pram) (b : Nat) : Prop :=
  (∃ i, k ≤ i ∧ i < inode.iBlocks ∧ b = geo.getBlocknr (pramFindDataBlock geo fs inode i)) ∨
  (∃ r < geo.pointers, (∃ j < geo.pointers, fs.pointer inode.rowBlock r ≠ 0 ∧
      fs.pointer (fs.pointer inode.rowBlock r) j ≠ 0) ∧
    (∀ j < geo.pointers, after.pointer (fs.pointer inode.rowBlock r) j = 0) ∧
    b = geo.getBlocknr (fs.pointer inode.rowBlock r)) ∨
  (k = 0 ∧ b = geo.getBlocknr inode.rowBlock)

/-- The file is cut to `k` blocks and nothing else happens. -/
structure Truncated (geo : Geometry) (fs : Pram) (inode : Inode) (k : Nat)
    (after : Pram × Inode) : Prop where
  kept : ∀ i < k, pramFindDataBlock geo after.1 after.2 i = pramFindDataBlock geo fs inode i
  cut : ∀ i, k ≤ i → i < geo.pointers * geo.pointers →
    pramFindDataBlock geo after.1 after.2 i = 0
  blocks : after.2.iBlocks = k
  freed : ∀ b, after.1.bitmap b = true ↔ fs.bitmap b = true ∧ ¬ Freed geo fs inode k after.1 b

theorem truncated_all (owned : Owned geo fs roles)
    (rows : PointsTo geo roles inode.rowBlock (.row ino))
    (tables : Tables geo fs roles ino inode.rowBlock inode.iBlocks)
    (some_blocks : 1 ≤ inode.iBlocks) :
    Truncated geo fs inode inode.iBlocks (fs, inode) := by
  refine ⟨fun _ _ => rfl, fun i above inside => ?_, rfl, ?_⟩
  · exact tables.find_zero (rows.ne_zero owned) above inside
  · intro b
    refine ⟨fun used => ⟨used, ?_⟩, And.left⟩
    rintro (⟨i, above, below, _⟩ | ⟨r, _, ⟨j, within, _, pointer⟩, none_left, _⟩ | ⟨none_left, _⟩)
    · omega
    · exact pointer (none_left j within)
    · omega

variable {now : Pram}

/-- A column loses its last pointer when its row begins at or behind the cut. -/
theorem Cut.column_empty_iff (owned : Owned geo fs roles)
    (tables : Tables geo fs roles ino inode.rowBlock inode.iBlocks) {rd : Nat}
    (cut : Cut geo fs inode.rowBlock k inode.iBlocks rd now) {r : Nat} (small : r < geo.pointers) :
    ((∃ j < geo.pointers, fs.pointer inode.rowBlock r ≠ 0 ∧
        fs.pointer (fs.pointer inode.rowBlock r) j ≠ 0) ∧
      ∀ j < geo.pointers, now.pointer (fs.pointer inode.rowBlock r) j = 0) ↔
      k ≤ r * geo.pointers ∧ r * geo.pointers < inode.iBlocks := by
  have positive := geo.pointers_pos
  constructor
  · rintro ⟨⟨j, within, mapped, pointer⟩, emptied⟩
    have some_data : r * geo.pointers < inode.iBlocks := by
      by_contra past
      exact pointer (tables.rest r small mapped j within (by omega))
    refine ⟨?_, some_data⟩
    by_contra before
    have first := emptied 0 positive
    rw [cut.column r small mapped 0 positive, if_neg (by omega)] at first
    exact (tables.data r small mapped 0 positive some_data).ne_zero owned first
  · rintro ⟨above, some_data⟩
    have mapped := tables.full r small some_data
    refine ⟨⟨0, positive, mapped, (tables.data r small mapped 0 positive some_data).ne_zero owned⟩,
      ?_⟩
    intro j within
    rw [cut.column r small mapped j within]
    by_cases inside : r * geo.pointers + j < inode.iBlocks
    · rw [if_pos ⟨by omega, inside⟩]
    · rw [if_neg fun both => inside both.2]
      exact tables.rest r small mapped j within (by omega)

section

variable (owned : Owned geo fs roles) (rows : PointsTo geo roles inode.rowBlock (.row ino))
  (tables : Tables geo fs roles ino inode.rowBlock inode.iBlocks)
  (fits : inode.iBlocks ≤ geo.pointers * geo.pointers)

include owned rows tables fits

section

variable
  (cut : Cut geo fs inode.rowBlock k inode.iBlocks ((inode.iBlocks - 1) / geo.pointers + 1) now)

include cut

/-- What the loops free, without the row block. -/
theorem Cut.bitmap_iff (some_blocks : 1 ≤ inode.iBlocks) (b : Nat) :
    now.bitmap b = true ↔ fs.bitmap b = true ∧
      ¬ (∃ i, k ≤ i ∧ i < inode.iBlocks ∧ b = geo.getBlocknr (pramFindDataBlock geo fs inode i)) ∧
      ¬ (∃ r < geo.pointers, (∃ j < geo.pointers, fs.pointer inode.rowBlock r ≠ 0 ∧
          fs.pointer (fs.pointer inode.rowBlock r) j ≠ 0) ∧
        (∀ j < geo.pointers, now.pointer (fs.pointer inode.rowBlock r) j = 0) ∧
        b = geo.getBlocknr (fs.pointer inode.rowBlock r)) := by
  have present := rows.ne_zero owned
  have found : ∀ r < geo.pointers, ∀ j < geo.pointers,
      r * geo.pointers + j < inode.iBlocks →
      pramFindDataBlock geo fs inode (r * geo.pointers + j) =
        fs.pointer (fs.pointer inode.rowBlock r) j := by
    intro r small j within below
    rw [pramFindDataBlock_eq present r j within, if_neg (tables.full r small (by omega))]
  have last : ∀ r, r < (inode.iBlocks - 1) / geo.pointers + 1 ↔
      r * geo.pointers < inode.iBlocks := by
    intro r
    rw [Nat.lt_succ_iff, Nat.le_div_iff_mul_le geo.pointers_pos]
    omega
  rw [cut.bitmap b]
  refine and_congr_right fun _ => and_congr (not_congr ⟨?_, ?_⟩) (not_congr ⟨?_, ?_⟩)
  -- the data blocks
  · rintro ⟨r, small, j, within, above, below, number⟩
    exact ⟨_, above, below, by rw [found r small j within below]; exact number⟩
  · rintro ⟨i, above, below, number⟩
    obtain ⟨r, small, j, within, rfl⟩ := exists_index (Nat.lt_of_lt_of_le below fits)
    rw [found r small j within below] at number
    exact ⟨r, small, j, within, above, below, number⟩
  -- the columns
  · rintro ⟨r, small, above, below, number⟩
    have empty := (cut.column_empty_iff owned tables small).mpr ⟨above, (last r).mp below⟩
    exact ⟨r, small, empty.1, empty.2, number⟩
  · rintro ⟨r, small, pointer, empty, number⟩
    have place := (cut.column_empty_iff owned tables small).mp ⟨pointer, empty⟩
    exact ⟨r, small, place.1, (last r).mpr place.2, number⟩

/-- With the row block kept the blocks below the cut are found as before. -/
theorem Cut.truncated (below : k < inode.iBlocks) (positive : 0 < k) {inode' : Inode}
    (count : inode'.iBlocks = k) (row : inode'.rowBlock = inode.rowBlock) :
    Truncated geo fs inode k (now, inode') := by
  have present := rows.ne_zero owned
  have present' : inode'.rowBlock ≠ 0 := by
    rw [row]
    exact present
  refine ⟨?_, ?_, count, ?_⟩
  · intro i before
    obtain ⟨r, small, j, within, rfl⟩ :=
      @exists_index geo i (Nat.lt_of_lt_of_le (Nat.lt_trans before below) fits)
    have mapped := tables.full r small (by omega)
    have word : now.pointer inode.rowBlock r = fs.pointer inode.rowBlock r := by
      rw [cut.rows r small, if_neg (by omega)]
    rw [pramFindDataBlock_eq present r j within, pramFindDataBlock_eq present' r j within, row,
      word, if_neg mapped, if_neg mapped, cut.column r small mapped j within, if_neg (by omega)]
  · intro i above inside
    obtain ⟨r, small, j, within, rfl⟩ := exists_index inside
    rw [pramFindDataBlock_eq present' r j within, row]
    by_cases gone : now.pointer inode.rowBlock r = 0
    · rw [if_pos gone]
    · rw [if_neg gone]
      rw [cut.rows r small] at gone ⊢
      by_cases dropped : k ≤ r * geo.pointers ∧ r < (inode.iBlocks - 1) / geo.pointers + 1
      · rw [if_pos dropped] at gone
        exact absurd rfl gone
      · rw [if_neg dropped] at gone ⊢
        rw [cut.column r small gone j within]
        by_cases inner : r * geo.pointers + j < inode.iBlocks
        · rw [if_pos ⟨above, inner⟩]
        · rw [if_neg fun both => inner both.2]
          exact tables.rest r small gone j within (by omega)
  · intro b
    rw [cut.bitmap_iff owned rows tables fits (by omega) b]
    unfold Freed
    have not_all : ¬ (k = 0 ∧ b = geo.getBlocknr inode.rowBlock) := by
      intro both
      omega
    simp [not_all]

end

/-- With nothing left the row block is freed as well. -/
theorem Cut.truncated_zero (some_blocks : 1 ≤ inode.iBlocks) {inode' : Inode}
    (cut : Cut geo fs inode.rowBlock 0 inode.iBlocks ((inode.iBlocks - 1) / geo.pointers + 1) now)
    (count : inode'.iBlocks = 0) (row : inode'.rowBlock = 0) :
    Truncated geo fs inode 0 (pramFreeBlock now (geo.getBlocknr inode.rowBlock), inode') := by
  refine ⟨?_, ?_, count, ?_⟩
  · intro i wrong
    omega
  · intro i _ _
    simp only [pramFindDataBlock]
    rw [if_pos row]
  · intro b
    rw [bitmap_freeBlock, cut.bitmap_iff owned rows tables fits some_blocks b]
    unfold Freed
    simp [and_assoc]

end

/-- `pram_truncate_blocks` cuts a file as it should if and only if it cuts nothing, or
everything, or keeps a whole column of pointers. -/
theorem pramTruncateBlocks_truncates_iff (owned : Owned geo fs roles)
    (maps : Maps geo fs roles ino inode) (some_blocks : 1 ≤ inode.iBlocks)
    (inside : k ≤ inode.iBlocks) :
    (∃ after, pramTruncateBlocks geo fs inode k = some after ∧ Truncated geo fs inode k after) ↔
      k = 0 ∨ geo.pointers ≤ k ∨ k = inode.iBlocks := by
  have fits := maps.count
  have positive := geo.pointers_pos
  obtain ⟨rows, tables⟩ := maps.row.resolve_left fun none_mapped => by omega
  have present := rows.ne_zero owned
  by_cases whole : k = inode.iBlocks
  · have skipped : pramTruncateBlocks geo fs inode k = some (fs, inode) :=
      if_pos (.inl (Nat.le_of_eq whole.symm))
    refine ⟨fun _ => .inr (.inr whole), fun _ => ⟨_, skipped, ?_⟩⟩
    rw [whole]
    exact truncated_all owned rows tables some_blocks
  have below : k < inode.iBlocks := by omega
  have last := @reached_last geo inode.iBlocks k below
  have first := @reached_first geo inode.iBlocks k (Nat.le_of_lt below)
  have order : k / geo.pointers ≤ (inode.iBlocks - 1) / geo.pointers :=
    Nat.div_le_div_right (by omega)
  obtain ⟨now, done, cut⟩ := truncateRows_cut owned rows tables fits below
    ((inode.iBlocks - 1) / geo.pointers + 1 - k / geo.pointers) (k / geo.pointers) fs
    (Nat.le_refl _)
    (by omega) (by rw [first]; exact Cut.start fs inode.rowBlock k)
  rw [last] at cut
  have counted : inode.iBlocks - (inode.iBlocks - 1 + 1 - k) = k := by omega
  have result : pramTruncateBlocks geo fs inode k = some
      (if k / geo.pointers = 0 then
        (pramFreeBlock now (geo.getBlocknr inode.rowBlock), ⟨k, inode.iSize, k, 0⟩)
      else (now, ⟨k, inode.iSize, k, inode.rowBlock⟩)) := by
    unfold pramTruncateBlocks
    rw [if_neg (by omega)]
    simp [done, counted]
  rw [result]
  by_cases top : k / geo.pointers = 0
  · have short : k < geo.pointers := by
      rcases Nat.div_eq_zero_iff.mp top with wrong | short
      · omega
      · exact short
    rw [if_pos top]
    constructor
    · rintro ⟨after, same, truncated⟩
      cases same
      -- a block below the cut is not found any more
      by_contra others
      have lost := truncated.kept 0 (by omega)
      have mapped := tables.full 0 positive (by omega)
      have find := @pramFindDataBlock_eq geo fs inode present 0 0 positive
      rw [Nat.zero_mul, Nat.add_zero, if_neg mapped] at find
      rw [find] at lost
      exact (tables.data 0 positive mapped 0 positive (by omega)).ne_zero owned lost.symm
    · intro allowed
      have zero : k = 0 := by omega
      subst zero
      exact ⟨_, rfl, cut.truncated_zero owned rows tables fits some_blocks rfl rfl⟩
  · have long : geo.pointers ≤ k := by
      by_contra short
      exact top (Nat.div_eq_of_lt (by omega))
    rw [if_neg top]
    exact ⟨fun _ => .inr (.inl long),
      fun _ => ⟨_, rfl, cut.truncated owned rows tables fits below (by omega) rfl rfl⟩⟩

end Truncation

section TwoBlocks

/-- A file of two blocks: row block 1, column block 2, data blocks 3 and 4. -/
def twoBlocks : Pram :=
  (((⟨11, 5, fun b => b < 5, fun _ _ => 0⟩ : Pram).setPointer 1536 0 2048).setPointer
    2048 0 2560).setPointer 2048 1 3072

def twoBlocksRoles (b : Nat) : Option Role :=
  if b = 1 then some (.row 0) else if b = 2 then some (.column 0 0)
  else if b = 3 then some (.data 0 0) else if b = 4 then some (.data 0 1) else none

theorem twoBlocks_owned : Owned smallGeometry twoBlocks twoBlocksRoles := by
  intro b role use
  unfold twoBlocksRoles at use
  show 1 ≤ b ∧ b < 16 ∧ decide (b < 5) = true
  rw [decide_eq_true_iff]
  split at use
  · omega
  · split at use
    · omega
    · split at use
      · omega
      · split at use
        · omega
        · cases use

theorem twoBlocks_pointer (block j : Nat) : twoBlocks.pointer block j =
    if block = 2048 ∧ j = 1 then 3072 else if block = 2048 ∧ j = 0 then 2560
    else if block = 1536 ∧ j = 0 then 2048 else 0 := by
  rw [twoBlocks, pointer_setPointer _ _ _ (by decide), pointer_setPointer _ _ _ (by decide),
    pointer_setPointer _ _ _ (by decide)]
  rfl

theorem twoBlocks_row (r : Nat) : twoBlocks.pointer 1536 r = if r = 0 then 2048 else 0 := by
  simp [twoBlocks_pointer]

theorem twoBlocks_maps : Maps smallGeometry twoBlocks twoBlocksRoles 0 ⟨2, 1024, 2, 1536⟩ := by
  refine ⟨by decide, .inr ⟨⟨1, rfl, rfl⟩, ?_⟩⟩
  have pointers : smallGeometry.pointers = 128 := rfl
  constructor
  · intro r _
    rw [twoBlocks_row]
    by_cases first : r = 0
    · subst first
      exact .inr ⟨2, rfl, rfl⟩
    · exact .inl (if_neg first)
  · intro r _ below
    have first : r = 0 := by
      rw [pointers] at below
      simp only at below
      omega
    subst first
    decide
  · intro r _ mapped j _ below
    have first : r = 0 := by
      rw [pointers] at below
      simp only at below
      omega
    subst first
    simp only at below
    by_cases second : j = 1
    · subst second
      exact ⟨4, rfl, rfl⟩
    · have zero : j = 0 := by omega
      subst zero
      exact ⟨3, rfl, rfl⟩
  · intro r _ mapped j _ above
    have first : r = 0 := by
      by_contra other
      have none_there : twoBlocks.pointer 1536 r = 0 := by rw [twoBlocks_row, if_neg other]
      exact mapped none_there
    subst first
    simp only at above
    rw [twoBlocks_row, if_pos rfl, twoBlocks_pointer, if_neg (by omega), if_neg (by omega),
      if_neg (by omega)]

theorem pramTruncateBlocks_truncates_iff_twoBlocks :
    ∃ after, pramTruncateBlocks smallGeometry twoBlocks ⟨2, 1024, 2, 1536⟩ 0 = some after ∧
      Truncated smallGeometry twoBlocks ⟨2, 1024, 2, 1536⟩ 0 after :=
  (pramTruncateBlocks_truncates_iff twoBlocks_owned twoBlocks_maps (by decide)
    (by decide)).mpr (.inl rfl)

/-- A file of two blocks cut to one: the first block is lost with the row block. -/
theorem pramTruncateBlocks_losesBlock :
    Owned smallGeometry twoBlocks twoBlocksRoles ∧
      Maps smallGeometry twoBlocks twoBlocksRoles 0 ⟨2, 1024, 2, 1536⟩ ∧
      pramFindDataBlock smallGeometry twoBlocks ⟨2, 1024, 2, 1536⟩ 0 = 2560 ∧
      ∃ after, pramTruncateBlocks smallGeometry twoBlocks ⟨2, 1024, 2, 1536⟩ 1 = some after ∧
        pramFindDataBlock smallGeometry after.1 after.2 0 = 0 ∧ after.1.bitmap 1 = false := by
  refine ⟨twoBlocks_owned, twoBlocks_maps, by decide, ?_⟩
  exact ⟨_, rfl, rfl, rfl⟩

end TwoBlocks

end MagxKernel.Pramfs
