import Mathlib.Logic.Function.Basic
import MagxKernel.Lib.MachineInt

namespace MagxKernel.Pramfs

open MachineInt Function

/-- What is fixed when the file system is made: `s_blocksize_bits`, `s_bitmap_start`,
`s_bitmap_blocks` and `s_blocks_count`. Blocks are numbered from the start of the bitmap. -/
structure Geometry where
  bits : Nat
  bitmapStart : Nat
  bitmapBlocks : Nat
  blocksCount : Nat
  /-- `PRAM_MIN_BLOCK_SIZE` and `PRAM_MAX_BLOCK_SIZE` -/
  sized : 9 ≤ bits ∧ bits ≤ 12
  /-- the super block and the inode table lie in front of the bitmap -/
  behind : 0 < bitmapStart
  narrow : bitmapStart + blocksCount * 2 ^ bits ≤ 2 ^ 32

namespace Geometry

variable (geo : Geometry)

def blocksize : Nat := 2 ^ geo.bits

/-- The number of block pointers in a block. -/
def pointers : Nat := 2 ^ (geo.bits - 2)

def getBlockOff (blocknr : Nat) : Nat := (geo.bitmapStart + blocknr * 2 ^ geo.bits) % 2 ^ 32

def getBlocknr (block : Nat) : Nat :=
  (block + 2 ^ 32 - geo.bitmapStart) % 2 ^ 32 / 2 ^ geo.bits

end Geometry

/-- The allocation state and the bytes of each block, found by its offset. -/
structure Pram where
  freeBlocksCount : Nat
  freeBlocknrHint : Nat
  bitmap : Nat → Bool
  block : Nat → Nat → UInt8

/-- `struct inode` with the `i_blocks` and the `row_block` of the `struct pram_inode`
behind it. -/
structure Inode where
  iBlocks : Nat
  iSize : Nat
  piBlocks : Nat
  rowBlock : Nat
deriving DecidableEq

/-- The pointer at a place of the index block at offset `block`. -/
def Pram.pointer (fs : Pram) (block index : Nat) : Nat := loadWord (fs.block block) index

def Pram.setPointer (fs : Pram) (block index word : Nat) : Pram :=
  { fs with block := update fs.block block (storeWord (fs.block block) index word) }

def pramFindDataBlock (geo : Geometry) (fs : Pram) (inode : Inode) (fileBlocknr : Nat) : Nat :=
  let iRow := fileBlocknr / geo.pointers
  let iCol := fileBlocknr % geo.pointers
  if inode.rowBlock = 0 then 0
  else
    let col := fs.pointer inode.rowBlock iRow
    if col = 0 then 0 else fs.pointer col iCol

def pramFreeBlock (fs : Pram) (blocknr : Nat) : Pram :=
  { fs with
    bitmap := update fs.bitmap blocknr false
    freeBlocknrHint := if blocknr < fs.freeBlocknrHint then blocknr else fs.freeBlocknrHint
    freeBlocksCount := fs.freeBlocksCount + 1 }

/-- The inner loop of `pram_truncate_blocks`: `count` pointers of a column block from
`j` on. -/
def truncateColumn (geo : Geometry) (col : Nat) : Nat → Nat → Pram → Pram
  | 0, _, fs => fs
  | count + 1, j, fs =>
      let fs := pramFreeBlock fs (geo.getBlocknr (fs.pointer col j))
      truncateColumn geo col count (j + 1) (fs.setPointer col j 0)

/-- One turn of the outer loop, with the column bounds of the row. A missing column block
is written through a null pointer. -/
def truncateRow (geo : Geometry) (row first last i : Nat) (fs : Pram) : Option Pram :=
  let firstColIndex := if i = first / geo.pointers then first % geo.pointers else 0
  let lastColIndex := if i = last / geo.pointers then last % geo.pointers else geo.pointers - 1
  let col := fs.pointer row i
  if col = 0 then none
  else
    let fs := truncateColumn geo col (lastColIndex + 1 - firstColIndex) firstColIndex fs
    if firstColIndex = 0 then
      some ((pramFreeBlock fs (geo.getBlocknr (fs.pointer row i))).setPointer row i 0)
    else some fs

/-- The outer loop: `count` rows from `i` on. -/
def truncateRows (geo : Geometry) (row first last : Nat) : Nat → Nat → Pram → Option Pram
  | 0, _, fs => some fs
  | count + 1, i, fs =>
      (truncateRow geo row first last i fs).bind fun fs =>
        truncateRows geo row first last count (i + 1) fs

def pramTruncateBlocks (geo : Geometry) (fs : Pram) (inode : Inode) (firstTruncBlock : Nat) :
    Option (Pram × Inode) :=
  if inode.iBlocks ≤ firstTruncBlock ∨ inode.iBlocks = 0 ∨ inode.rowBlock = 0 then some (fs, inode)
  else
    let lastBlocknr := inode.iBlocks - 1
    let firstRowIndex := firstTruncBlock / geo.pointers
    let lastRowIndex := lastBlocknr / geo.pointers
    (truncateRows geo inode.rowBlock firstTruncBlock lastBlocknr
        (lastRowIndex + 1 - firstRowIndex) firstRowIndex fs).map fun fs =>
      let iBlocks := inode.iBlocks - (lastBlocknr + 1 - firstTruncBlock)
      let inode := { inode with
        iBlocks := iBlocks
        piBlocks := iBlocks }
      if firstRowIndex = 0 then
        (pramFreeBlock fs (geo.getBlocknr inode.rowBlock), { inode with rowBlock := 0 })
      else (fs, inode)

/-- The first number from `offset` on whose bit is clear, or `size`. -/
def findNextZeroBit (bitmap : Nat → Bool) (size offset : Nat) : Nat :=
  ((List.range' offset (size - offset)).find? fun nr => !bitmap nr).getD size

/-- No result stands for `-ENOSPC`, with nothing changed. -/
def pramNewBlock (geo : Geometry) (fs : Pram) (zero : Bool) : Option (Nat × Pram) :=
  if fs.freeBlocksCount = 0 then none
  else
    let bnr := findNextZeroBit fs.bitmap geo.blocksCount fs.freeBlocknrHint
    if bnr < geo.bitmapBlocks ∨ geo.blocksCount ≤ bnr then none
    else
      let fs := { fs with
        freeBlocksCount := fs.freeBlocksCount - 1
        freeBlocknrHint := if bnr < geo.blocksCount - 1 then bnr + 1 else 0
        bitmap := update fs.bitmap bnr true }
      let off := geo.getBlockOff bnr
      some (bnr, if zero then { fs with block := update fs.block off fun _ => 0 } else fs)

/-- A data block is counted in the inode. -/
def pramNewDataBlock (geo : Geometry) (fs : Pram) (inode : Inode) (zero : Bool) :
    Option (Nat × Pram × Inode) :=
  (pramNewBlock geo fs zero).map fun fresh =>
    (fresh.1, fresh.2, { inode with
      iBlocks := inode.iBlocks + 1
      piBlocks := inode.iBlocks + 1 })

/-- The file system and an inode as an allocation leaves them, and whether it succeeded. -/
structure Grown where
  done : Bool
  fs : Pram
  inode : Inode

/-- The inner loop of `pram_alloc_blocks`: `count` pointers of the column block `col` from
`j` on. The last data block of the last row is not zeroed. -/
def allocColumn (geo : Geometry) (col : Nat) (lastRow : Bool) :
    Nat → Nat → Pram → Inode → Grown
  | 0, _, fs, inode => ⟨true, fs, inode⟩
  | count + 1, j, fs, inode =>
      let lastBlock := lastRow && count == 0
      if fs.pointer col j ≠ 0 then allocColumn geo col lastRow count (j + 1) fs inode
      else
        match pramNewDataBlock geo fs inode (!lastBlock) with
        | none => ⟨false, fs, inode⟩
        | some fresh =>
            allocColumn geo col lastRow count (j + 1)
              (fresh.2.1.setPointer col j (geo.getBlockOff fresh.1)) fresh.2.2

/-- The column block of a row, made if it is missing. -/
def allocRow (geo : Geometry) (row i : Nat) (fs : Pram) : Option Pram :=
  if fs.pointer row i ≠ 0 then some fs
  else (pramNewBlock geo fs true).map fun fresh =>
    fresh.2.setPointer row i (geo.getBlockOff fresh.1)

/-- The outer loop of `pram_alloc_blocks`: `count` rows from `i` on. -/
def allocRows (geo : Geometry) (row first last : Nat) : Nat → Nat → Pram → Inode → Grown
  | 0, _, fs, inode => ⟨true, fs, inode⟩
  | count + 1, i, fs, inode =>
      match allocRow geo row i fs with
      | none => ⟨false, fs, inode⟩
      | some fs =>
          let firstColIndex := if i = first / geo.pointers then first % geo.pointers else 0
          let lastRow := decide (i = last / geo.pointers)
          let lastColIndex := if lastRow then last % geo.pointers else geo.pointers - 1
          let grown := allocColumn geo (fs.pointer row i) lastRow
            (lastColIndex + 1 - firstColIndex) firstColIndex fs inode
          if grown.done then allocRows geo row first last count (i + 1) grown.fs grown.inode
          else grown

/-- The block of the row pointers, made if it is missing. -/
def allocRowBlock (geo : Geometry) (fs : Pram) (inode : Inode) : Option (Pram × Inode) :=
  if inode.rowBlock ≠ 0 then some (fs, inode)
  else (pramNewBlock geo fs true).map fun fresh =>
    (fresh.2, { inode with rowBlock := geo.getBlockOff fresh.1 })

/-- `num` is not zero. -/
def pramAllocBlocks (geo : Geometry) (fs : Pram) (inode : Inode) (fileBlocknr num : Nat) : Grown :=
  match allocRowBlock geo fs inode with
  | none => ⟨false, fs, inode⟩
  | some made =>
      let first := if made.2.iBlocks < fileBlocknr then made.2.iBlocks else fileBlocknr
      let last := fileBlocknr + num - 1
      allocRows geo made.2.rowBlock first last
        (last / geo.pointers + 1 - first / geo.pointers) (first / geo.pointers) made.1 made.2

end MagxKernel.Pramfs
