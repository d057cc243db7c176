import MagxKernel.Lib.Runs
import MagxKernel.Pramfs.Alloc

namespace MagxKernel.Pramfs

/-- `memcpy` into a block. -/
def Pram.copyIn (fs : Pram) (block blockoff : Nat) (buf : List UInt8) : Pram :=
  { fs with block := Function.update fs.block block fun place =>
      if blockoff ≤ place ∧ place < blockoff + buf.length then buf.getD (place - blockoff) 0
      else fs.block block place }

def Pram.copyOut (fs : Pram) (block blockoff count : Nat) : List UInt8 :=
  (List.range count).map fun index => fs.block block (blockoff + index)

/-- How much of a block one turn of the loop of `pram_direct_IO` takes. -/
def turnCount (geo : Geometry) (blockoff length : Nat) : Nat :=
  if geo.blocksize < blockoff + length then geo.blocksize - blockoff else length

/-- The loop of `pram_direct_IO` for `WRITE`. It stops short at a block that is not mapped. -/
def writeBlocks (geo : Geometry) (inode : Inode) :
    Nat → Nat → Nat → List UInt8 → Pram → Option (Bool × Pram)
  | 0, _, _, _, _ => none
  | fuel + 1, blocknr, blockoff, buf, fs =>
      if buf.length = 0 then some (true, fs)
      else
        let block := pramFindDataBlock geo fs inode blocknr
        if block = 0 then some (false, fs)
        else
          let count := turnCount geo blockoff buf.length
          writeBlocks geo inode fuel (blocknr + 1) 0 (buf.drop count)
            (fs.copyIn block blockoff (buf.take count))

/-- The loop for `READ`. -/
def readBlocks (geo : Geometry) (fs : Pram) (inode : Inode) :
    Nat → Nat → Nat → Nat → Option (Bool × List UInt8)
  | 0, _, _, _ => none
  | fuel + 1, blocknr, blockoff, length =>
      if length = 0 then some (true, [])
      else
        let block := pramFindDataBlock geo fs inode blocknr
        if block = 0 then some (false, [])
        else
          let count := turnCount geo blockoff length
          (readBlocks geo fs inode fuel (blocknr + 1) 0 (length - count)).map fun rest =>
            (rest.1, fs.copyOut block blockoff count ++ rest.2)

def enomem : Int := -12
def enospc : Int := -28

/-- `pram_direct_IO` for `WRITE`; `memory` tells whether the temporary buffer was there. -/
def pramDirectIOWrite (geo : Geometry) (memory : Bool) (fs : Pram) (inode : Inode) (offset : Nat)
    (buf : List UInt8) : Option (Int × Pram × Inode) :=
  if buf.length = 0 then some (0, fs, inode)
  else
    let blocknr := offset / geo.blocksize
    let blockoff := offset % geo.blocksize
    let numBlocks := (blockoff + buf.length + (geo.blocksize - 1)) / geo.blocksize
    if memory = false then some (enomem, fs, inode)
    else
      let grown := pramAllocBlocks geo fs inode blocknr numBlocks
      if grown.done = false then some (enospc, grown.fs, grown.inode)
      else
        (writeBlocks geo grown.inode (buf.length + 1) blocknr blockoff buf grown.fs).map
          fun result => (if result.1 then buf.length else 0, result.2, grown.inode)

/-- `pram_direct_IO` for `READ`: the value returned and the bytes for the user. -/
def pramDirectIORead (geo : Geometry) (fs : Pram) (inode : Inode) (offset length : Nat) :
    Option (Int × List UInt8) :=
  let length := if inode.iSize < offset + length then (inode.iSize + 2 ^ 32 - offset) % 2 ^ 32
    else length
  if length = 0 then some (0, [])
  else
    (readBlocks geo fs inode (length + 1) (offset / geo.blocksize) (offset % geo.blocksize)
        length).map fun result =>
      (if result.1 then length else 0, result.2)

/-- A write that succeeded. -/
structure Written where
  ino : Nat
  offset : Nat
  buf : List UInt8

/-- The file system with its regular files, and the writes so far, the latest first. -/
structure Volume where
  fs : Pram
  inodes : Nat → Inode
  history : List Written

inductive Op where
  | write (memory : Bool) (ino offset : Nat) (buf : List UInt8)
  | read (ino offset length : Nat)

/-- After the write `generic_file_direct_write` moves the end of the file. -/
def step (geo : Geometry) (volume : Volume) : Op → Option Volume
  | .write memory ino offset buf =>
      (pramDirectIOWrite geo memory volume.fs (volume.inodes ino) offset buf).map fun result =>
        let inode := result.2.2
        let size := if 0 < result.1 ∧ inode.iSize < offset + result.1.toNat then
          offset + result.1.toNat else inode.iSize
        ⟨result.2.1, Function.update volume.inodes ino { inode with iSize := size },
          if 0 < result.1 then ⟨ino, offset, buf⟩ :: volume.history else volume.history⟩
  | .read ino offset length =>
      (pramDirectIORead geo volume.fs (volume.inodes ino) offset length).map fun _ => volume

/-- The value last written to a place of a file, and zero if there is none. -/
def lastWritten (history : List Written) (ino place : Nat) : UInt8 :=
  (history.find? fun entry =>
      entry.ino = ino ∧ entry.offset ≤ place ∧ place < entry.offset + entry.buf.length).elim 0
    fun entry => entry.buf.getD (place - entry.offset) 0

end MagxKernel.Pramfs
