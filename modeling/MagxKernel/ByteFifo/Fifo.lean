import MagxKernel.Lib.RingCells

namespace MagxKernel.ByteFifo

open RingCells (memcpy)

/-- `struct kfifo`. The fields `in` and `out` count without a mask. -/
structure Kfifo where
  buffer : Nat → UInt8
  size : UInt32
  fifoIn : UInt32
  fifoOut : UInt32

abbrev enomem : Int := 12

/-- `BUG_ON` has no result. `kmalloc` says whether the allocation succeeds. -/
def kfifoInit (kmalloc : Bool) (buffer : Nat → UInt8) (size : UInt32) :
    Option (Except Int Kfifo) :=
  if size &&& (size - 1) ≠ 0 then none
  else if !kmalloc then some (.error (-enomem))
  else some (.ok ⟨buffer, size, 0, 0⟩)

/-- Position of the last set bit, counted from one. -/
def fls (x : UInt32) : Nat := if x = 0 then 0 else Nat.log2 x.toNat + 1

def roundupPowOfTwo (x : UInt32) : UInt32 := UInt32.ofNat (1 <<< fls (x - 1))

/-- The buffer comes from the first allocation, the `struct kfifo` from the second. -/
def kfifoAlloc (buffer : Option (Nat → UInt8)) (kmalloc : Bool) (size : UInt32) :
    Option (Except Int Kfifo) :=
  let finish (size : UInt32) :=
    match buffer with
    | none => some (.error (-enomem))
    | some buffer => kfifoInit kmalloc buffer size
  if size &&& (size - 1) ≠ 0 then
    if size > 0x80000000 then none else finish (roundupPowOfTwo size)
  else finish size

namespace Kfifo

/-- `__kfifo_put`: the fifo afterwards and the number of bytes copied. -/
def kfifoPut (fifo : Kfifo) (buffer : Nat → UInt8) (len : UInt32) : Kfifo × UInt32 :=
  let len := min len (fifo.size - fifo.fifoIn + fifo.fifoOut)
  -- first put the data starting from fifo->in to buffer end
  let l := min len (fifo.size - (fifo.fifoIn &&& (fifo.size - 1)))
  let first := memcpy fifo.buffer (fifo.fifoIn &&& (fifo.size - 1)).toNat buffer 0 l.toNat
  -- then put the rest (if any) at the beginning of the buffer
  let second := memcpy first 0 buffer l.toNat (len - l).toNat
  ({ fifo with buffer := second, fifoIn := fifo.fifoIn + len }, len)

/-- `__kfifo_get`: the fifo afterwards, the caller's buffer and the number of bytes copied. -/
def kfifoGet (fifo : Kfifo) (buffer : Nat → UInt8) (len : UInt32) :
    Kfifo × (Nat → UInt8) × UInt32 :=
  let len := min len (fifo.fifoIn - fifo.fifoOut)
  -- first get the data from fifo->out until the end of the buffer
  let l := min len (fifo.size - (fifo.fifoOut &&& (fifo.size - 1)))
  let first := memcpy buffer 0 fifo.buffer (fifo.fifoOut &&& (fifo.size - 1)).toNat l.toNat
  -- then get the rest (if any) from the beginning of the buffer
  let second := memcpy first l.toNat fifo.buffer 0 (len - l).toNat
  ({ fifo with fifoOut := fifo.fifoOut + len }, second, len)

/-- `__kfifo_reset`. -/
def kfifoReset (fifo : Kfifo) : Kfifo := { fifo with fifoIn := 0, fifoOut := 0 }

/-- `kfifo_get`, which sets the indices of an emptied fifo back to zero. -/
def kfifoGetReset (fifo : Kfifo) (buffer : Nat → UInt8) (len : UInt32) :
    Kfifo × (Nat → UInt8) × UInt32 :=
  let result := fifo.kfifoGet buffer len
  if result.1.fifoIn = result.1.fifoOut then (result.1.kfifoReset, result.2) else result

/-- `__kfifo_len`. -/
def kfifoLen (fifo : Kfifo) : UInt32 := fifo.fifoIn - fifo.fifoOut

end Kfifo

theorem toNat_min (left right : UInt32) : (min left right).toNat = min left.toNat right.toNat := by
  change (if left ≤ right then left else right).toNat = _
  split
  next order =>
    rw [UInt32.le_iff_toNat_le] at order
    omega
  next order =>
    rw [UInt32.le_iff_toNat_le] at order
    omega

theorem toNat_sub_of_le (left right : UInt32) (order : right.toNat ≤ left.toNat) :
    (left - right).toNat = left.toNat - right.toNat :=
  UInt32.toNat_sub_of_le left right (UInt32.le_iff_toNat_le.mpr order)

end MagxKernel.ByteFifo
