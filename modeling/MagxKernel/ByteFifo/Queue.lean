import Mathlib.Data.Nat.Log
import MagxKernel.Lib.Runs
import MagxKernel.ByteFifo.Fifo

namespace MagxKernel.ByteFifo

open RingCells List

/-- The bytes before the caller's buffer in `list`, and the caller's own bytes after them. -/
def store (buffer : Nat → UInt8) (list : List UInt8) : Nat → UInt8 :=
  fun n => list[n]?.getD (buffer n)

/-- What a bounded byte queue does on a put: it takes as many bytes as it has room for. -/
def queuePut (size : Nat) (queue : List UInt8) (buffer : Nat → UInt8) (len : Nat) :
    List UInt8 × Nat :=
  let taken := min len (size - queue.length)
  (queue ++ (List.range taken).map buffer, taken)

/-- What a bounded byte queue does on a get: it gives its oldest bytes away. -/
def queueGet (queue : List UInt8) (buffer : Nat → UInt8) (len : Nat) :
    List UInt8 × (Nat → UInt8) × Nat :=
  (queue.drop len, store buffer (queue.take len), min len queue.length)

/-- The fifo stores the bytes of `queue`, the oldest one at `out`. -/
structure Holds (fifo : Kfifo) (queue : List UInt8) : Prop where
  power : ∃ exponent, fifo.size.toNat = 2 ^ exponent
  count : (fifo.fifoIn - fifo.fifoOut).toNat = queue.length
  room : queue.length ≤ fifo.size.toNat
  bytes : window fifo.buffer fifo.size.toNat fifo.fifoOut.toNat queue.length = queue

section Counters

variable {size : UInt32}

section

variable (power : ∃ exponent, size.toNat = 2 ^ exponent)

include power

theorem size_pos : 0 < size.toNat := by
  obtain ⟨exponent, value⟩ := power
  rw [value]
  exact Nat.two_pow_pos exponent

/-- The size divides the range of the counters, so a wrap does not move the cells. -/
theorem size_dvd : size.toNat ∣ 2 ^ 32 := by
  obtain ⟨exponent, value⟩ := power
  have small : 2 ^ exponent < 2 ^ 32 := by
    rw [← value]
    exact size.toNat_lt
  have order := (Nat.pow_lt_pow_iff_right (by decide : 1 < 2)).mp small
  rw [value]
  exact Nat.pow_dvd_pow 2 (Nat.le_of_lt order)

/-- The mask `size - 1` keeps the position inside the buffer. -/
theorem mask_toNat (counter : UInt32) :
    (counter &&& (size - 1)).toNat = counter.toNat % size.toNat := by
  have positive := size_pos power
  obtain ⟨exponent, value⟩ := power
  have less : (size - 1).toNat = 2 ^ exponent - 1 := by
    rw [← value]
    exact toNat_sub_of_le size 1 positive
  rw [UInt32.toNat_and, less, value]
  exact Nat.and_two_pow_sub_one_eq_mod _ _

end

theorem free_toNat (fifoIn fifoOut : UInt32) (room : (fifoIn - fifoOut).toNat ≤ size.toNat) :
    (size - fifoIn + fifoOut).toNat = size.toNat - (fifoIn - fifoOut).toNat := by
  have inBound := fifoIn.toNat_lt
  have outBound := fifoOut.toNat_lt
  have sizeBound := size.toNat_lt
  simp only [UInt32.toNat_add, UInt32.toNat_sub] at *
  omega

section

variable (power : ∃ exponent, size.toNat = 2 ^ exponent)

include power

/-- The writing position lies the queued bytes after the reading position. -/
theorem in_position (fifoIn fifoOut : UInt32) :
    fifoIn.toNat % size.toNat =
      (fifoOut.toNat + (fifoIn - fifoOut).toNat) % size.toNat := by
  have wrapped : (fifoOut.toNat + (fifoIn - fifoOut).toNat) % 2 ^ 32 = fifoIn.toNat := by
    have inBound := fifoIn.toNat_lt
    have outBound := fifoOut.toNat_lt
    rw [UInt32.toNat_sub]
    omega
  rw [← wrapped]
  exact Nat.mod_mod_of_dvd _ (size_dvd power)

/-- Moving a counter by `step` moves its position by as many cells. -/
theorem advance_position (counter step : UInt32) :
    (counter + step).toNat % size.toNat = (counter.toNat + step.toNat) % size.toNat := by
  exact Nat.mod_mod_of_dvd _ (size_dvd power)

theorem first_toNat (len counter : UInt32) :
    (min len (size - (counter &&& (size - 1)))).toNat =
      min len.toNat (size.toNat - counter.toNat % size.toNat) := by
  have low := Nat.mod_lt counter.toNat (size_pos power)
  rw [toNat_min, toNat_sub_of_le, mask_toNat power]
  rw [mask_toNat power]
  omega

end

theorem rest_toNat (len bound : UInt32) :
    (len - min len bound).toNat = len.toNat - (min len bound).toNat := by
  apply toNat_sub_of_le
  rw [toNat_min]
  omega

end Counters

variable {fifo : Kfifo} {queue : List UInt8}

section

variable (held : Holds fifo queue)

include held

theorem Holds.byte (n : Nat) (bound : n < queue.length) :
    fifo.buffer ((fifo.fifoOut.toNat + n) % fifo.size.toNat) = queue[n] := by
  have cell := window_getElem fifo.buffer fifo.size.toNat fifo.fifoOut.toNat queue.length n
    (by simpa using bound)
  rw [← cell]
  simp only [held.bytes]

section

variable (buffer : Nat → UInt8) (len : UInt32)

include buffer len

theorem put_count :
    (fifo.kfifoPut buffer len).2.toNat = min len.toNat (fifo.size.toNat - queue.length) := by
  have room : (fifo.fifoIn - fifo.fifoOut).toNat ≤ fifo.size.toNat := by
    rw [held.count]
    exact held.room
  simp only [Kfifo.kfifoPut]
  rw [toNat_min, free_toNat _ _ room, held.count]

/-- The two copies of a put are one write to the ring. -/
theorem put_buffer :
    (fifo.kfifoPut buffer len).1.buffer =
      copyIn fifo.buffer fifo.size.toNat fifo.fifoIn.toNat buffer
        (fifo.kfifoPut buffer len).2.toNat := by
  simp [Kfifo.kfifoPut, copyIn, mask_toNat held.power, rest_toNat, first_toNat held.power]

theorem get_count : (fifo.kfifoGet buffer len).2.2.toNat = min len.toNat queue.length := by
  simp only [Kfifo.kfifoGet]
  rw [toNat_min, held.count]

/-- The two copies of a get are one read of the ring. -/
theorem get_buffer :
    (fifo.kfifoGet buffer len).2.1 =
      copyOut buffer fifo.buffer fifo.size.toNat fifo.fifoOut.toNat
        (fifo.kfifoGet buffer len).2.2.toNat := by
  simp [Kfifo.kfifoGet, copyOut, mask_toNat held.power, rest_toNat, first_toNat held.power]

/-- `__kfifo_put` appends the bytes there is room for and keeps the queued ones. -/
theorem kfifoPut_refines :
    Holds (fifo.kfifoPut buffer len).1 (queuePut fifo.size.toNat queue buffer len.toNat).1 ∧
      (fifo.kfifoPut buffer len).2.toNat = (queuePut fifo.size.toNat queue buffer len.toNat).2 := by
  have count := put_count held buffer len
  have room := held.room
  have length : (queuePut fifo.size.toNat queue buffer len.toNat).1.length =
      queue.length + (fifo.kfifoPut buffer len).2.toNat := by
    simp [queuePut, count]
  refine ⟨⟨held.power, ?_, ?_, ?_⟩, count⟩
  · change (fifo.fifoIn + (fifo.kfifoPut buffer len).2 - fifo.fifoOut).toNat = _
    have old := held.count
    have sizeBound := fifo.size.toNat_lt
    rw [length, UInt32.toNat_sub, UInt32.toNat_add]
    rw [UInt32.toNat_sub] at old
    -- a full ring of 2 ^ 31 bytes still counts below 2 ^ 32
    omega
  · change _ ≤ fifo.size.toNat
    omega
  · change window (fifo.kfifoPut buffer len).1.buffer fifo.size.toNat fifo.fifoOut.toNat _ = _
    rw [length, window_add, put_buffer held]
    have position := in_position held.power fifo.fifoIn fifo.fifoOut
    rw [held.count] at position
    simp only [queuePut, ← count]
    congr 1
    · rw [window_congr fun n bound => ?_]
      · exact held.bytes
      · -- an old cell is met again only after the free ones, once round the ring
        have around : (fifo.fifoOut.toNat + n) % fifo.size.toNat =
            (fifo.fifoIn.toNat + (fifo.size.toNat - queue.length + n)) % fifo.size.toNat := by
          rw [Nat.add_mod fifo.fifoIn.toNat, position, ← Nat.add_mod]
          rw [show fifo.fifoOut.toNat + queue.length + (fifo.size.toNat - queue.length + n) =
            fifo.fifoOut.toNat + n + fifo.size.toNat by omega, Nat.add_mod_right]
        rw [around]
        exact copyIn_other (by omega) (by omega)
    · rw [window_start position.symm]
      apply map_congr_left
      intro n member
      exact copyIn_slot (by omega) (mem_range.mp member)

theorem kfifoPut_inside (cell : Nat) (beyond : fifo.size.toNat ≤ cell) :
    (fifo.kfifoPut buffer len).1.buffer cell = fifo.buffer cell := by
  have count := put_count held buffer len
  rw [put_buffer held]
  exact copyIn_beyond (by omega) (size_pos held.power) beyond

/-- `__kfifo_get` returns the oldest bytes in order and keeps the younger ones. -/
theorem kfifoGet_refines :
    Holds (fifo.kfifoGet buffer len).1 (queueGet queue buffer len.toNat).1 ∧
      (fifo.kfifoGet buffer len).2.1 = (queueGet queue buffer len.toNat).2.1 ∧
      (fifo.kfifoGet buffer len).2.2.toNat = (queueGet queue buffer len.toNat).2.2 := by
  have count := get_count held buffer len
  have room := held.room
  have kept : (queue.drop len.toNat).length =
      queue.length - (fifo.kfifoGet buffer len).2.2.toNat := by
    rw [length_drop, count]
    omega
  refine ⟨⟨held.power, ?_, ?_, ?_⟩, ?_, count⟩
  · change (fifo.fifoIn - (fifo.fifoOut + (fifo.kfifoGet buffer len).2.2)).toNat =
      (queue.drop len.toNat).length
    have old := held.count
    rw [kept, UInt32.toNat_sub, UInt32.toNat_add]
    rw [UInt32.toNat_sub] at old
    have outBound := fifo.fifoOut.toNat_lt
    omega
  · change (queue.drop len.toNat).length ≤ fifo.size.toNat
    omega
  · change window fifo.buffer fifo.size.toNat
      (fifo.fifoOut + (fifo.kfifoGet buffer len).2.2).toNat (queue.drop len.toNat).length =
        queue.drop len.toNat
    rw [window_start (advance_position held.power _ _)]
    apply ext_getElem (window_length)
    intro n _ bound
    have inside : len.toNat + n < queue.length := by
      omega
    -- the rest is empty when more bytes were asked for than there are
    have all : (fifo.kfifoGet buffer len).2.2.toNat = len.toNat := by omega
    rw [window_getElem, getElem_drop, all, Nat.add_assoc]
    exact held.byte _ inside
  · change _ = store buffer (queue.take len.toNat)
    funext n
    rw [get_buffer held, store]
    by_cases inside : n < (fifo.kfifoGet buffer len).2.2.toNat
    · have bound : n < (queue.take len.toNat).length := by
        rw [length_take]
        omega
      rw [copyOut_inside (by omega) inside,
        getElem?_eq_getElem bound, Option.getD_some, getElem_take]
      exact held.byte n (by omega)
    · rw [copyOut_outside (by omega), getElem?_eq_none, Option.getD_none]
      rw [length_take]
      omega

end

/-- Setting back the indices of an empty fifo changes nothing for its callers. -/
theorem kfifoReset_refines : Holds fifo.kfifoReset [] :=
  ⟨held.power, by simp [Kfifo.kfifoReset], Nat.zero_le _, rfl⟩

theorem kfifoGetReset_refines (buffer : Nat → UInt8) (len : UInt32) :
    Holds (fifo.kfifoGetReset buffer len).1 (queueGet queue buffer len.toNat).1 ∧
      (fifo.kfifoGetReset buffer len).2 = (fifo.kfifoGet buffer len).2 := by
  have got := kfifoGet_refines held buffer len
  rw [Kfifo.kfifoGetReset]
  split
  next emptied =>
    have length := got.1.count
    rw [emptied, UInt32.sub_self] at length
    have none := eq_nil_of_length_eq_zero length.symm
    rw [none]
    exact ⟨kfifoReset_refines got.1, rfl⟩
  next => exact ⟨got.1, rfl⟩

theorem kfifoLen_eq : fifo.kfifoLen.toNat = queue.length := held.count

end

/-- A call with the caller's buffer. -/
inductive Call where
  | put (buffer : Nat → UInt8) (len : UInt32)
  | get (buffer : Nat → UInt8) (len : UInt32)

/-- The number a call returns and the contents of the caller's buffer afterwards. -/
structure Result where
  buffer : Nat → UInt8
  count : Nat

def fifoCall (fifo : Kfifo) : Call → Kfifo × Result
  | .put buffer len => ((fifo.kfifoPut buffer len).1, ⟨buffer, (fifo.kfifoPut buffer len).2.toNat⟩)
  | .get buffer len =>
      let result := fifo.kfifoGet buffer len
      (result.1, ⟨result.2.1, result.2.2.toNat⟩)

def queueCall (size : Nat) (queue : List UInt8) : Call → List UInt8 × Result
  | .put buffer len =>
      let result := queuePut size queue buffer len.toNat
      (result.1, ⟨buffer, result.2⟩)
  | .get buffer len =>
      let result := queueGet queue buffer len.toNat
      (result.1, ⟨result.2.1, result.2.2⟩)

theorem fifoCall_size (fifo : Kfifo) (call : Call) : (fifoCall fifo call).1.size = fifo.size := by
  cases call with
  | put buffer len | get buffer len => rfl

theorem fifoCall_refines (held : Holds fifo queue) (call : Call) :
    Holds (fifoCall fifo call).1 (queueCall fifo.size.toNat queue call).1 ∧
      (fifoCall fifo call).2 = (queueCall fifo.size.toNat queue call).2 := by
  cases call with
  | put buffer len =>
    have put := kfifoPut_refines held buffer len
    exact ⟨put.1, congrArg (Result.mk buffer) put.2⟩
  | get buffer len =>
    have got := kfifoGet_refines held buffer len
    exact ⟨got.1, congrArg₂ Result.mk got.2.1 got.2.2⟩

theorem kfifoInit_holds (buffer : Nat → UInt8) (size : UInt32)
    (power : ∃ exponent, size.toNat = 2 ^ exponent) :
    ∃ fifo, kfifoInit true buffer size = some (.ok fifo) ∧ fifo.size = size ∧ Holds fifo [] := by
  have masked : size &&& (size - 1) = 0 := by
    apply UInt32.toNat_inj.mp
    rw [mask_toNat power, Nat.mod_self]
    rfl
  refine ⟨⟨buffer, size, 0, 0⟩, ?_, rfl, power, by simp, Nat.zero_le _, rfl⟩
  simp [kfifoInit, masked]

theorem toNat_sub_one {size : UInt32} (positive : size ≠ 0) :
    size.toNat ≠ 0 ∧ (size - 1).toNat = size.toNat - 1 := by
  have nonzero : size.toNat ≠ 0 := fun zero => positive (UInt32.toNat_inj.mp zero)
  exact ⟨nonzero, toNat_sub_of_le size 1 (Nat.one_le_iff_ne_zero.mpr nonzero)⟩

theorem fls_eq_clog {size : UInt32} (positive : size ≠ 0) :
    fls (size - 1) = Nat.clog 2 size.toNat := by
  obtain ⟨nonzero, less⟩ := toNat_sub_one positive
  rw [fls]
  split
  next one =>
    have single : size.toNat = 1 := by
      rw [one] at less
      change 0 = _ at less
      omega
    rw [single, Nat.clog_one_right]
  next other =>
    have rest : size.toNat - 1 ≠ 0 := by
      rw [← less]
      exact fun zero => other (UInt32.toNat_inj.mp zero)
    rw [less]
    apply le_antisymm
    · apply Nat.succ_le_of_lt
      rw [Nat.lt_clog_iff_pow_lt (by decide)]
      have low := Nat.log2_self_le rest
      omega
    · rw [Nat.clog_le_iff_le_pow (by decide)]
      have high := @Nat.lt_log2_self (size.toNat - 1)
      omega

theorem roundupPowOfTwo_toNat {size : UInt32} (positive : size ≠ 0)
    (small : size ≤ 0x80000000) : (roundupPowOfTwo size).toNat = 2 ^ Nat.clog 2 size.toNat := by
  have bits : Nat.clog 2 size.toNat ≤ 31 :=
    (Nat.clog_le_iff_le_pow (by decide)).mpr (UInt32.le_iff_toNat_le.mp small)
  have fits : 2 ^ Nat.clog 2 size.toNat < 2 ^ 32 := Nat.pow_lt_pow_right (by decide) (by omega)
  rw [roundupPowOfTwo, Nat.one_shiftLeft, fls_eq_clog positive, UInt32.toNat_ofNat_of_lt' fits]

/-- The fifo gets the least power of two that is not below the size asked for. -/
theorem kfifoAlloc_holds (buffer : Nat → UInt8) {size : UInt32} (positive : size ≠ 0)
    (small : size ≤ 0x80000000) :
    ∃ fifo, kfifoAlloc (some buffer) true size = some (.ok fifo) ∧
      fifo.size.toNat = 2 ^ Nat.clog 2 size.toNat ∧ Holds fifo [] := by
  obtain ⟨nonzero, less⟩ := toNat_sub_one positive
  have rounded := roundupPowOfTwo_toNat positive small
  by_cases power : size &&& (size - 1) = 0
  · obtain ⟨exponent, value⟩ : ∃ exponent, size.toNat = 2 ^ exponent := by
      apply (Nat.and_sub_one_eq_zero_iff_isPowerOfTwo nonzero).mp
      rw [← less, ← UInt32.toNat_and, power]
      rfl
    obtain ⟨fifo, created, sized, empty⟩ := kfifoInit_holds buffer size ⟨exponent, value⟩
    refine ⟨fifo, ?_, ?_, empty⟩
    · simpa [kfifoAlloc, power] using created
    · rw [sized, value, Nat.clog_pow 2 exponent (by decide)]
  · obtain ⟨fifo, created, sized, empty⟩ := kfifoInit_holds buffer _ ⟨_, rounded⟩
    refine ⟨fifo, ?_, by rw [sized, rounded], empty⟩
    simpa [kfifoAlloc, power, UInt32.not_lt.mpr small] using created

/-- `kfifo_put` and `kfifo_get`, which hold the lock. -/
def lockedCall (fifo : Kfifo) : Call → Kfifo × Result
  | .put buffer len => fifoCall fifo (.put buffer len)
  | .get buffer len =>
      let result := fifo.kfifoGetReset buffer len
      (result.1, ⟨result.2.1, result.2.2.toNat⟩)

theorem lockedCall_refines (held : Holds fifo queue) (call : Call) :
    Holds (lockedCall fifo call).1 (queueCall fifo.size.toNat queue call).1 ∧
      (lockedCall fifo call).2 = (queueCall fifo.size.toNat queue call).2 := by
  have plain := fifoCall_refines held call
  cases call with
  | put buffer len => exact plain
  | get buffer len =>
    have reset := kfifoGetReset_refines held buffer len
    refine ⟨reset.1, Eq.trans ?_ plain.2⟩
    simp [lockedCall, reset.2, fifoCall]

theorem lockedCall_frame (held : Holds fifo queue) (call : Call) :
    (lockedCall fifo call).1.size = fifo.size ∧ ∀ cell, fifo.size.toNat ≤ cell →
      (lockedCall fifo call).1.buffer cell = fifo.buffer cell := by
  cases call with
  | put buffer len => exact ⟨rfl, kfifoPut_inside held buffer len⟩
  | get buffer len =>
    simp only [lockedCall, Kfifo.kfifoGetReset]
    split <;> exact ⟨rfl, fun _ _ => rfl⟩

/-- `kfifo_alloc` returns a fifo of the least power of two that is not below the size asked for.
After any calls under the lock it has answered as a byte queue of that size does and has not
written behind its buffer. -/
theorem kfifoAlloc_refines (buffer : Nat → UInt8) (size : UInt32) (positive : size ≠ 0)
    (small : size ≤ 0x80000000) (calls : List Call) :
    ∃ fifo, kfifoAlloc (some buffer) true size = some (.ok fifo) ∧
      fifo.size.toNat = 2 ^ Nat.clog 2 size.toNat ∧
      let final := Runs.trace lockedCall fifo calls
      let spec := Runs.trace (queueCall (2 ^ Nat.clog 2 size.toNat)) [] calls
      final.2 = spec.2 ∧ final.1.kfifoLen.toNat = spec.1.length ∧
        ∀ cell, 2 ^ Nat.clog 2 size.toNat ≤ cell → final.1.buffer cell = fifo.buffer cell := by
  obtain ⟨fifo, created, rounded, empty⟩ := kfifoAlloc_holds buffer positive small
  have refined := Runs.trace_refines
    (fun state queue call (related : (state.size = fifo.size ∧ ∀ cell, fifo.size.toNat ≤ cell →
        state.buffer cell = fifo.buffer cell) ∧ Holds state queue) => by
      obtain ⟨⟨sized, outside⟩, held⟩ := related
      have stepped := lockedCall_refines held call
      have frame := lockedCall_frame held call
      rw [sized] at stepped frame
      exact ⟨⟨⟨frame.1, fun cell far => (frame.2 cell far).trans (outside cell far)⟩, stepped.1⟩,
        stepped.2⟩)
    calls fifo [] ⟨⟨rfl, fun _ _ => rfl⟩, empty⟩
  obtain ⟨⟨⟨_, outside⟩, held⟩, answers⟩ := refined
  have length := kfifoLen_eq held
  rw [rounded] at outside answers length
  exact ⟨fifo, created, rounded, answers, length, outside⟩

/-- Five bytes were asked for; eight fit. -/
theorem kfifoAlloc_refines_five : ∃ fifo,
    kfifoAlloc (some fun _ => 0) true 5 = some (.ok fifo) ∧ fifo.size.toNat = 8 ∧
      (Runs.trace lockedCall fifo [.put (fun _ => 1) 9, .get (fun _ => 0) 3]).1.kfifoLen.toNat =
        5 :=
  (kfifoAlloc_refines (fun _ => 0) 5 (by decide) (by decide)
    [.put (fun _ => 1) 9, .get (fun _ => 0) 3]).imp
    fun _ held => ⟨held.1, held.2.1, held.2.2.2.1⟩

/-- A fifo of any power of two, after any calls: it has answered as a bounded byte
queue does, and it stores what the queue does. -/
theorem kfifo_refines_byteQueue (buffer : Nat → UInt8) (size : UInt32)
    (power : ∃ exponent ≤ 31, size.toNat = 2 ^ exponent) (calls : List Call) :
    ∃ fifo, kfifoInit true buffer size = some (.ok fifo) ∧
      let final := Runs.trace fifoCall fifo calls
      let spec := Runs.trace (queueCall size.toNat) [] calls
      (final.1.fifoIn - final.1.fifoOut).toNat = spec.1.length ∧
        spec.1.length ≤ size.toNat ∧
        window final.1.buffer size.toNat final.1.fifoOut.toNat spec.1.length = spec.1 ∧
        final.2 = spec.2 := by
  obtain ⟨exponent, _, value⟩ := power
  obtain ⟨fifo, created, sized, empty⟩ := kfifoInit_holds buffer size ⟨exponent, value⟩
  have refined := Runs.trace_refines
    (fun state queue call (related : state.size = size ∧ Holds state queue) => by
      have stepped := fifoCall_refines related.2 call
      rw [related.1] at stepped
      exact ⟨⟨(fifoCall_size state call).trans related.1, stepped.1⟩, stepped.2⟩)
    calls fifo [] ⟨sized, empty⟩
  obtain ⟨⟨kept, held⟩, answers⟩ := refined
  have room := held.room
  have bytes := held.bytes
  rw [kept] at room bytes
  exact ⟨fifo, created, held.count, room, bytes, answers⟩

/-- Three bytes in, two out and three more in fill a fifo of four across its end. -/
theorem kfifo_refines_byteQueue_four :
    ∃ fifo, kfifoInit true (fun _ => 0) 4 = some (.ok fifo) ∧
      (Runs.trace fifoCall fifo
        [.put (fun n => UInt8.ofNat (n + 1)) 3, .get (fun _ => 0) 2,
          .put (fun n => UInt8.ofNat (n + 4)) 9]).1.kfifoLen.toNat = 4 := by
  exact (kfifo_refines_byteQueue (fun _ => 0) 4 ⟨2, by decide, by decide⟩ _).imp
    fun _ held => ⟨held.1, held.2.1⟩

end MagxKernel.ByteFifo
