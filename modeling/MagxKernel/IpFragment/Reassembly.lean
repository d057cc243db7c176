import MagxKernel.IpFragment.Chain

namespace MagxKernel.IpFragment

open List
open Spans (Laid Tiles finish total)

/-- The largest end a fragment can have. All lengths stay far inside an `int`. -/
def maxEnd : Int := 0x1FFF * 8 + 65535

/-- The invariant of a queue that has not been reassembled. -/
structure Sound (received : List Packet) (qp : Ipq) : Prop where
  laid : Laid Skb.offset Skb.len qp.len.toNat 0 qp.fragments
  meat : qp.meat = total Skb.len qp.fragments
  sourced : Sourced received qp.fragments
  started : 0 ≤ qp.len
  bounded : qp.len ≤ maxEnd
  first : qp.lastIn.firstIn = true → 0 < qp.len

theorem Sound.more {received more : List Packet} {qp : Ipq} (sound : Sound received qp)
    (kept : ∀ packet ∈ received, packet ∈ more) : Sound more qp :=
  { sound with sourced := sound.sourced.more kept }

theorem ipFragCreate_sound (key : Key) : Sound [] (ipFragCreate key) where
  laid := Nat.le_refl 0
  meat := rfl
  sourced := fun _ found => (by cases found)
  started := Int.le_refl 0
  bounded := (by decide : (0 : Int) ≤ maxEnd)
  first := fun wrong => (by cases wrong)

theorem Packet.offset_eq (packet : Packet) : packet.offset = (packet.fragOff &&& 0x1FFF) * 8 := by
  rw [Packet.offset, Nat.shiftLeft_eq]

theorem Packet.fragEnd_le (packet : Packet) : packet.fragEnd ≤ maxEnd := by
  have low : packet.fragOff &&& 0x1FFF ≤ 0x1FFF := Nat.and_le_right
  have place := packet.offset_eq
  have short := packet.short
  show (packet.offset : Int) + packet.bytes.length - packet.ihlen ≤ 0x1FFF * 8 + 65535
  omega

/-- What the flags of a fragment may do to a queue. -/
structure Placed (qp : Ipq) (packet : Packet) (placed : Ipq) (fin : Int) : Prop where
  key : placed.key = qp.key
  fragments : placed.fragments = qp.fragments
  meat : placed.meat = qp.meat
  complete : placed.lastIn.complete = qp.lastIn.complete
  firstIn : placed.lastIn.firstIn = qp.lastIn.firstIn
  grows : qp.len ≤ placed.len
  inside : fin ≤ placed.len
  length : placed.len = qp.len ∨ placed.len = fin
  upper : fin ≤ packet.fragEnd
  lower : packet.offset ≤ packet.fragEnd → packet.offset ≤ fin

variable {packet : Packet} {qp placed : Ipq} {fin : Int}

theorem placeEnd_spec (done : placeEnd qp packet = some (placed, fin)) :
    Placed qp packet placed fin := by
  have aligned := packet.offset_eq
  have rounds : packet.fragEnd - packet.fragEnd % 8 ≤ packet.fragEnd := by omega
  have keeps : (packet.offset : Int) ≤ packet.fragEnd →
      (packet.offset : Int) ≤ packet.fragEnd - packet.fragEnd % 8 := by omega
  simp only [placeEnd] at done
  split at done
  · split at done
    · rename_i longer
      split at done
      · cases done
      cases done
      exact ⟨rfl, rfl, rfl, rfl, rfl, Int.le_of_lt longer, Int.le_refl _, .inr rfl, rounds, keeps⟩
    · rename_i covered
      cases done
      exact ⟨rfl, rfl, rfl, rfl, rfl, Int.le_refl _, Int.not_lt.mp covered, .inl rfl, rounds, keeps⟩
  · split at done
    · cases done
    rename_i fits
    cases done
    have longer : ¬ packet.fragEnd < qp.len := fun less => fits (.inl less)
    exact ⟨rfl, rfl, rfl, rfl, rfl, Int.not_lt.mp longer, Int.le_refl _, .inr rfl,
      Int.le_refl _, id⟩

theorem Placed.sound {received : List Packet} (spec : Placed qp packet placed fin)
    (sound : Sound received qp) : Sound received placed := by
  have grows := spec.grows
  have started := sound.started
  have bounded := sound.bounded
  have upper := spec.upper
  have most := packet.fragEnd_le
  refine ⟨?_, ?_, ?_, by omega, ?_, ?_⟩
  · rw [spec.fragments]
    exact sound.laid.raise (by omega)
  · rw [spec.meat, spec.fragments]
    exact sound.meat
  · rw [spec.fragments]
    exact sound.sourced
  · rcases spec.length with same | same <;> omega
  · rw [spec.firstIn]
    intro came
    have before := sound.first came
    omega

theorem pskbTrim_eq_some {fails : Bool} {skb trimmed : Skb} {len : Nat}
    (done : pskbTrim fails skb len = some trimmed) (fits : len ≤ skb.len) :
    trimmed.len = len ∧ trimmed.nhRaw <+: skb.nhRaw ∧ trimmed.pulled = skb.pulled ∧
      trimmed.ihl = skb.ihl ∧ trimmed.offset = skb.offset := by
  rw [Skb.len_eq] at fits
  unfold pskbTrim at done
  split at done
  · split at done
    · cases done
    cases done
    refine ⟨?_, take_prefix _ _, rfl, rfl, rfl⟩
    rw [Skb.len_eq]
    simp only [length_take]
    omega
  · rename_i longer
    rw [Skb.len_eq] at longer
    cases done
    exact ⟨by rw [Skb.len_eq]; omega, prefix_refl _, rfl, rfl, rfl⟩

theorem cutOut_spec {faults : Faults} {skb : Skb} (spec : Placed qp packet placed fin)
    (done : cutOut packet fin faults = some skb) :
    FromPacket packet skb ∧ ((skb.offset + skb.len : Nat) : Int) = fin ∧ 0 < skb.len := by
  have fragEnd : packet.fragEnd = packet.offset + packet.bytes.length - packet.ihlen := rfl
  have lower := spec.lower
  have upper := spec.upper
  unfold cutOut at done
  split at done
  · cases done
  generalize whole : (if fin = packet.fragEnd then packet.skb else packet.skb.demote) = skb at done
  obtain ⟨raw, start, place, words⟩ : skb.nhRaw = packet.bytes ∧ skb.pulled = 0 ∧
      skb.offset = packet.offset ∧ skb.ihl = packet.ihl.val := by
    rw [← whole]
    split <;> simp [Packet.skb]
  obtain ⟨pulled, taken, cut⟩ := Option.bind_eq_some_iff.mp done
  obtain ⟨fits, rfl⟩ := pskbPull_eq_some taken
  rw [Skb.len_eq, raw, start] at fits
  have shorter := pskbTrim_eq_some cut (by
    rw [Skb.len_eq]
    simp only [raw, start]
    omega)
  obtain ⟨len, bytes, kept, ihl, offset⟩ := shorter
  simp only [raw, start, place, words] at bytes kept ihl offset
  refine ⟨⟨by rw [ihl]; rfl, bytes, by omega, by omega⟩, by omega, by omega⟩

/-- What a call of `ip_frag_queue` leaves. -/
structure Taken (received : List Packet) (qp : Ipq) (fragMem : Int) (outcome : Outcome) :
    Prop where
  sound : Sound received outcome.qp
  key : outcome.qp.key = qp.key
  complete : outcome.qp.lastIn.complete = qp.lastIn.complete
  fragMem : outcome.fragMem - total Skb.truesize outcome.qp.fragments =
    fragMem - total Skb.truesize qp.fragments

section

variable {received : List Packet} {qp : Ipq}

theorem Sound.untouched (sound : Sound received qp) (fragMem : Int) :
    Taken received qp fragMem ⟨qp, fragMem, false⟩ :=
  ⟨sound, rfl, rfl, rfl⟩

theorem insertFragment_taken {packet : Packet} {skb : Skb} {faults : Faults}
    (sound : Sound received qp) (came : packet ∈ received) (holds : FromPacket packet skb)
    (ends : ((skb.offset + skb.len : Nat) : Int) = fin) (filled : 0 < skb.len)
    (inside : fin ≤ qp.len) (fragMem : Int) (dev : Option Nat) :
    Taken received qp fragMem (insertFragment qp fragMem dev skb fin faults) := by
  unfold insertFragment
  generalize split_before : qp.fragments.takeWhile (fun next => next.offset < skb.offset) = before
  generalize split_after : qp.fragments.dropWhile (fun next => next.offset < skb.offset) = after
  have parts : qp.fragments = before ++ after := by
    rw [← split_before, ← split_after, takeWhile_append_dropWhile]
  have laid := sound.laid
  rw [parts] at laid
  obtain ⟨laid_before, laid_after⟩ := Spans.laid_append.mp laid
  have sourced := sound.sourced
  rw [parts] at sourced
  have from_before : Sourced received before :=
    sourced.part fun _ => mem_append_left _
  have from_after : Sourced received after :=
    sourced.part fun _ => mem_append_right _
  have meat := sound.meat
  rw [parts, Spans.total_append] at meat
  have started := sound.started
  subst fin
  simp only
  split
  · exact sound.untouched fragMem
  · rename_i aligned done
    obtain ⟨count, loses, fits, behind, left⟩ := alignToPrev_spec done rfl filled
    have shorter := loses.len fits
    have place : aligned.offset = skb.offset + count := loses.2.2.2.1
    have room : skb.offset + skb.len ≤ qp.len.toNat := by omega
    have eats := @eatNext_spec received _ _ faults.pullNext room after _ qp.meat fragMem
      laid_after from_after
    generalize eatNext _ faults.pullNext after qp.meat fragMem = eaten at eats ⊢
    have eaten_meat := eats.meat
    have eaten_mem := eats.fragMem
    split
    · refine ⟨⟨Spans.laid_append.mpr ⟨laid_before, eats.laid⟩, ?_,
        from_before.append eats.sourced, started, sound.bounded, sound.first⟩, rfl, rfl, ?_⟩
      · simp only [Spans.total_append]
        omega
      · simp only [parts, Spans.total_append]
        omega
    · rename_i clear
      have next := eats.clear (Bool.eq_false_iff.mpr clear)
      have reach : aligned.offset + aligned.len = skb.offset + skb.len := by omega
      rw [← reach] at next
      refine ⟨⟨Spans.laid_append.mpr ⟨laid_before, behind, left, next⟩, ?_,
        from_before.append (Sourced.cons came (loses.fromPacket holds) eats.sourced), started,
        sound.bounded, fun _ => ?_⟩, rfl, rfl, ?_⟩
      · simp only [Spans.total_append, Spans.total_cons]
        omega
      · show 0 < qp.len
        omega
      · simp only [parts, Spans.total_append, Spans.total_cons]
        omega

section

variable (sound : Sound received qp)

include sound

theorem ipFragQueue_taken (fragMem : Int) (packet : Packet) (faults : Faults) :
    Taken (received ++ [packet]) qp fragMem (ipFragQueue qp fragMem packet faults) := by
  have before : Sound (received ++ [packet]) qp :=
    sound.more fun _ => mem_append_left _
  have came : packet ∈ received ++ [packet] := mem_append_right _ mem_cons_self
  unfold ipFragQueue
  split
  · exact before.untouched fragMem
  · split
    · exact before.untouched fragMem
    · rename_i placed fin found
      have spec := placeEnd_spec found
      have grown := spec.sound before
      split
      · exact ⟨grown, spec.key, spec.complete, by rw [spec.fragments]⟩
      · rename_i skb cut
        obtain ⟨holds, ends, filled⟩ := cutOut_spec spec cut
        have inserted := @insertFragment_taken _ _ _ _ _ faults grown came holds ends filled
          spec.inside fragMem packet.dev
        exact ⟨inserted.sound, inserted.key.trans spec.key, inserted.complete.trans spec.complete,
          by rw [inserted.fragMem, spec.fragments]⟩

theorem QueueOp.step_sound (op : QueueOp) : Sound (received ++ op.packets) (op.step qp) := by
  cases op with
  | ipFragQueue packet faults => exact (ipFragQueue_taken sound 0 packet faults).sound
  | ipqKill =>
    show Sound (received ++ []) (IpFragment.ipqKill qp)
    rw [append_nil]
    exact { sound with }

theorem QueueOp.run_sound (ops : List QueueOp) :
    Sound (received ++ ops.flatMap QueueOp.packets) (ops.foldl QueueOp.step qp) := by
  induction ops generalizing received qp with
  | nil => simpa using sound
  | cons op ops ih =>
    have rest := ih (op.step_sound sound)
    rw [append_assoc] at rest
    exact rest

theorem Sound.tiles (ready : qp.ready = true) :
    Tiles Skb.offset Skb.len qp.len.toNat 0 qp.fragments := by
  obtain ⟨_, full⟩ := of_decide_eq_true ready
  have meat := sound.meat
  exact sound.laid.tiles (by omega)

/-- A queue that is ready has a first fragment, and it starts the datagram. -/
theorem Sound.head (ready : qp.ready = true) :
    ∃ head rest, qp.fragments = head :: rest ∧ head.pulled = head.ihl * 4 ∧
      head.pulled ≤ head.nhRaw.length := by
  have tiles := sound.tiles ready
  obtain ⟨flags, _⟩ := of_decide_eq_true ready
  have filled := sound.first (by rw [flags])
  cases split : qp.fragments with
  | nil =>
    rw [split] at tiles
    have empty : 0 = qp.len.toNat := tiles
    omega
  | cons head rest =>
    rw [split] at tiles
    obtain ⟨packet, _, holds⟩ := sound.sourced head (by rw [split]; exact mem_cons_self)
    have start : head.offset = 0 := tiles.1
    have long : 0 < head.len := tiles.2.1
    rw [Skb.len_eq] at long
    have place := holds.place
    have header := holds.header
    have words := holds.ihl
    exact ⟨head, rest, rfl, by omega, by omega⟩

end

end

theorem foldl_glue (rest : List Skb) (head : Datagram) :
    (rest.foldl glue head).bytes = head.bytes ++ rest.flatMap Skb.data ∧
      (rest.foldl glue head).ihl = head.ihl ∧ (rest.foldl glue head).totLen = head.totLen ∧
      (rest.foldl glue head).truesize = head.truesize + total Skb.truesize rest := by
  induction rest generalizing head with
  | nil => simp
  | cons fp rest ih =>
    obtain ⟨bytes, ihl, totLen, truesize⟩ := ih (glue head fp)
    rw [foldl_cons, bytes, ihl, totLen, truesize]
    refine ⟨?_, rfl, rfl, ?_⟩
    · simp [glue]
    · simp only [glue, Spans.total_cons]
      omega

/-- What the header leaves of a datagram. -/
def Datagram.payload (datagram : Datagram) : List Byte := datagram.bytes.drop (datagram.ihl * 4)

/-- The datagram is put together from what the packets say, byte by byte. -/
structure Rebuilt (received : List Packet) (qp : Ipq) (datagram : Datagram) : Prop where
  length : (datagram.payload.length : Int) = qp.len
  totLen : datagram.totLen = datagram.bytes.length
  byte : ∀ place < datagram.payload.length, ∃ packet ∈ received, ∃ byte,
    packet.byteAt place = some byte ∧ datagram.payload[place]? = some byte

theorem FromPacket.byteAt {packet : Packet} {skb : Skb} (holds : FromPacket packet skb)
    {place : Nat} (above : skb.offset ≤ place) (below : place < skb.offset + skb.len) :
    ∃ byte, packet.byteAt place = some byte ∧ skb.data[place - skb.offset]? = some byte := by
  have same := holds.place
  have header := holds.header
  rw [Skb.len_eq] at below
  have inside : skb.pulled + (place - skb.offset) < skb.nhRaw.length := by omega
  have held : skb.data[place - skb.offset]? =
      some skb.nhRaw[skb.pulled + (place - skb.offset)] := by
    rw [Skb.data, getElem?_drop, getElem?_eq_getElem inside]
  refine ⟨_, ?_, held⟩
  rw [Packet.byteAt, if_pos (by omega), getElem?_drop]
  have index : packet.ihlen + (place - packet.offset) = skb.pulled + (place - skb.offset) := by
    omega
  obtain ⟨tail, joined⟩ := holds.bytes
  rw [index, ← joined, getElem?_append_left inside]
  exact getElem?_eq_getElem inside

variable {received : List Packet} {qp : Ipq}

theorem Sound.rebuilt (sound : Sound received qp) (ready : qp.ready = true) {datagram : Datagram}
    (payload : datagram.payload = qp.fragments.flatMap Skb.data)
    (totLen : datagram.totLen = datagram.bytes.length) : Rebuilt received qp datagram := by
  have tiles := sound.tiles ready
  have started := sound.started
  have length := tiles.length Skb.data fun skb => rfl
  refine ⟨by rw [payload]; omega, totLen, ?_⟩
  intro place below
  rw [payload] at below ⊢
  obtain ⟨skb, found, above, inside, same⟩ :=
    tiles.element Skb.data (fun skb => rfl) (Nat.zero_le place) (by omega)
  obtain ⟨packet, came, holds⟩ := sound.sourced skb found
  obtain ⟨byte, tells, held⟩ := holds.byteAt above inside
  exact ⟨packet, came, byte, tells, by rw [← held, ← same]; rfl⟩

/-- What `ip_frag_reasm` makes of a queue that is ready. -/
structure Reassembles (received : List Packet) (qp : Ipq) (fragMem : Int) (nomem : Bool)
    (head : Skb) (result : Reassembled) : Prop where
  key : result.qp.key = qp.key
  fails : result.datagram = none ↔
    nomem = true ∨ 65535 < ((head.ihl * 4 : Nat) : Int) + qp.len
  rebuilt : ∀ datagram, result.datagram = some datagram → Rebuilt received qp datagram
  fragMem : result.fragMem - total Skb.truesize result.qp.fragments =
    fragMem - total Skb.truesize qp.fragments

theorem Sound.glued (sound : Sound received qp) (ready : qp.ready = true) {head : Skb}
    {rest : List Skb} (parts : qp.fragments = head :: rest) (start : head.pulled = head.ihl * 4)
    (within : head.pulled ≤ head.nhRaw.length) (first : Datagram) (raw : first.bytes = head.nhRaw)
    (words : first.ihl = head.ihl)
    (sum : (first.totLen : Int) = ((head.ihl * 4 : Nat) : Int) + qp.len) :
    Rebuilt received qp (rest.foldl glue first) := by
  obtain ⟨bytes, ihl, totLen, _⟩ := foldl_glue rest first
  have payload : (rest.foldl glue first).payload = qp.fragments.flatMap Skb.data := by
    rw [Datagram.payload, bytes, ihl, parts, flatMap_cons, raw, words, ← start,
      drop_append_of_le_length within]
    rfl
  have length := (sound.tiles ready).length Skb.data fun skb => rfl
  have started := sound.started
  refine sound.rebuilt ready payload ?_
  rw [← payload, Datagram.payload, length_drop, ihl, words] at length
  have header : head.ihl * 4 ≤ (rest.foldl glue first).bytes.length := by
    rw [bytes, raw, length_append]
    omega
  omega

theorem ipFragReasm_eq {head : Skb} {rest : List Skb} (parts : qp.fragments = head :: rest)
    (fragMem : Int) (dev : Option Nat) (nomem : Bool) :
    ipFragReasm qp fragMem dev nomem =
      if nomem = true ∨ 65535 < ((head.ihl * 4 : Nat) : Int) + qp.len then
        some ⟨ipqKill qp, fragMem, none⟩
      else
        some ⟨{ ipqKill qp with fragments := [] },
          fragMem - (total Skb.truesize qp.fragments : Nat),
          some (rest.foldl glue (headDatagram (ipqKill qp) dev
            (((head.ihl * 4 : Nat) : Int) + qp.len).toNat head))⟩ := by
  simp only [ipFragReasm, ipqKill, parts]
  by_cases oversize : 65535 < ((head.ihl * 4 : Nat) : Int) + qp.len <;> simp only [oversize] <;>
    simp

theorem ipFragReasm_spec (sound : Sound received qp) (ready : qp.ready = true) (fragMem : Int)
    (dev : Option Nat) (nomem : Bool) :
    ∃ head rest result, qp.fragments = head :: rest ∧
      ipFragReasm qp fragMem dev nomem = some result ∧
      Reassembles received qp fragMem nomem head result := by
  obtain ⟨head, rest, parts, start, within⟩ := sound.head ready
  have started := sound.started
  rw [ipFragReasm_eq parts]
  by_cases failed : nomem = true ∨ 65535 < ((head.ihl * 4 : Nat) : Int) + qp.len
  · refine ⟨head, rest, _, parts, if_pos failed, ?_⟩
    exact ⟨rfl, ⟨fun _ => failed, fun _ => rfl⟩, fun _ wrong => (by cases wrong), rfl⟩
  · refine ⟨head, rest, _, parts, if_neg failed, rfl, ?_, ?_, ?_⟩
    · exact ⟨fun wrong => (by cases wrong), fun wrong => absurd wrong failed⟩
    · intro datagram made
      cases made
      refine sound.glued ready parts start within _ rfl rfl ?_
      simp only [headDatagram]
      omega
    · simp only [Spans.total_nil]
      omega

/-- Whatever fragments arrive, in whatever order and with whatever overlaps, the
chain of a queue stays ordered, disjoint and inside the length, and its byte count
is exact. When the count says that the datagram is complete the fragments tile it,
and every byte of the result was received for its place. -/
theorem fragments_reassemble_exactly (key : Key) (ops : List QueueOp) :
    let qp := ops.foldl QueueOp.step (ipFragCreate key)
    qp.fragments.Pairwise (fun first second => first.offset + first.len ≤ second.offset) ∧
      (∀ skb ∈ qp.fragments, 0 < skb.len ∧ ((skb.offset + skb.len : Nat) : Int) ≤ qp.len) ∧
      qp.meat = ((qp.fragments.map Skb.len).sum : Nat) ∧
      (qp.ready = true →
        Tiles Skb.offset Skb.len qp.len.toNat 0 qp.fragments ∧
          ∀ fragMem dev nomem, ∃ head rest result, qp.fragments = head :: rest ∧
            ipFragReasm qp fragMem dev nomem = some result ∧
            (result.datagram = none ↔
              nomem = true ∨ 65535 < ((head.ihl * 4 : Nat) : Int) + qp.len) ∧
            ∀ datagram, result.datagram = some datagram →
              Rebuilt (ops.flatMap QueueOp.packets) qp datagram) := by
  have sound := QueueOp.run_sound (ipFragCreate_sound key) ops
  refine ⟨sound.laid.pairwise, ?_, sound.meat, ?_⟩
  · intro skb found
    have inside := sound.laid.inside found
    exact ⟨inside.2.1, by omega⟩
  · intro ready
    refine ⟨sound.tiles ready, ?_⟩
    intro fragMem dev nomem
    obtain ⟨head, rest, result, parts, done, spec⟩ :=
      ipFragReasm_spec sound ready fragMem dev nomem
    exact ⟨head, rest, result, parts, done, spec.fails, spec.rebuilt⟩

/-- A fragment of the datagram with one header word, for tests. -/
private def wordPacket (fragOff : Nat) (payload : List Byte)
    (short : ([0, 0, 0, 0] ++ payload).length ≤ 65535) : Packet :=
  ⟨⟨0, 1, 2, 3, 17⟩, fragOff, 1, [0, 0, 0, 0] ++ payload, .checksumNone, 0, 256, some 1, 7, short⟩

private def overlappingOps : List QueueOp :=
  let none : Faults := ⟨false, false, false, false, false, false⟩
  [.ipFragQueue (wordPacket 2 [16, 17] (by decide)) none,
    .ipFragQueue (wordPacket 0x2001 [8, 9, 10, 11, 12, 13, 14, 15, 26, 27, 28, 29, 30, 31, 32, 33]
      (by decide)) none,
    .ipFragQueue (wordPacket 0x2001 [8, 9, 10, 11, 12, 13, 14, 15] (by decide)) none,
    .ipFragQueue (wordPacket 0x2000 [0, 1, 2, 3, 4, 5, 6, 7, 18, 19, 20, 21, 22, 23, 24, 25]
      (by decide)) none]

/-- The last fragment first, one that claims more than the datagram has, and one
whose tail another had brought before. -/
theorem fragments_reassemble_exactly_overlapping :
    (overlappingOps.foldl QueueOp.step (ipFragCreate ⟨0, 1, 2, 3, 17⟩)).ready = true ∧
      Tiles Skb.offset Skb.len 18 0
        (overlappingOps.foldl QueueOp.step (ipFragCreate ⟨0, 1, 2, 3, 17⟩)).fragments := by
  have ready : (overlappingOps.foldl QueueOp.step (ipFragCreate ⟨0, 1, 2, 3, 17⟩)).ready =
      true := by
    decide
  exact ⟨ready, ((fragments_reassemble_exactly ⟨0, 1, 2, 3, 17⟩ overlappingOps).2.2.2 ready).1⟩

end MagxKernel.IpFragment
