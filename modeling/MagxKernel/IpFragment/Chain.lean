import MagxKernel.IpFragment.Queue

namespace MagxKernel.IpFragment

open List
open Spans (Laid Tiles finish total)

variable (skb : Skb) {received : List Packet}

@[simp] theorem Skb.demote_fields :
    skb.demote.nhRaw = skb.nhRaw ∧ skb.demote.pulled = skb.pulled ∧ skb.demote.ihl = skb.ihl ∧
      skb.demote.offset = skb.offset ∧ skb.demote.truesize = skb.truesize := by
  unfold Skb.demote
  split <;> simp

theorem Skb.len_eq : skb.len = skb.nhRaw.length - skb.pulled := by
  simp [Skb.len, Skb.data]

/-- The fragment holds a part of what the packet brought, at the place the packet
gave it. -/
structure FromPacket (packet : Packet) (skb : Skb) : Prop where
  ihl : skb.ihl * 4 = packet.ihlen
  bytes : skb.nhRaw <+: packet.bytes
  header : packet.ihlen ≤ skb.pulled
  place : skb.offset + packet.ihlen = packet.offset + skb.pulled

/-- Every fragment of a chain came with one of the packets. -/
def Sourced (received : List Packet) (fragments : List Skb) : Prop :=
  ∀ skb ∈ fragments, ∃ packet ∈ received, FromPacket packet skb

theorem Sourced.more {received more : List Packet} {fragments : List Skb}
    (sourced : Sourced received fragments) (kept : ∀ packet ∈ received, packet ∈ more) :
    Sourced more fragments := by
  intro skb found
  obtain ⟨packet, came, holds⟩ := sourced skb found
  exact ⟨packet, kept packet came, holds⟩

theorem Sourced.part {fragments part : List Skb} (sourced : Sourced received fragments)
    (sub : ∀ skb ∈ part, skb ∈ fragments) : Sourced received part :=
  fun skb found => sourced skb (sub skb found)

theorem Sourced.cons {fragments : List Skb} {skb : Skb} {packet : Packet} (came : packet ∈ received)
    (holds : FromPacket packet skb) (sourced : Sourced received fragments) :
    Sourced received (skb :: fragments) := by
  exact forall_mem_cons.mpr ⟨⟨packet, came, holds⟩, sourced⟩

theorem Sourced.append {first second : List Skb} (left : Sourced received first)
    (right : Sourced received second) : Sourced received (first ++ second) :=
  fun skb found => (mem_append.mp found).elim (left skb) (right skb)

/-- `skb` without its first `count` bytes. -/
def Skb.Loses (skb : Skb) (count : Nat) (rest : Skb) : Prop :=
  rest.nhRaw = skb.nhRaw ∧ rest.pulled = skb.pulled + count ∧ rest.ihl = skb.ihl ∧
    rest.offset = skb.offset + count ∧ rest.truesize = skb.truesize

theorem Skb.Loses.len {skb rest : Skb} {count : Nat} (loses : skb.Loses count rest)
    (fits : count ≤ skb.len) : rest.len + count = skb.len := by
  rw [Skb.len_eq, loses.1, loses.2.1, Skb.len_eq]
  rw [Skb.len_eq] at fits
  omega

theorem Skb.Loses.fromPacket {skb rest : Skb} {count : Nat} {packet : Packet}
    (loses : skb.Loses count rest) (holds : FromPacket packet skb) : FromPacket packet rest where
  ihl := by rw [loses.2.2.1, holds.ihl]
  bytes := by rw [loses.1]; exact holds.bytes
  header := by
    have lower := holds.header
    rw [loses.2.1]
    omega
  place := by
    have same := holds.place
    rw [loses.2.1, loses.2.2.2.1]
    omega

section

variable {fails : Bool} {skb pulled : Skb} {len : Nat} (done : pskbPull fails skb len = some pulled)

include done

theorem pskbPull_eq_some : len ≤ skb.len ∧ pulled = { skb with pulled := skb.pulled + len } := by
  unfold pskbPull at done
  split at done
  · cases done
  · exact ⟨by omega, (Option.some.inj done).symm⟩

/-- A pull that moves the fragment's place along and demotes its checksum. -/
theorem pskbPull_loses : len ≤ skb.len ∧ skb.Loses len (pulled.moveTo (skb.offset + len)) := by
  obtain ⟨fits, rfl⟩ := pskbPull_eq_some done
  exact ⟨fits, by simp [Skb.moveTo], by simp [Skb.moveTo], by simp [Skb.moveTo], rfl,
    by simp [Skb.moveTo]⟩

end

/-- What the loop over the following fragments keeps. -/
structure EatenFrom (received : List Packet) (len low fin : Nat) (after : List Skb)
    (meat fragMem : Int) (eaten : Eaten) : Prop where
  laid : Laid Skb.offset Skb.len len low eaten.next
  clear : eaten.failed = false → Laid Skb.offset Skb.len len fin eaten.next
  meat : eaten.meat - total Skb.len eaten.next = meat - total Skb.len after
  fragMem : eaten.fragMem - total Skb.truesize eaten.next =
    fragMem - total Skb.truesize after
  sourced : Sourced received eaten.next

theorem eatNext_spec {received : List Packet} {len fin : Nat} {fails : Bool} (inside : fin ≤ len)
    (after : List Skb) (low : Nat) (meat fragMem : Int)
    (laid : Laid Skb.offset Skb.len len low after) (sourced : Sourced received after) :
    EatenFrom received len low fin after meat fragMem (eatNext fin fails after meat fragMem) := by
  -- one case for each way a turn of the loop ends
  induction after generalizing low meat fragMem with
  | nil => exact ⟨laid, fun _ => inside, rfl, rfl, sourced⟩
  | cons next rest ih =>
    have from_rest : Sourced received rest :=
      sourced.part fun _ => mem_cons_of_mem _
    unfold eatNext
    split
    · simp only
      split
      · split
        · exact ⟨laid, fun wrong => (by cases wrong), rfl, rfl, sourced⟩
        · rename_i pulled done
          have count : ((fin : Int) - next.offset).toNat = fin - next.offset := by omega
          rw [count] at done
          rw [count]
          obtain ⟨fits, loses⟩ := pskbPull_loses done
          have shorter := loses.len fits
          have moved : next.offset + (fin - next.offset) = fin := by omega
          rw [moved] at loses shorter
          obtain ⟨packet, came, holds⟩ := sourced next mem_cons_self
          have lower := laid.1
          have same : fin + (pulled.moveTo fin).len = next.offset + next.len := by omega
          have behind : Laid Skb.offset Skb.len len fin (pulled.moveTo fin :: rest) := by
            have tail := laid.2.2
            rw [← same] at tail
            exact ⟨Nat.le_refl fin, by omega, tail⟩
          rw [moved]
          refine ⟨behind.lower (by omega), fun _ => behind, ?_, ?_, ?_⟩
          · simp only [Spans.total_cons]
            omega
          · simp only [Spans.total_cons]
            rw [loses.2.2.2.2]
          · exact Sourced.cons came (loses.fromPacket holds) from_rest
      · have dropped := ih (next.offset + next.len) (meat - next.len) (fragMem - next.truesize)
          laid.2.2 from_rest
        have lower := laid.1
        refine ⟨dropped.laid.lower (by omega), dropped.clear, ?_, ?_, dropped.sourced⟩
        · rw [dropped.meat, Spans.total_cons]
          omega
        · rw [dropped.fragMem, Spans.total_cons]
          omega
    · have behind : Laid Skb.offset Skb.len len fin (next :: rest) := ⟨by omega, laid.2⟩
      exact ⟨laid, fun _ => behind, rfl, rfl, sourced⟩

/-- What is left of the new fragment after the preceding ones took their part. -/
theorem alignToPrev_spec {before : List Skb} {fin : Nat} {fails : Bool} {skb aligned : Skb}
    (done : alignToPrev fin fails skb before.getLast? = some aligned)
    (ends : skb.offset + skb.len = fin) (filled : 0 < skb.len) :
    ∃ count, skb.Loses count aligned ∧ count ≤ skb.len ∧
      finish Skb.offset Skb.len 0 before ≤ aligned.offset ∧ 0 < aligned.len := by
  have unmoved : skb.Loses 0 skb := ⟨rfl, rfl, rfl, rfl, rfl⟩
  rcases eq_nil_or_concat before with rfl | ⟨front, prev, rfl⟩
  · obtain rfl : skb = aligned := Option.some.inj done
    exact ⟨0, unmoved, Nat.zero_le _, Nat.zero_le _, filled⟩
  · rw [concat_eq_append] at done ⊢
    rw [getLast?_concat] at done
    rw [Spans.finish_append_singleton]
    simp only [alignToPrev] at done
    split at done
    · split at done
      · cases done
      obtain ⟨pulled, taken, rfl⟩ := Option.map_eq_some_iff.mp done
      obtain ⟨fits, loses⟩ := pskbPull_loses taken
      refine ⟨_, loses, fits, ?_, ?_⟩
      · show prev.offset + prev.len ≤ skb.offset + _
        omega
      · have shorter := loses.len fits
        omega
    · obtain rfl : skb = aligned := Option.some.inj done
      exact ⟨0, unmoved, Nat.zero_le _, by omega, filled⟩

end MagxKernel.IpFragment
