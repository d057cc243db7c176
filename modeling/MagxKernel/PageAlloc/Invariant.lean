import Mathlib.Algebra.BigOperators.Group.Finset.Basic
import MagxKernel.PageAlloc.Zone

namespace MagxKernel.PageAlloc

open BuddyBlocks List

/-- The block heads one of the free lists. -/
def Zone.Free (maxOrder : Nat) (zone : Zone) (block : Block) : Prop :=
  block.order < maxOrder ∧ block.start ∈ (zone.freeArea block.order).freeList

/-- The bit that the pair of `block` has in the map of its order. -/
def Zone.pairBit (zone : Zone) (block : Block) : Bool :=
  (zone.freeArea block.order).map block.pair

/-- Pages in all free blocks. -/
def Zone.listedPages (maxOrder : Nat) (zone : Zone) : Nat :=
  ∑ order ∈ Finset.range maxOrder, (zone.freeArea order).freeList.length * 2 ^ order

/-- The representation invariant relative to the blocks held outside the lists.
The free page counter is accounted for separately because both operations update
it before the lists. -/
structure Shape (maxOrder : Nat) (zone : Zone) (held : List Block) : Prop where
  aligned : ∀ block, zone.Free maxOrder block →
    block.Aligned ∧ block.stop ≤ zone.spannedPages
  nodup : ∀ order, order < maxOrder → (zone.freeArea order).freeList.Nodup
  freeApart : ∀ first second, zone.Free maxOrder first → zone.Free maxOrder second →
    first ≠ second → first.Apart second
  heldApart : ∀ first, zone.Free maxOrder first → ∀ second ∈ held, first.Apart second
  heldAligned : ∀ block ∈ held,
    block.order < maxOrder ∧ block.Aligned ∧ block.stop ≤ zone.spannedPages
  heldPairwise : held.Pairwise Block.Apart
  bits : ∀ block : Block, block.Aligned → block.order + 1 < maxOrder →
    (zone.pairBit block = true ↔ Xor (zone.Free maxOrder block) (zone.Free maxOrder block.buddy))
  unmerged : ∀ block : Block, block.order + 1 < maxOrder →
    ¬ (zone.Free maxOrder block ∧ zone.Free maxOrder block.buddy)

/-- The lists gain or lose exactly one block, whose pair bit flips with it. -/
structure Toggled (maxOrder : Nat) (old new : Zone) (target : Block) : Prop where
  span : new.spannedPages = old.spannedPages
  flipped : target.order + 1 < maxOrder → new.pairBit target = !old.pairBit target
  unflipped : ∀ block : Block, block.order + 1 < maxOrder →
    (block.order ≠ target.order ∨ block.pair ≠ target.pair) →
    new.pairBit block = old.pairBit block

variable {maxOrder : Nat} {old new : Zone} {target : Block} {held : List Block}

/-- A bit is the exclusive or of its pair before and after its member moves. -/
theorem toggled_bits (toggled : Toggled maxOrder old new target) (aligned : target.Aligned)
    (bits : ∀ block : Block, block.Aligned → block.order + 1 < maxOrder →
      (old.pairBit block = true ↔ Xor (old.Free maxOrder block) (old.Free maxOrder block.buddy)))
    (moved : new.Free maxOrder target ↔ ¬ old.Free maxOrder target)
    (kept : ∀ block, block ≠ target → (new.Free maxOrder block ↔ old.Free maxOrder block))
    (block : Block) (blockAligned : block.Aligned) (inside : block.order + 1 < maxOrder) :
    new.pairBit block = true ↔ Xor (new.Free maxOrder block) (new.Free maxOrder block.buddy) := by
  have distinct : block.buddy ≠ block := by
    intro same
    have apart := buddy_apart blockAligned
    rw [same] at apart
    exact not_apart_of_start_eq rfl apart
  by_cases samePair : block.order = target.order ∧ block.pair = target.pair
  · obtain ⟨order, pair⟩ := samePair
    have before := bits block blockAligned inside
    have flip : new.pairBit block = !old.pairBit block := by
      have flipped := toggled.flipped (order ▸ inside)
      simpa only [Zone.pairBit, order, pair] using flipped
    rcases (pair_eq_iff blockAligned aligned order).mp pair with rfl | rfl
    · rw [flip, Bool.not_eq_true', ← Bool.not_eq_true, before, kept block.buddy distinct, moved]
      unfold Xor
      tauto
    · rw [flip, Bool.not_eq_true', ← Bool.not_eq_true, before, kept block distinct.symm, moved]
      unfold Xor
      tauto
  · have notTarget : block ≠ target := by
      rintro rfl
      exact samePair ⟨rfl, rfl⟩
    have notBuddy : block.buddy ≠ target := by
      rintro rfl
      exact samePair ⟨rfl, (buddy_pair block).symm⟩
    rw [toggled.unflipped block inside (by tauto), bits block blockAligned inside,
      kept block notTarget, kept block.buddy notBuddy]

theorem Shape.take (shape : Shape maxOrder old held) (toggled : Toggled maxOrder old new target)
    (listed : old.Free maxOrder target)
    (free : ∀ block, new.Free maxOrder block ↔ old.Free maxOrder block ∧ block ≠ target)
    (nodup : ∀ order, order < maxOrder → (new.freeArea order).freeList.Nodup) :
    Shape maxOrder new (target :: held) := by
  obtain ⟨targetAligned, targetStop⟩ := shape.aligned target listed
  refine ⟨?_, nodup, ?_, ?_, ?_, ?_, ?_, ?_⟩
  · intro block isFree
    rw [toggled.span]
    exact shape.aligned block ((free block).mp isFree).1
  · intro first second left right different
    exact shape.freeApart first second ((free first).mp left).1 ((free second).mp right).1 different
  · intro first isFree second member
    obtain ⟨was, different⟩ := (free first).mp isFree
    rcases mem_cons.mp member with rfl | member
    · exact shape.freeApart first second was listed different
    · exact shape.heldApart first was second member
  · intro block member
    rw [toggled.span]
    rcases mem_cons.mp member with rfl | member
    · exact ⟨listed.1, targetAligned, targetStop⟩
    · exact shape.heldAligned block member
  · exact pairwise_cons.mpr ⟨shape.heldApart target listed, shape.heldPairwise⟩
  · apply toggled_bits toggled targetAligned shape.bits
    · rw [free]
      tauto
    · intro block different
      rw [free]
      tauto
  · intro block inside both
    exact shape.unmerged block inside ⟨((free _).mp both.1).1, ((free _).mp both.2).1⟩

theorem Shape.not_free_of_held (shape : Shape maxOrder old (target :: held)) :
    ¬ old.Free maxOrder target := by
  intro listed
  exact not_apart_of_start_eq rfl (shape.heldApart target listed target (by simp))

theorem Shape.give (shape : Shape maxOrder old (target :: held))
    (toggled : Toggled maxOrder old new target)
    (alone : target.order + 1 < maxOrder → old.pairBit target = false)
    (free : ∀ block, new.Free maxOrder block ↔ old.Free maxOrder block ∨ block = target)
    (nodup : ∀ order, order < maxOrder → (new.freeArea order).freeList.Nodup) :
    Shape maxOrder new held := by
  obtain ⟨inside, targetAligned, targetStop⟩ := shape.heldAligned target (by simp)
  have unlisted := shape.not_free_of_held
  have kept : ∀ block, block ≠ target → (new.Free maxOrder block ↔ old.Free maxOrder block) := by
    intro block different
    rw [free]
    tauto
  have buddyUnlisted : target.order + 1 < maxOrder → ¬ old.Free maxOrder target.buddy := by
    intro below listed
    have bit := (shape.bits target targetAligned below).mpr (.inr ⟨listed, unlisted⟩)
    rw [alone below] at bit
    contradiction
  have fromTarget : ∀ block, old.Free maxOrder block → target.Apart block :=
    fun block listed => (shape.heldApart block listed target (by simp)).symm
  refine ⟨?_, nodup, ?_, ?_, ?_, (pairwise_cons.mp shape.heldPairwise).2, ?_, ?_⟩
  · intro block isFree
    rw [toggled.span]
    rcases (free block).mp isFree with was | rfl
    · exact shape.aligned block was
    · exact ⟨targetAligned, targetStop⟩
  · intro first second left right different
    rcases (free first).mp left with wasLeft | rfl <;>
      rcases (free second).mp right with wasRight | rfl
    · exact shape.freeApart first second wasLeft wasRight different
    · exact (fromTarget first wasLeft).symm
    · exact fromTarget second wasRight
    · exact absurd rfl different
  · intro first isFree second member
    rcases (free first).mp isFree with was | rfl
    · exact shape.heldApart first was second (by simp [member])
    · exact (pairwise_cons.mp shape.heldPairwise).1 second member
  · intro block member
    rw [toggled.span]
    exact shape.heldAligned block (by simp [member])
  · apply toggled_bits toggled targetAligned shape.bits
    · rw [free]
      tauto
    · exact kept
  · intro block below both
    have notBoth := shape.unmerged block below
    rcases (free block).mp both.1 with was | rfl
    · rcases (free block.buddy).mp both.2 with buddyWas | rfl
      · exact notBoth ⟨was, buddyWas⟩
      · rw [buddy_buddy] at buddyUnlisted
        exact buddyUnlisted below was
    · rcases (free block.buddy).mp both.2 with buddyWas | same
      · exact buddyUnlisted below buddyWas
      · exact unlisted.elim (by
          have apart := buddy_apart targetAligned
          rw [same] at apart
          exact (not_apart_of_start_eq rfl apart).elim)

theorem Shape.merge (shape : Shape maxOrder old (target.buddy :: target :: held))
    (below : target.order + 1 < maxOrder) : Shape maxOrder old (target.parent :: held) := by
  obtain ⟨_, aligned, stop⟩ := shape.heldAligned target (by simp)
  obtain ⟨_, _, buddyStop⟩ := shape.heldAligned target.buddy (by simp)
  have halves := halves_of_aligned target aligned
  have whole := parent_stop target
  obtain ⟨buddyApart, rest⟩ := pairwise_cons.mp shape.heldPairwise
  obtain ⟨targetApart, others⟩ := pairwise_cons.mp rest
  have parentStop : target.parent.stop ≤ old.spannedPages := by
    unfold Block.stop at stop buddyStop
    rw [buddy_order] at buddyStop
    omega
  refine { shape with heldApart := ?_, heldAligned := ?_, heldPairwise := ?_ }
  · intro first listed second member
    rcases mem_cons.mp member with rfl | member
    · exact (apart_parent aligned (shape.heldApart first listed target (by simp)).symm
        (shape.heldApart first listed target.buddy (by simp)).symm).symm
    · exact shape.heldApart first listed second (by simp [member])
  · intro block member
    rcases mem_cons.mp member with rfl | member
    · exact ⟨below, parent_aligned target, parentStop⟩
    · exact shape.heldAligned block (by simp [member])
  · refine pairwise_cons.mpr ⟨?_, others⟩
    intro block member
    exact apart_parent aligned (targetApart block member) (buddyApart block (by simp [member]))

theorem Shape.split {start order : Nat} (shape : Shape maxOrder old (⟨start, order + 1⟩ :: held)) :
    Shape maxOrder old (⟨start + 2 ^ order, order⟩ :: ⟨start, order⟩ :: held) := by
  obtain ⟨inside, aligned, stop⟩ := shape.heldAligned ⟨start, order + 1⟩ (by simp)
  obtain ⟨wholeApart, others⟩ := pairwise_cons.mp shape.heldPairwise
  have halfDivides : 2 ^ order ∣ start := (pow_dvd_pow 2 (Nat.le_succ order)).trans aligned
  have low : ∀ block : Block, Block.Apart ⟨start, order + 1⟩ block →
      Block.Apart ⟨start, order⟩ block ∧ Block.Apart ⟨start + 2 ^ order, order⟩ block := by
    intro block apart
    unfold Block.Apart Block.stop at *
    dsimp only at *
    omega
  refine { shape with heldApart := ?_, heldAligned := ?_, heldPairwise := ?_ }
  · intro first listed second member
    have whole := (shape.heldApart first listed ⟨start, order + 1⟩ (by simp)).symm
    simp only [mem_cons] at member
    rcases member with rfl | rfl | member
    · exact (low first whole).2.symm
    · exact (low first whole).1.symm
    · exact shape.heldApart first listed second (by simp [member])
  · intro block member
    unfold Block.stop at *
    simp only [mem_cons] at member
    rcases member with rfl | rfl | member
    · dsimp only at *
      exact ⟨by omega, Nat.dvd_add halfDivides (Nat.dvd_refl _), by omega⟩
    · dsimp only at *
      exact ⟨by omega, halfDivides, by omega⟩
    · exact shape.heldAligned block (by simp [member])
  · refine pairwise_cons.mpr ⟨?_, pairwise_cons.mpr ⟨?_, others⟩⟩
    · intro block member
      rcases mem_cons.mp member with rfl | member
      · exact .inr (Nat.le_refl _)
      · exact (low block (wholeApart block member)).2
    · intro block member
      exact (low block (wholeApart block member)).1

end MagxKernel.PageAlloc
