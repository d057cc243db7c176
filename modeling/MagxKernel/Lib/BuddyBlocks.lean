import Mathlib.Data.Nat.Bitwise

namespace MagxKernel.BuddyBlocks

/-- A run of `2 ^ order` units that begins at `start`. -/
structure Block where
  start : Nat
  order : Nat
deriving DecidableEq

def Block.stop (block : Block) : Nat := block.start + 2 ^ block.order

def Block.Aligned (block : Block) : Prop := 2 ^ block.order ∣ block.start

/-- Two blocks share no unit. -/
def Block.Apart (first second : Block) : Prop :=
  first.stop ≤ second.start ∨ second.stop ≤ first.start

/-- The other half of the pair that `block` belongs to. -/
def Block.buddy (block : Block) : Block :=
  ⟨block.start ^^^ 2 ^ block.order, block.order⟩

/-- The pair itself, one order above. -/
def Block.parent (block : Block) : Block :=
  ⟨block.start >>> (block.order + 1) <<< (block.order + 1), block.order + 1⟩

/-- The number of the pair among the pairs of this order. -/
def Block.pair (block : Block) : Nat := block.start >>> (1 + block.order)

variable {first second : Block}

theorem Block.Apart.symm (apart : first.Apart second) : second.Apart first := by
  unfold Block.Apart at *
  omega

variable (block : Block)

theorem stop_gt_start : block.start < block.stop := by
  have positive := Nat.two_pow_pos block.order
  unfold Block.stop
  omega

theorem not_apart_of_start_eq (same : first.start = second.start) : ¬ first.Apart second := by
  have left := stop_gt_start first
  have right := stop_gt_start second
  unfold Block.Apart
  omega

theorem parent_start (start order : Nat) :
    start >>> (order + 1) <<< (order + 1) = 2 * 2 ^ order * (start / (2 * 2 ^ order)) := by
  rw [Nat.shiftRight_eq_div_pow, Nat.shiftLeft_eq, Nat.pow_succ, Nat.mul_comm (2 ^ order) 2,
    Nat.mul_comm]

theorem parent_aligned : block.parent.Aligned :=
  ⟨block.start >>> (block.order + 1), by
    simp only [Block.parent, Nat.shiftLeft_eq, Nat.mul_comm]⟩

private theorem xor_one (number : Nat) :
    number ^^^ 1 = 2 * (number / 2) + (1 - number % 2) := by
  have high : (number ^^^ 1) / 2 = number / 2 := by
    rw [Nat.xor_div_two]
    simp
  have low : (number ^^^ 1) % 2 = 1 - number % 2 := by
    rw [Nat.xor_mod_two_eq]
    omega
  omega

/-- An aligned block is the lower or the upper half of its pair, and its buddy
is the half it is not. -/
theorem halves_of_aligned (aligned : block.Aligned) :
    (block.start = block.parent.start ∧ block.buddy.start = block.parent.start + 2 ^ block.order) ∨
    (block.start = block.parent.start + 2 ^ block.order ∧
      block.buddy.start = block.parent.start) := by
  obtain ⟨position, multiple⟩ := aligned
  have positive := Nat.two_pow_pos block.order
  have buddyStart : block.buddy.start = 2 ^ block.order * (position ^^^ 1) := by
    have shifted : (position ^^^ 1) <<< block.order = _ := Nat.shiftLeft_xor_distrib
    simp only [Nat.shiftLeft_eq, Nat.one_mul] at shifted
    simp only [Block.buddy, multiple]
    rw [Nat.mul_comm (2 ^ block.order) position, ← shifted, Nat.mul_comm]
  have parentStart : block.parent.start = 2 ^ block.order * (2 * (position / 2)) := by
    simp only [Block.parent, parent_start, multiple]
    rw [Nat.mul_comm 2 (2 ^ block.order), Nat.mul_div_mul_left _ _ positive, Nat.mul_assoc]
  rw [buddyStart, parentStart, multiple, xor_one]
  rcases Nat.mod_two_eq_zero_or_one position with even | odd
  · left
    have half : position = 2 * (position / 2) := by omega
    refine ⟨by rw [← half], ?_⟩
    rw [even, ← Nat.mul_succ]
  · right
    have half : position = 2 * (position / 2) + 1 := by omega
    refine ⟨?_, by rw [odd, Nat.sub_self, Nat.add_zero]⟩
    exact congrArg (2 ^ block.order * ·) half

theorem parent_stop :
    block.parent.stop = block.parent.start + 2 ^ block.order + 2 ^ block.order := by
  simp only [Block.stop, Block.parent, Nat.pow_succ]
  omega

/-- What avoids both halves avoids the pair. -/
theorem apart_parent {block other : Block} (aligned : block.Aligned)
    (self : block.Apart other) (buddy : block.buddy.Apart other) :
    block.parent.Apart other := by
  have halves := halves_of_aligned block aligned
  have nonempty := stop_gt_start other
  have whole := parent_stop block
  have order : block.buddy.order = block.order := rfl
  unfold Block.Apart Block.stop at *
  rw [order] at buddy
  omega

theorem buddy_apart {block : Block} (aligned : block.Aligned) : block.buddy.Apart block := by
  have halves := halves_of_aligned block aligned
  have order : block.buddy.order = block.order := rfl
  unfold Block.Apart Block.stop
  rw [order]
  omega

@[simp] theorem buddy_order : block.buddy.order = block.order := rfl

@[simp] theorem buddy_buddy : block.buddy.buddy = block := by
  simp [Block.buddy]

theorem parent_eq_pair : block.parent.start = 2 ^ (block.order + 1) * block.pair := by
  simp [Block.parent, Block.pair, Nat.shiftLeft_eq, Nat.add_comm, Nat.mul_comm]

@[simp] theorem buddy_pair : block.buddy.pair = block.pair := by
  have small : 2 ^ block.order >>> (1 + block.order) = 0 := by
    rw [Nat.shiftRight_eq_div_pow]
    exact Nat.div_eq_of_lt (Nat.pow_lt_pow_right (by decide) (by omega))
  simp [Block.pair, Block.buddy, Nat.shiftRight_xor_distrib, small]

theorem parent_pair : block.parent.pair = block.pair >>> 1 := by
  simp only [Block.pair, ← Nat.shiftRight_add]
  rw [parent_eq_pair, Nat.shiftRight_eq_div_pow, Block.pair, Nat.shiftRight_eq_div_pow]
  simp only [Block.parent]
  rw [show 1 + (block.order + 1) = block.order + 1 + 1 by omega, Nat.pow_succ 2 (block.order + 1),
    Nat.mul_div_mul_left _ _ (Nat.two_pow_pos _), Nat.div_div_eq_div_mul,
    Nat.shiftRight_eq_div_pow, Nat.add_comm 1 block.order, Nat.pow_succ 2 (block.order + 1)]

/-- The two members of a pair are the only aligned blocks with its number. -/
theorem pair_eq_iff (left : first.Aligned) (right : second.Aligned)
    (order : first.order = second.order) :
    first.pair = second.pair ↔ first = second ∨ first.buddy = second := by
  have leftHalves := halves_of_aligned first left
  have rightHalves := halves_of_aligned second right
  constructor
  · intro same
    have parents : first.parent.start = second.parent.start := by
      rw [parent_eq_pair, parent_eq_pair, same, order]
    obtain ⟨start, firstOrder⟩ := first
    obtain ⟨other, secondOrder⟩ := second
    simp only [Block.mk.injEq, Block.buddy] at *
    subst order
    omega
  · rintro (rfl | rfl)
    · rfl
    · exact (buddy_pair first).symm

theorem lower_half_start {start order : Nat} (aligned : 2 ^ (order + 1) ∣ start) :
    (⟨start, order⟩ : Block).parent = ⟨start, order + 1⟩ ∧
      (⟨start, order⟩ : Block).buddy = ⟨start + 2 ^ order, order⟩ := by
  have half : (⟨start, order⟩ : Block).Aligned := (pow_dvd_pow 2 (Nat.le_succ order)).trans aligned
  have parent : (⟨start, order⟩ : Block).parent.start = start := by
    simp only [Block.parent, parent_start, ← Nat.pow_succ']
    exact Nat.mul_div_cancel' aligned
  have halves := halves_of_aligned _ half
  rw [parent] at halves
  refine ⟨congrArg (Block.mk · (order + 1)) parent, congrArg (Block.mk · order) ?_⟩
  rcases halves with ⟨_, upper⟩ | ⟨wrong, _⟩
  · exact upper
  · dsimp only at wrong
    omega

end MagxKernel.BuddyBlocks
