import Mathlib.Algebra.Group.Nat.Defs
import Mathlib.Data.Fintype.Card

namespace MagxKernel.RadixSlots

open Function

section Digits

variable (bits : Nat)

/-- The digit of an index at a level of a radix tree with `2 ^ bits` slots. -/
def digit (index level : Nat) : Nat := index / 2 ^ (bits * level) % 2 ^ bits

/-- The indices take the same way through a subtree of this height. -/
def Same (height left right : Nat) : Prop :=
  left % 2 ^ (bits * height) = right % 2 ^ (bits * height)

instance (height left right : Nat) : Decidable (Same bits height left right) :=
  inferInstanceAs (Decidable (_ = _))

theorem shiftRight_and_mask (index level : Nat) :
    (index >>> (bits * level)) &&& (2 ^ bits - 1) = digit bits index level := by
  rw [Nat.shiftRight_eq_div_pow, Nat.and_two_pow_sub_one_eq_mod]
  rfl

theorem power_succ (height : Nat) : 2 ^ (bits * (height + 1)) = 2 ^ (bits * height) * 2 ^ bits := by
  rw [Nat.mul_add, Nat.mul_one, Nat.pow_add]

theorem same_succ (height left right : Nat) :
    Same bits (height + 1) left right ↔
      digit bits left height = digit bits right height ∧ Same bits height left right := by
  unfold Same digit
  rw [power_succ]
  constructor
  · intro same
    constructor
    · rw [← Nat.mod_mul_right_div_self, same, Nat.mod_mul_right_div_self]
    · rw [← Nat.mod_mul_right_mod left _ (2 ^ bits), same, Nat.mod_mul_right_mod]
  · rintro ⟨head, rest⟩
    rw [Nat.mod_mul, head, rest, ← Nat.mod_mul]

theorem exists_index (height index top : Nat) (small : top < 2 ^ bits) :
    ∃ whole, digit bits whole height = top ∧ Same bits height whole index := by
  have positive : 0 < 2 ^ (bits * height) := Nat.two_pow_pos _
  refine ⟨index % 2 ^ (bits * height) + 2 ^ (bits * height) * top, ?_, ?_⟩
  · unfold digit
    rw [Nat.add_mul_div_left _ _ positive, Nat.div_eq_of_lt (Nat.mod_lt _ positive), Nat.zero_add]
    exact Nat.mod_eq_of_lt small
  · unfold Same
    rw [Nat.add_mul_mod_self_left, Nat.mod_mod]

end Digits

section Occupied

variable {size : Nat} {β : Type} (holds : β → Bool)

/-- The number of slots that hold something. -/
def occupied (slots : Fin size → β) : Nat :=
  (Finset.univ.filter fun slot => holds (slots slot) = true).card

theorem card_erase_add (set : Finset (Fin size)) (slot : Fin size) :
    (set.erase slot).card + (if slot ∈ set then 1 else 0) = set.card := by
  split
  · rename_i member
    exact Finset.card_erase_add_one member
  · rename_i absent
    rw [Finset.erase_eq_of_notMem absent, Nat.add_zero]

/-- One slot counts for as much as it holds. -/
theorem occupied_update (slots : Fin size → β) (slot : Fin size) (value : β) :
    occupied holds (update slots slot value) + (holds (slots slot)).toNat =
      occupied holds slots + (holds value).toNat := by
  have others : (Finset.univ.filter fun other =>
        holds ((update slots slot value) other) = true).erase slot =
      (Finset.univ.filter fun other => holds (slots other) = true).erase slot := by
    ext other
    by_cases same : other = slot <;> simp [same]
  have before := card_erase_add (Finset.univ.filter fun other => holds (slots other) = true) slot
  have after := card_erase_add (Finset.univ.filter fun other =>
    holds ((update slots slot value) other) = true) slot
  rw [others] at after
  simp only [Finset.mem_filter, Finset.mem_univ, true_and, update_self] at before after
  unfold occupied
  cases old : holds (slots slot) <;> cases new : holds value <;>
    simp only [old, new, if_true, if_false, Bool.false_eq_true, Bool.toNat_true,
      Bool.toNat_false] at before after ⊢ <;>
    omega

theorem occupied_eq_zero {slots : Fin size → β} :
    occupied holds slots = 0 ↔ ∀ slot, holds (slots slot) = false := by
  unfold occupied
  simp

theorem occupied_pos {slots : Fin size → β} {slot : Fin size} (held : holds (slots slot) = true) :
    0 < occupied holds slots :=
  Finset.card_pos.mpr ⟨slot, Finset.mem_filter.mpr ⟨Finset.mem_univ _, held⟩⟩

theorem occupied_le (slots : Fin size → β) : occupied holds slots ≤ size :=
  (Finset.card_le_univ _).trans (Nat.le_of_eq (Fintype.card_fin size))

end Occupied

end MagxKernel.RadixSlots
