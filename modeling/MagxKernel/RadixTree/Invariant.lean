import MagxKernel.Lib.RadixSlots
import MagxKernel.RadixTree.Tree

namespace MagxKernel.RadixTree

open RadixSlots Function

variable {α : Type}

section Digits

theorem offsetOf_val (index level : Nat) : (offsetOf index level).val = digit 6 index level := by
  change (index >>> (level * mapShift)) &&& mapMask = _
  rw [Nat.mul_comm]
  exact shiftRight_and_mask 6 index level

theorem same_succ_offset (height left right : Nat) :
    Same 6 (height + 1) left right ↔
      offsetOf left height = offsetOf right height ∧ Same 6 height left right := by
  rw [same_succ, Fin.ext_iff, offsetOf_val, offsetOf_val]

end Digits

section Nodes

/-- Some bit of the tag is set in the node behind the pointer. -/
def hasTag : Ptr α → Tag → Bool
  | .node node, tag => node.anyTag tag
  | _, _ => false

theorem anyTag_iff (node : Node (Ptr α)) (tag : Tag) :
    node.anyTag tag = true ↔ ∃ offset, node.tags tag offset = true :=
  decide_eq_true_iff

def filled (slots : Offset → Ptr α) : Nat := occupied (fun child => !child.isNull) slots

theorem filled_update (slots : Offset → Ptr α) (offset : Offset) (child : Ptr α) :
    filled (update slots offset child) + (if (slots offset).isNull then 0 else 1) =
      filled slots + (if child.isNull then 0 else 1) := by
  have total := occupied_update (fun child : Ptr α => !child.isNull) slots offset child
  have weight : ∀ null : Bool, (!null).toNat = if null then 0 else 1 := by decide
  simp only [weight] at total
  exact total

theorem slots_null_of_filled {slots : Offset → Ptr α} (empty : filled slots = 0) (offset : Offset) :
    slots offset = .null := by
  have none := (occupied_eq_zero _).mp empty offset
  cases child : slots offset with
  | null => rfl
  | item value =>
    rw [child] at none
    cases none
  | node node =>
    rw [child] at none
    cases none

theorem filled_zero : filled (Node.zero : Node (Ptr α)).slots = 0 :=
  (occupied_eq_zero _).mpr fun _ => rfl

/-- What holds in a node with `height` levels below it. At the bottom, tags
belong to present items; above, they are the aggregate of the child. -/
structure NodeOk (height : Nat) (node : Node (Ptr α)) : Prop where
  count_eq : node.count = filled node.slots
  bottom : height = 0 → ∀ tag offset, node.tags tag offset = true →
    (node.slots offset).isNull = false
  above : height ≠ 0 → ∀ tag offset, node.tags tag offset = hasTag (node.slots offset) tag

def Valid : Nat → Ptr α → Prop
  | _, .null => True
  | 0, .item _ => True
  | height + 1, .node node => NodeOk height node ∧ ∀ offset, Valid height (node.slots offset)
  | _, _ => False

/-- The item that a subtree holds for an index. -/
def get (index : Nat) : Nat → Ptr α → Option α
  | 0, .item value => some value
  | height + 1, .node node => get index height (node.slots (offsetOf index height))
  | _, _ => none

@[simp] theorem valid_null (height : Nat) : Valid height (.null : Ptr α) := by
  cases height <;> trivial

@[simp] theorem get_null (index height : Nat) : get index height (.null : Ptr α) = none := by
  cases height <;> rfl

theorem valid_zero (height : Nat) : Valid (height + 1) (.node (.zero : Node (Ptr α))) := by
  refine ⟨⟨?_, ?_, ?_⟩, fun _ => valid_null height⟩
  · exact filled_zero.symm
  · intro _ tag offset set
    cases set
  · intro _ tag offset
    rfl

/-- A node whose slot `offset` is given another child. -/
structure Replaced (height : Nat) (before after : Node (Ptr α)) (offset : Offset) (child : Ptr α) :
    Prop where
  slots_eq : after.slots = update before.slots offset child
  count_eq : after.count = filled after.slots
  others : ∀ tag other, other ≠ offset → after.tags tag other = before.tags tag other
  bottom : height = 0 → ∀ tag, after.tags tag offset = true → child.isNull = false
  above : height ≠ 0 → ∀ tag, after.tags tag offset = hasTag child tag

section

variable {height : Nat} {before after : Node (Ptr α)}

variable {offset : Offset} {child : Ptr α}

theorem Replaced.slots_other {other : Offset} (replaced : Replaced height before after offset child)
    (ne : other ≠ offset) :
    after.slots other = before.slots other := by
  rw [replaced.slots_eq, update_of_ne ne]

section

variable (replaced : Replaced height before after offset child)

include replaced

theorem Replaced.slots_self : after.slots offset = child := by
  rw [replaced.slots_eq, update_self]

theorem Replaced.valid (old : Valid (height + 1) (.node before)) (new : Valid height child) :
    Valid (height + 1) (.node after) := by
  obtain ⟨ok, children⟩ := old
  refine ⟨⟨replaced.count_eq, ?_, ?_⟩, ?_⟩
  · intro level tag other set
    by_cases same : other = offset
    · subst same
      rw [replaced.slots_self]
      exact replaced.bottom level tag set
    · rw [replaced.slots_other same]
      rw [replaced.others tag other same] at set
      exact ok.bottom level tag other set
  · intro level tag other
    by_cases same : other = offset
    · subst same
      rw [replaced.slots_self]
      exact replaced.above level tag
    · rw [replaced.slots_other same, replaced.others tag other same]
      exact ok.above level tag other
  · rw [replaced.slots_eq]
    exact (forall_update_iff before.slots fun _ => Valid height).mpr
      ⟨new, fun other _ => children other⟩

theorem Replaced.get (index : Nat) :
    get index (height + 1) (.node after) =
      if offsetOf index height = offset then get index height child
      else get index (height + 1) (.node before) := by
  change RadixTree.get index height (after.slots (offsetOf index height)) = _
  rw [replaced.slots_eq, update_apply, apply_ite (RadixTree.get index height)]
  rfl

end

end

section

variable {height index : Nat} {before after : Node (Ptr α)} {child : Ptr α}
  (replaced : Replaced height before after (offsetOf index height) child)

include replaced

theorem Replaced.get_of_child {value : Option α}
    (below : ∀ other, RadixTree.get other height child = if Same 6 height other index then value
      else RadixTree.get other height (before.slots (offsetOf index height))) (other : Nat) :
    RadixTree.get other (height + 1) (.node after) = if Same 6 (height + 1) other index then value
      else RadixTree.get other (height + 1) (.node before) := by
  rw [replaced.get]
  simp only [same_succ_offset, RadixTree.get]
  by_cases digit : offsetOf other height = offsetOf index height
  · simp [digit, below]
  · simp [digit]

theorem Replaced.get_same (below : ∀ other, RadixTree.get other height child =
      RadixTree.get other height (before.slots (offsetOf index height))) (other : Nat) :
    RadixTree.get other (height + 1) (.node after) =
      RadixTree.get other (height + 1) (.node before) := by
  rw [replaced.get]
  split
  · rename_i digit
    rw [below, ← digit]
    rfl
  · rfl

end

end Nodes

end MagxKernel.RadixTree
