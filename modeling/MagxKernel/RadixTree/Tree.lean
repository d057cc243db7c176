import Mathlib.Algebra.Group.Nat.Defs
import Mathlib.Data.Fintype.Basic

namespace MagxKernel.RadixTree

open Function

abbrev mapShift : Nat := 6
abbrev mapSize : Nat := 1 <<< mapShift
abbrev mapMask : Nat := mapSize - 1
abbrev indexBits : Nat := 32
abbrev maxPath : Nat := indexBits / mapShift + 2

abbrev enomem : Int := 12
abbrev eexist : Int := 17

/-- `RADIX_TREE_TAGS` is 2. -/
abbrev Tag := Fin 2

abbrev Offset := Fin mapSize

variable {α : Type}

/-- `struct radix_tree_node`; a tag word is the function of its bits. -/
structure Node (Pointer : Type) where
  count : Nat
  tags : Tag → Offset → Bool
  slots : Offset → Pointer

/-- What a `void *` slot holds: nothing, an item at the bottom level, or a node. -/
inductive Ptr (α : Type) where
  | null
  | item (value : α)
  | node (node : Node (Ptr α))

structure Root (α : Type) where
  height : Nat
  rnode : Ptr α

/-- A tree with the nodes that have been handed back to the node cache, which
returns them as they are. -/
structure State (α : Type) where
  root : Root α
  cache : List (Node (Ptr α))

def Ptr.isNull : Ptr α → Bool
  | .null => true
  | _ => false

namespace Node

/-- A node as the constructor of the cache leaves it. -/
def zero : Node (Ptr α) := ⟨0, fun _ _ => false, fun _ => .null⟩

def setSlot (node : Node (Ptr α)) (offset : Offset) (child : Ptr α) : Node (Ptr α) :=
  { node with slots := update node.slots offset child }

/-- `tag_set` and `tag_clear` -/
def setTag (node : Node (Ptr α)) (tag : Tag) (offset : Offset) (value : Bool) : Node (Ptr α) :=
  let bits := update (node.tags tag) offset value
  { node with tags := update node.tags tag bits }

/-- The loop over the words of one tag. -/
def anyTag (node : Node (Ptr α)) (tag : Tag) : Bool :=
  decide (∃ offset, node.tags tag offset = true)

end Node

/-- The entry of `height_to_maxindex` that `__maxindex` computes. -/
def maxindexOf (height : Nat) : Nat :=
  let tmp := height * mapShift
  if indexBits ≤ tmp then 2 ^ indexBits - 1
  else ((2 ^ indexBits - 1) >>> (indexBits - tmp - 1)) >>> 1

/-- `radix_tree_maxindex`: no value outside the array. -/
def maxindex (height : Nat) : Option Nat :=
  if height < maxPath then some (maxindexOf height) else none

def offsetOf (index level : Nat) : Offset :=
  ⟨(index >>> (level * mapShift)) &&& mapMask, by
    exact Nat.lt_of_le_of_lt Nat.and_le_right (by decide)⟩

/-- `radix_tree_node_alloc` while `budget` allocations still succeed. -/
def nodeAlloc (cache : List (Node (Ptr α))) (budget : Nat) :
    Option (Node (Ptr α) × List (Node (Ptr α)) × Nat) :=
  match budget, cache with
  | 0, _ => none
  | budget + 1, [] => some (.zero, [], budget)
  | budget + 1, node :: cache => some (node, cache, budget)

/-- The search for a sufficient height among the last `left` entries of the
array; behind them there is none. -/
def growHeight (index : Nat) : (left : Nat) → Option Nat
  | 0 => none
  | left + 1 =>
    if maxindexOf (maxPath - (left + 1)) < index then growHeight index left
    else some (maxPath - (left + 1))

/-- Result of a function that allocates: its error code, the pointer it leaves
and what remains of cache and budget. -/
structure Outcome (α : Type) where
  error : Int
  ptr : Ptr α
  cache : List (Node (Ptr α))
  budget : Nat

/-- The node that one turn of the `do` loop of `radix_tree_extend` pushes. -/
def pushNode (node : Node (Ptr α)) (tags : Tag → Bool) (rnode : Ptr α) : Node (Ptr α) :=
  let bits := fun tag => if tags tag then update (node.tags tag) 0 true else node.tags tag
  { node.setSlot 0 rnode with count := 1, tags := bits }

/-- The `do` loop, with the height it has reached. -/
def pushRoots (tags : Tag → Bool) : (times : Nat) → Root α → List (Node (Ptr α)) → Nat →
    Int × Root α × List (Node (Ptr α)) × Nat
  | 0, root, cache, budget => (0, root, cache, budget)
  | times + 1, root, cache, budget =>
    match nodeAlloc cache budget with
    | none => (-enomem, root, cache, budget)
    | some (node, cache, budget) =>
      pushRoots tags times ⟨root.height + 1, .node (pushNode node tags root.rnode)⟩ cache budget

def extend (root : Root α) (index : Nat) (cache : List (Node (Ptr α))) (budget : Nat) :
    Option (Int × Root α × List (Node (Ptr α)) × Nat) :=
  (growHeight index (maxPath - (root.height + 1))).bind fun height =>
    match root.rnode with
    | .null => some (0, { root with height := height }, cache, budget)
    | .item _ => none
    | .node top => some (pushRoots top.anyTag (height - root.height) root cache budget)

/-- A parent counts a slot that has been filled. -/
def filledNode (node : Node (Ptr α)) (offset : Offset) (child : Ptr α) : Node (Ptr α) :=
  (if (node.slots offset).isNull && !child.isNull then { node with count := node.count + 1 }
    else node).setSlot offset child

/-- The parent's share of one turn of the insertion loop. No tag of a slot that
takes an item may be set. -/
def fillSlot (node : Node (Ptr α)) (offset : Offset) (bottom : Bool) (outcome : Outcome α) :
    Option (Outcome α) :=
  if (node.slots offset).isNull && !outcome.ptr.isNull && bottom &&
      (node.tags 0 offset || node.tags 1 offset) then none
  else some { outcome with ptr := .node (filledNode node offset outcome.ptr) }

/-- The insertion loop from a slot with `height` levels below it. -/
def insertSlot (index : Nat) (item : α) : (height : Nat) → List (Node (Ptr α)) → Nat → Ptr α →
    Option (Outcome α)
  | 0, cache, budget, slot =>
    if slot.isNull then some ⟨0, .item item, cache, budget⟩
    else some ⟨-eexist, slot, cache, budget⟩
  | height + 1, cache, budget, slot =>
    let offset := offsetOf index height
    match slot with
    | .item _ => none
    | .node node =>
      (insertSlot index item height cache budget (node.slots offset)).bind
        (fillSlot node offset (height == 0))
    | .null =>
      match nodeAlloc cache budget with
      | none => some ⟨-enomem, .null, cache, budget⟩
      | some (node, cache, budget) =>
        (insertSlot index item height cache budget (node.slots offset)).bind
          (fillSlot node offset (height == 0))

def radixTreeInsert (state : State α) (index : Nat) (item : α) (budget : Nat) :
    Option (Int × State α) :=
  (maxindex state.root.height).bind fun limit =>
    let extended :=
      if (index = 0 ∧ state.root.rnode.isNull = true) ∨ limit < index then
        extend state.root index state.cache budget
      else some (0, state.root, state.cache, budget)
    extended.bind fun (error, root, cache, budget) =>
      if error ≠ 0 then some (error, ⟨root, cache⟩)
      else (insertSlot index item root.height cache budget root.rnode).map fun outcome =>
        (outcome.error, ⟨{ root with rnode := outcome.ptr }, outcome.cache⟩)

/-- The walk of `radix_tree_lookup`; an item is never a node. -/
def lookupSlot (index : Nat) : (height : Nat) → Ptr α → Option (Ptr α)
  | 0, slot => some slot
  | height + 1, slot =>
    match slot with
    | .null => some .null
    | .item _ => none
    | .node node => lookupSlot index height (node.slots (offsetOf index height))

def radixTreeLookup (root : Root α) (index : Nat) : Option (Ptr α) :=
  (maxindex root.height).bind fun limit =>
    if limit < index then some .null else lookupSlot index root.height root.rnode

/-- The walk of `radix_tree_tag_set`, which is for present items only. -/
def tagSetSlot (index : Nat) (tag : Tag) : (height : Nat) → Ptr α → Option (Ptr α × Ptr α)
  | 0, slot => some (slot, slot)
  | height + 1, slot =>
    match slot with
    | .node node =>
      let offset := offsetOf index height
      if (node.slots offset).isNull then none
      else (tagSetSlot index tag height (node.slots offset)).map fun (found, child) =>
        (found, .node ((node.setTag tag offset true).setSlot offset child))
    | _ => none

def radixTreeTagSet (root : Root α) (index : Nat) (tag : Tag) : Option (Ptr α × Root α) :=
  (maxindex root.height).bind fun limit =>
    if limit < index then some (.null, root)
    else (tagSetSlot index tag root.height root.rnode).map fun (found, rnode) =>
      (found, { root with rnode := rnode })

/-- One entry of the `path` array. -/
structure Frame (α : Type) where
  node : Node (Ptr α)
  offset : Offset

/-- Link a subtree back into the nodes above it. -/
def plug : Ptr α → List (Frame α) → Ptr α
  | ptr, [] => ptr
  | ptr, frame :: path => plug (.node (frame.node.setSlot frame.offset ptr)) path

/-- The walk that fills the `path` array, lowest entry first: `some none` when it
meets an empty slot on the way. -/
def descend (index : Nat) : (height : Nat) → Ptr α → List (Frame α) →
    Option (Option (Ptr α × List (Frame α)))
  | 0, slot, path => some (some (slot, path))
  | height + 1, slot, path =>
    match slot with
    | .null => some none
    | .item _ => none
    | .node node =>
      let offset := offsetOf index height
      descend index height (node.slots offset) (⟨node, offset⟩ :: path)

/-- The way up of `radix_tree_tag_clear`, which ends at the first node that has
the tag on another slot. -/
def tagClearUp (tag : Tag) : Ptr α → List (Frame α) → Ptr α
  | ptr, [] => ptr
  | ptr, frame :: path =>
    let node := (frame.node.setTag tag frame.offset false).setSlot frame.offset ptr
    if node.anyTag tag then plug (.node node) path else tagClearUp tag (.node node) path

def radixTreeTagClear (root : Root α) (index : Nat) (tag : Tag) : Option (Ptr α × Root α) :=
  (maxindex root.height).bind fun limit =>
    if limit < index then some (.null, root)
    else (descend index root.height root.rnode []).map fun
      | none => (.null, root)
      | some (slot, path) =>
        if slot.isNull then (.null, root)
        else (slot, { root with rnode := tagClearUp tag slot path })

/-- Clear the bits of one slot for the tags that have not been stopped. -/
def clearTags (tags : Tag → Bool) (frame : Frame α) : Frame α :=
  let bits := fun tag =>
    if tags tag then frame.node.tags tag
    else update (frame.node.tags tag) frame.offset false
  { frame with node := { frame.node with tags := bits } }

/-- The way up of `radix_tree_delete` that clears tags. `tags` are those found
on another slot further down; the loop ends when one node stops both. -/
def clearTagsUp (tags : Tag → Bool) : List (Frame α) → List (Frame α)
  | [] => []
  | frame :: path =>
    let frame := clearTags tags frame
    let stopped := fun tag => !tags tag && frame.node.anyTag tag
    if stopped 0 && stopped 1 then frame :: path
    else frame :: clearTagsUp (fun tag => tags tag || stopped tag) path

/-- The way up that empties the slot and frees the nodes without any other:
the new tree and the freed nodes. -/
def pruneUp : List (Frame α) → Ptr α × List (Node (Ptr α))
  | [] => (.null, [])
  | frame :: path =>
    let node := { frame.node.setSlot frame.offset .null with
      count := (frame.node.count + (2 ^ 32 - 1)) % 2 ^ 32 }
    if node.count = 0 then ((pruneUp path).1, node :: (pruneUp path).2)
    else (plug (.node node) path, [])

def radixTreeDelete (state : State α) (index : Nat) : Option (Ptr α × State α) :=
  (maxindex state.root.height).bind fun limit =>
    if limit < index then some (.null, state)
    else (descend index state.root.height state.root.rnode []).map fun
      | none => (.null, state)
      | some (slot, path) =>
        if slot.isNull then (.null, state)
        else
          let (rnode, freed) := pruneUp (clearTagsUp (fun _ => false) path)
          let height := if rnode.isNull then 0 else state.root.height
          (slot, ⟨⟨height, rnode⟩, freed ++ state.cache⟩)

def radixTreeTagged (root : Root α) (tag : Tag) : Option Bool :=
  match root.rnode with
  | .null => some false
  | .item _ => none
  | .node node => some (node.anyTag tag)

end MagxKernel.RadixTree
