import MagxKernel.RadixTree.Insert

namespace MagxKernel.RadixTree

open RadixSlots List Function

variable {α : Type}

theorem lookupSlot_eq (index height : Nat) (slot : Ptr α) (valid : Valid height slot) :
    lookupSlot index height slot =
      some (match get index height slot with | none => .null | some value => .item value) := by
  induction height generalizing slot with
  | zero =>
    cases slot with
    | null | item value => rfl
    | node node => exact absurd valid (by simp [Valid])
  | succ height ih =>
    cases slot with
    | null => rfl
    | item value => exact absurd valid (by simp [Valid])
    | node node => exact ih _ (valid.2 _)

theorem anyTag_setSlot (node : Node (Ptr α)) (offset : Offset) (child : Ptr α) (tag : Tag) :
    (node.setSlot offset child).anyTag tag = node.anyTag tag := rfl

variable {index height : Nat}

theorem isNull_of_get {slot : Ptr α} (present : get index height slot ≠ none) :
    slot.isNull = false := by
  cases slot with
  | null => exact absurd (get_null index height) present
  | item value | node node => rfl

/-- The way down to an item that is present ends at it. -/
theorem present_induction {index : Nat} {value : α}
    {motive : ∀ height slot, Valid height slot → get index height slot = some value → Prop}
    (leaf : motive 0 (.item value) trivial rfl)
    (node : ∀ height node (valid : Valid (height + 1) (.node node))
      (present : get index height (node.slots (offsetOf index height)) = some value),
      (node.slots (offsetOf index height)).isNull = false → motive height _ (valid.2 _) present →
      motive (height + 1) (.node node) valid present)
    (height : Nat) (slot : Ptr α) (valid : Valid height slot)
    (present : get index height slot = some value) : motive height slot valid present := by
  induction height generalizing slot with
  | zero =>
    cases slot with
    | null => cases present
    | item found => cases present; exact leaf
    | node node => cases present
  | succ height ih =>
    cases slot with
    | null | item found => cases present
    | node parent =>
      have below : get index height (parent.slots (offsetOf index height)) = some value := present
      exact node height parent valid below (isNull_of_get (by rw [below]; simp)) (ih _ _ below)

theorem filled_of_nonnull (slots : Offset → Ptr α) (offset : Offset) (child : Ptr α)
    (old : (slots offset).isNull = false) (new : child.isNull = false) :
    filled (update slots offset child) = filled slots := by
  have total := filled_update slots offset child
  simp only [old, new, Bool.false_eq_true, if_false] at total
  omega

theorem hasTag_zero {slot : Ptr α} (valid : Valid 0 slot) (tag : Tag) :
    hasTag slot tag = false := by
  cases slot with
  | null | item value => rfl
  | node node => exact absurd valid (by simp [Valid])

variable {node : Node (Ptr α)}

section TagSet

/-- The item stays where it is and carries the tag up to this slot. -/
structure TagAdded (tag : Tag) (height : Nat) (before after : Ptr α) : Prop where
  valid : Valid height after
  items : ∀ other, get other height after = get other height before
  tagged : height ≠ 0 → hasTag after tag = true
  others : ∀ other, other ≠ tag → hasTag after other = hasTag before other
  nonnull : after.isNull = false

theorem setTag_tags (node : Node (Ptr α)) (tag other : Tag) (offset place : Offset) (value : Bool) :
    (node.setTag tag offset value).tags other place =
      if other = tag ∧ place = offset then value else node.tags other place := by
  unfold Node.setTag
  by_cases same : other = tag
  · subst same
    by_cases here : place = offset <;> simp [here]
  · simp [same]

theorem anyTag_setTag_of_ne (node : Node (Ptr α)) (tag other : Tag) (offset : Offset) (value : Bool)
    (different : other ≠ tag) :
    (node.setTag tag offset value).anyTag other = node.anyTag other := by
  unfold Node.anyTag
  simp [setTag_tags, different]

theorem setTag_self {tag : Tag} {offset : Offset} {value : Bool}
    (bit : node.tags tag offset = value) : node.setTag tag offset value = node := by
  simp [Node.setTag, ← bit]

/-- A child that is in the place of another, with its bit for the tag set to what it has. -/
theorem replaced_setTag {tag : Tag} {child : Ptr α} {bit : Bool} (ok : NodeOk height node)
    (present : (node.slots (offsetOf index height)).isNull = false) (nonnull : child.isNull = false)
    (own : height ≠ 0 → hasTag child tag = bit) (others : ∀ other, other ≠ tag →
      hasTag child other = hasTag (node.slots (offsetOf index height)) other) :
    Replaced height node
      ((node.setTag tag (offsetOf index height) bit).setSlot (offsetOf index height) child)
      (offsetOf index height) child := by
  refine ⟨rfl, ?_, ?_, fun _ _ _ => nonnull, ?_⟩
  · change node.count = filled (update node.slots _ child)
    rw [filled_of_nonnull _ _ _ present nonnull, ok.count_eq]
  · intro other place ne
    exact (setTag_tags node tag other _ place bit).trans (by simp [ne])
  · intro level other
    change (node.setTag tag _ bit).tags other _ = _
    rw [setTag_tags]
    by_cases same : other = tag
    · subst same
      simp [own level]
    · simp only [same, false_and, if_false]
      rw [ok.above level, others other same]

theorem TagAdded.parent {tag : Tag} {child : Ptr α} (valid : Valid (height + 1) (.node node))
    (present : (node.slots (offsetOf index height)).isNull = false)
    (below : TagAdded tag height (node.slots (offsetOf index height)) child) :
    TagAdded tag (height + 1) (.node node)
      (.node ((node.setTag tag (offsetOf index height) true).setSlot
        (offsetOf index height) child)) := by
  have replaced := replaced_setTag valid.1 present below.nonnull below.tagged below.others
  refine ⟨replaced.valid valid below.valid, replaced.get_same below.items, ?_, ?_, rfl⟩
  · intro _
    change Node.anyTag _ tag = true
    rw [anyTag_setSlot, anyTag_iff]
    exact ⟨offsetOf index height, by simp [setTag_tags]⟩
  · intro other different
    change Node.anyTag _ other = node.anyTag other
    rw [anyTag_setSlot, anyTag_setTag_of_ne _ _ _ _ _ different]

theorem tagSetSlot_added (index : Nat) (tag : Tag) (height : Nat) (slot : Ptr α) (value : α)
    (valid : Valid height slot) (present : get index height slot = some value) :
    ∃ after, tagSetSlot index tag height slot = some (.item value, after) ∧
      TagAdded tag height slot after := by
  induction height, slot, valid, present using present_induction with
  | leaf =>
    exact ⟨.item value, rfl, trivial, fun _ => rfl, absurd rfl, fun _ _ => rfl, rfl⟩
  | node height node valid _ nonnull below =>
    obtain ⟨child, ran, added⟩ := below
    refine ⟨_, ?_, added.parent valid nonnull⟩
    rw [tagSetSlot]
    simp [nonnull, ran]

end TagSet

section Descend

theorem descend_missing (index height : Nat) (slot : Ptr α) (path : List (Frame α))
    (valid : Valid height slot) (absent : get index height slot = none) :
    descend index height slot path = some none ∨
      ∃ path', descend index height slot path = some (some (.null, path')) := by
  induction height generalizing slot path with
  | zero =>
    cases slot with
    | null => exact .inr ⟨path, rfl⟩
    | item value => cases absent
    | node node => exact absurd valid (by simp [Valid])
  | succ height ih =>
    cases slot with
    | null => exact .inl rfl
    | item value => exact absurd valid (by simp [Valid])
    | node node => exact ih _ _ (valid.2 _) absent

/-- The item stays, and the tag of another item is all that can keep the tag
alive in this subtree. -/
structure TagRemoved (tag : Tag) (height : Nat) (before after : Ptr α) : Prop where
  valid : Valid height after
  items : ∀ other, get other height after = get other height before
  fewer : hasTag after tag = true → hasTag before tag = true
  others : ∀ other, other ≠ tag → hasTag after other = hasTag before other
  nonnull : after.isNull = false

section

variable {index height : Nat} {tag : Tag} {node : Node (Ptr α)} {child : Ptr α}
  (valid : Valid (height + 1) (.node node))
  (present : (node.slots (offsetOf index height)).isNull = false)
  (below : TagRemoved tag height (node.slots (offsetOf index height)) child)

include valid present below

theorem TagRemoved.parent_kept (tagged : hasTag child tag = true) :
    TagRemoved tag (height + 1) (.node node) (.node (node.setSlot (offsetOf index height) child)) ∧
      node.anyTag tag = true := by
  have level : height ≠ 0 := by
    rintro rfl
    rw [hasTag_zero below.valid] at tagged
    cases tagged
  have bit : node.tags tag (offsetOf index height) = true := by
    rw [valid.1.above level, below.fewer tagged]
  have replaced := replaced_setTag valid.1 present below.nonnull (fun _ => tagged) below.others
  rw [setTag_self bit] at replaced
  have any : node.anyTag tag = true := (anyTag_iff node tag).mpr ⟨_, bit⟩
  exact ⟨⟨replaced.valid valid below.valid, replaced.get_same below.items, fun _ => any,
    fun _ _ => rfl, rfl⟩, any⟩

theorem TagRemoved.parent_cleared (untagged : hasTag child tag = false) :
    TagRemoved tag (height + 1) (.node node) (.node
      ((node.setTag tag (offsetOf index height) false).setSlot (offsetOf index height) child)) := by
  have replaced := replaced_setTag valid.1 present below.nonnull (fun _ => untagged) below.others
  refine ⟨replaced.valid valid below.valid, replaced.get_same below.items, ?_, ?_, rfl⟩
  · intro any
    change Node.anyTag _ tag = true at any
    rw [anyTag_setSlot, anyTag_iff] at any
    obtain ⟨place, set⟩ := any
    rw [setTag_tags] at set
    split at set
    · cases set
    · exact (anyTag_iff node tag).mpr ⟨place, set⟩
  · intro other different
    change Node.anyTag _ other = node.anyTag other
    rw [anyTag_setSlot, anyTag_setTag_of_ne _ _ _ _ _ different]

end

/-- The walk down to a present item and the way up of `radix_tree_tag_clear`
through this subtree. -/
theorem tagClearUp_removed (index : Nat) (tag : Tag) (height : Nat) (slot : Ptr α) (value : α)
    (valid : Valid height slot) (present : get index height slot = some value) :
    ∃ frames after, TagRemoved tag height slot after ∧
      (∀ path, descend index height slot path = some (some (.item value, frames ++ path))) ∧
      ∀ path, tagClearUp tag (.item value) (frames ++ path) =
        if hasTag after tag then plug after path else tagClearUp tag after path := by
  induction height, slot, valid, present using present_induction with
  | leaf =>
    exact ⟨[], .item value, ⟨trivial, fun _ => rfl, id, fun _ _ => rfl, rfl⟩, fun _ => rfl,
      fun _ => rfl⟩
  | node height node valid _ nonnull below =>
    obtain ⟨frames, child, removed, down, up⟩ := below
    have down' : ∀ path, descend index (height + 1) (.node node) path =
        some (some (.item value, (frames ++ [⟨node, offsetOf index height⟩]) ++ path)) := by
      intro path
      rw [append_assoc]
      exact down _
    cases tagged : hasTag child tag with
    | true =>
      obtain ⟨parent, any⟩ := removed.parent_kept valid nonnull tagged
      refine ⟨_, _, parent, down', ?_⟩
      intro path
      rw [append_assoc, up, tagged]
      have still : hasTag (.node (node.setSlot (offsetOf index height) child)) tag = true := any
      rw [still]
      rfl
    | false =>
      refine ⟨_, _, removed.parent_cleared valid nonnull tagged, down', ?_⟩
      intro path
      rw [append_assoc, up, tagged]
      rfl

end Descend

section Delete

theorem isNull_node (node : Node (Ptr α)) : (Ptr.node node).isNull = false := rfl

theorem clearTags_tags (flags : Tag → Bool) (frame : Frame α) (tag : Tag) (place : Offset) :
    (clearTags flags frame).node.tags tag place =
      if flags tag = false ∧ place = frame.offset then false else frame.node.tags tag place := by
  unfold clearTags
  cases stopped : flags tag with
  | true => simp [stopped]
  | false =>
    by_cases here : place = frame.offset <;> simp [stopped, here]

theorem clearTagsUp_stopped (path : List (Frame α)) : clearTagsUp (fun _ => true) path = path := by
  induction path with
  | nil => rfl
  | cons frame path ih =>
    rw [clearTagsUp]
    simp only [Bool.not_true, Bool.false_and, Bool.false_eq_true, if_false, Bool.true_or, ih]
    rfl

/-- Ending the loop early is the same as going on with every tag stopped. -/
theorem clearTagsUp_cons (flags : Tag → Bool) (frame : Frame α) (path : List (Frame α)) :
    clearTagsUp flags (frame :: path) = clearTags flags frame ::
      clearTagsUp (fun tag => flags tag || (clearTags flags frame).node.anyTag tag) path := by
  rw [clearTagsUp]
  have merged : ∀ left right : Bool, (left || (!left && right)) = (left || right) := by decide
  simp only [merged]
  split
  · rename_i both
    simp only [Bool.and_eq_true] at both
    have every : (fun tag => flags tag || (clearTags flags frame).node.anyTag tag) =
        fun _ => true := by
      funext tag
      match tag with
      | 0 => rw [both.1.2, Bool.or_true]
      | 1 => rw [both.2.2, Bool.or_true]
    rw [every, clearTagsUp_stopped]
  · rfl

theorem eq_zero_of_count {height : Nat} (valid : Valid (height + 1) (.node node))
    (empty : node.count = 0) : node = .zero := by
  have ok := valid.1
  have slots : node.slots = fun _ => .null := by
    funext offset
    exact slots_null_of_filled (ok.count_eq.symm.trans empty) offset
  have tags : node.tags = fun _ _ => false := by
    funext tag offset
    by_cases level : height = 0
    · cases bit : node.tags tag offset with
      | false => rfl
      | true =>
        have present := ok.bottom level tag offset bit
        rw [slots] at present
        cases present
    · rw [ok.above level, slots]
      rfl
  obtain ⟨count, _, _⟩ := node
  simp only at empty slots tags
  rw [empty, slots, tags]
  rfl

/-- One index is gone, the tags that are left are those of other items, and the
nodes handed back are as new. -/
structure Pruned (index height : Nat) (before after : Ptr α) (flags : Tag → Bool)
    (freed : List (Node (Ptr α))) : Prop where
  valid : Valid height after
  items : ∀ other, get other height after =
    if Same 6 height other index then none else get other height before
  flags : ∀ tag, flags tag = hasTag after tag
  fewer : ∀ tag, hasTag after tag = true → hasTag before tag = true
  clean : Clean freed

section Parent

variable {index height : Nat} {node : Node (Ptr α)} {child : Ptr α} {flags : Tag → Bool}
  {freed : List (Node (Ptr α))}

section

variable (valid : Valid (height + 1) (.node node))
  (below : Pruned index height (node.slots (offsetOf index height)) child flags freed) (tag : Tag)

include valid below tag

theorem Pruned.slot_tag :
    (clearTags flags ⟨node, offsetOf index height⟩).node.tags tag (offsetOf index height) =
      hasTag child tag := by
  rw [clearTags_tags, below.flags]
  cases tagged : hasTag child tag with
  | false => simp
  | true =>
    have level : height ≠ 0 := by
      rintro rfl
      rw [hasTag_zero below.valid] at tagged
      cases tagged
    simp only [Bool.true_eq_false, false_and, if_false]
    rw [valid.1.above level, below.fewer tag tagged]

theorem Pruned.parent_flags :
    (flags tag || (clearTags flags ⟨node, offsetOf index height⟩).node.anyTag tag) =
      (clearTags flags ⟨node, offsetOf index height⟩).node.anyTag tag := by
  cases stopped : flags tag with
  | false => rfl
  | true =>
    symm
    apply (anyTag_iff _ tag).mpr
    exact ⟨offsetOf index height, by rw [below.slot_tag valid, ← below.flags, stopped]⟩

end

theorem Pruned.parent_fewer (tag : Tag) (place : Frame α)
    (any : (clearTags flags place).node.anyTag tag = true) : place.node.anyTag tag = true := by
  obtain ⟨offset, bit⟩ := (anyTag_iff _ tag).mp any
  rw [clearTags_tags] at bit
  split at bit
  · cases bit
  · exact (anyTag_iff _ tag).mpr ⟨offset, bit⟩

section

variable (valid : Valid (height + 1) (.node node))
  (below : Pruned index height (node.slots (offsetOf index height)) child flags freed)
  (present : (node.slots (offsetOf index height)).isNull = false) (count : Nat)
  (counted : count + (if child.isNull then 1 else 0) = node.count)

include valid below present count counted

/-- The parent with the new child; `count` is what the way up makes of it. -/
theorem Pruned.replaced :
    Replaced height node
      { (clearTags flags ⟨node, offsetOf index height⟩).node.setSlot
        (offsetOf index height) child with
        count := count } (offsetOf index height) child := by
  refine ⟨rfl, ?_, ?_, ?_, fun _ => below.slot_tag valid⟩
  · change count = filled (update node.slots _ child)
    have total := filled_update node.slots (offsetOf index height) child
    have before := valid.1.count_eq
    rw [present] at total
    cases null : child.isNull with
    | true =>
      simp only [null, if_true, Bool.false_eq_true, if_false] at total counted
      omega
    | false =>
      simp only [null, Bool.false_eq_true, if_false] at total counted
      omega
  · intro tag other ne
    exact (clearTags_tags flags _ tag other).trans (by simp [ne])
  · intro bottom tag set
    have tagged := (below.slot_tag valid tag).symm.trans set
    subst bottom
    rw [hasTag_zero below.valid] at tagged
    cases tagged

theorem Pruned.parent :
    Pruned index (height + 1) (.node node)
      (.node { (clearTags flags ⟨node, offsetOf index height⟩).node.setSlot
        (offsetOf index height) child with count := count })
      (fun tag => flags tag || (clearTags flags ⟨node, offsetOf index height⟩).node.anyTag tag)
      freed := by
  have replaced := below.replaced valid present count counted
  refine ⟨replaced.valid valid below.valid, replaced.get_of_child below.items, ?_, ?_, below.clean⟩
  · exact below.parent_flags valid
  · exact fun tag any => Pruned.parent_fewer tag ⟨node, offsetOf index height⟩ any

end

end Parent

theorem Pruned.freed_top {before : Ptr α} {flags : Tag → Bool} {freed : List (Node (Ptr α))}
    (pruned : Pruned index (height + 1) before (.node node) flags freed) (empty : node.count = 0) :
    Pruned index (height + 1) before .null flags (freed ++ [node]) := by
  have zero := eq_zero_of_count pruned.valid empty
  subst zero
  have bare : ∀ tag, hasTag (.node (.zero : Node (Ptr α))) tag = false := by
    intro tag
    simp [hasTag, Node.anyTag, Node.zero]
  refine ⟨trivial, ?_, ?_, ?_, ?_⟩
  · intro other
    rw [← pruned.items]
    exact (get_null other height).symm
  · intro tag
    rw [pruned.flags, bare]
    rfl
  · intro tag tagged
    cases tagged
  · exact forall_mem_append.mpr ⟨pruned.clean, forall_mem_singleton.mpr rfl⟩

/-- The walk down to a present item and both ways up of `radix_tree_delete`
through this subtree. -/
theorem pruneUp_pruned (index height : Nat) (slot : Ptr α) (value : α) (valid : Valid height slot)
    (present : get index height slot = some value) :
    ∃ (frames cleared : List (Frame α)) (flags : Tag → Bool) (after : Ptr α)
      (freed : List (Node (Ptr α))), Pruned index height slot after flags freed ∧
      (∀ path, descend index height slot path = some (some (.item value, frames ++ path))) ∧
      (∀ path, clearTagsUp (fun _ => false) (frames ++ path) = cleared ++ clearTagsUp flags path) ∧
      ∀ path, pruneUp (cleared ++ path) =
        if after.isNull then ((pruneUp path).1, freed ++ (pruneUp path).2)
        else (plug after path, freed) := by
  induction height, slot, valid, present using present_induction with
  | leaf =>
    refine ⟨[], [], fun _ => false, .null, [], ⟨trivial, ?_, fun _ => rfl, ?_, ?_⟩, fun _ => rfl,
      fun _ => rfl, fun _ => rfl⟩
    · intro other
      rw [if_pos (by simp [Same, Nat.mod_one])]
      rfl
    · exact fun _ tagged => tagged
    · exact fun _ member => absurd member (by simp)
  | node height node valid _ nonnull below =>
    obtain ⟨frames, cleared, flags, child, freed, pruned, down, up, prune⟩ := below
    have down' : ∀ path, descend index (height + 1) (.node node) path =
        some (some (.item value, (frames ++ [⟨node, offsetOf index height⟩]) ++ path)) := by
      intro path
      rw [append_assoc]
      exact down _
    have up' : ∀ path, clearTagsUp (fun _ => false)
        ((frames ++ [⟨node, offsetOf index height⟩]) ++ path) =
        (cleared ++ [clearTags flags ⟨node, offsetOf index height⟩]) ++ clearTagsUp (fun tag =>
          flags tag || (clearTags flags ⟨node, offsetOf index height⟩).node.anyTag tag) path := by
      intro path
      rw [append_assoc, singleton_append, up, clearTagsUp_cons, append_assoc,
        singleton_append]
    cases null : child.isNull with
    | false =>
      have parent := pruned.parent valid nonnull node.count (by rw [null]; simp)
      refine ⟨_, _, _, _, freed, parent, down', up', ?_⟩
      intro path
      rw [append_assoc, singleton_append, prune, null]
      simp only [isNull_node, Bool.false_eq_true, if_false]
      rfl
    | true =>
      have empty : child = .null := by
        cases child with
        | null => rfl
        | item value | node inner => cases null
      have some_filled : 0 < filled node.slots := occupied_pos _ (by rw [nonnull]; rfl)
      have few : filled node.slots ≤ 64 := occupied_le _ node.slots
      rw [← valid.1.count_eq] at some_filled few
      have wrapped : (node.count + (2 ^ 32 - 1)) % 2 ^ 32 = node.count - 1 := by omega
      have parent := pruned.parent valid nonnull (node.count - 1) (by rw [null]; simp; omega)
      subst empty
      have prune' : ∀ path, pruneUp ((cleared ++ [clearTags flags ⟨node, offsetOf index height⟩]) ++
          path) = ((pruneUp (clearTags flags ⟨node, offsetOf index height⟩ :: path)).1,
            freed ++ (pruneUp (clearTags flags ⟨node, offsetOf index height⟩ :: path)).2) := by
        intro path
        rw [append_assoc, singleton_append, prune]
        rfl
      have turn : ∀ path, pruneUp (clearTags flags ⟨node, offsetOf index height⟩ :: path) =
          if node.count - 1 = 0 then
            ((pruneUp path).1, { (clearTags flags ⟨node, offsetOf index height⟩).node.setSlot
              (offsetOf index height) .null with count := node.count - 1 } :: (pruneUp path).2)
          else (plug (.node { (clearTags flags ⟨node, offsetOf index height⟩).node.setSlot
            (offsetOf index height) .null with count := node.count - 1 }) path, []) := by
        intro path
        have counted : (clearTags flags ⟨node, offsetOf index height⟩).node.count = node.count :=
          rfl
        rw [pruneUp]
        simp only [counted, wrapped]
        rfl
      by_cases last : node.count - 1 = 0
      · refine ⟨_, _, _, _, _, parent.freed_top last, down', up', ?_⟩
        intro path
        rw [prune', turn, if_pos last, append_assoc]
        rfl
      · refine ⟨_, _, _, _, freed, parent, down', up', ?_⟩
        intro path
        rw [prune', turn, if_neg last, append_nil]
        rfl

end Delete

end MagxKernel.RadixTree
