import MagxKernel.RadixTree.Operations

namespace MagxKernel.RadixTree

open Runs RadixSlots

variable {α : Type}

/-- The tag bit of an index in the node at the bottom. -/
def carries (tag : Tag) (index : Nat) : Nat → Ptr α → Bool
  | 1, .node node => node.tags tag (offsetOf index 0)
  | height + 2, .node node =>
      carries tag index (height + 1) (node.slots (offsetOf index (height + 1)))
  | _, _ => false

/-- The nodes of a tree, each with the number of levels below it. -/
inductive Within : Nat → Ptr α → Nat → Node (Ptr α) → Prop
  | top {height : Nat} {node : Node (Ptr α)} : Within (height + 1) (.node node) height node
  | under {height level : Nat} {node inner : Node (Ptr α)} {offset : Offset}
      (inside : Within height (node.slots offset) level inner) :
      Within (height + 1) (.node node) level inner

theorem Within.valid {height level : Nat} {slot : Ptr α} {node : Node (Ptr α)}
    (inside : Within height slot level node) (valid : Valid height slot) :
    Valid (level + 1) (.node node) := by
  induction inside with
  | top => exact valid
  | under _ ih => exact ih (valid.2 _)

section Digits

theorem get_same_index {height left right : Nat} {slot : Ptr α} (same : Same 6 height left right) :
    get left height slot = get right height slot := by
  induction height generalizing slot with
  | zero => cases slot <;> rfl
  | succ height ih =>
    obtain ⟨digit, rest⟩ := (same_succ_offset height left right).mp same
    cases slot with
    | null | item value => rfl
    | node node =>
      change get left height (node.slots (offsetOf left height)) =
        get right height (node.slots (offsetOf right height))
      rw [digit]
      exact ih rest

theorem carries_same_index {tag : Tag} {height left right : Nat} {slot : Ptr α}
    (same : Same 6 height left right) :
    carries tag left height slot = carries tag right height slot := by
  induction height generalizing slot with
  | zero => cases slot <;> rfl
  | succ height ih =>
    obtain ⟨digit, rest⟩ := (same_succ_offset height left right).mp same
    cases slot with
    | null | item value => simp only [carries]
    | node node =>
      cases height with
      | zero =>
        change node.tags tag (offsetOf left 0) = node.tags tag (offsetOf right 0)
        rw [digit]
      | succ height =>
        change carries tag left (height + 1) (node.slots (offsetOf left (height + 1))) =
          carries tag right (height + 1) (node.slots (offsetOf right (height + 1)))
        rw [digit]
        exact ih rest

theorem exists_index_offset (height index : Nat) (offset : Offset) :
    ∃ whole, offsetOf whole height = offset ∧ Same 6 height whole index := by
  obtain ⟨whole, top, same⟩ := exists_index 6 height index offset.val offset.isLt
  exact ⟨whole, Fin.ext ((offsetOf_val whole height).trans top), same⟩

end Digits

section Aggregate

/-- A present item that carries the tag. -/
def TaggedItem (tag : Tag) (index height : Nat) (slot : Ptr α) : Prop :=
  get index height slot ≠ none ∧ carries tag index height slot = true

variable {tag : Tag} {height : Nat} {slot : Ptr α}

theorem taggedItem_succ {index : Nat} {node : Node (Ptr α)} (level : height ≠ 0) :
    TaggedItem tag index (height + 1) (.node node) ↔
      TaggedItem tag index height (node.slots (offsetOf index height)) := by
  cases height with
  | zero => exact absurd rfl level
  | succ height => exact Iff.rfl

theorem hasTag_of_taggedItem {index : Nat} (valid : Valid height slot)
    (tagged : TaggedItem tag index height slot) :
    hasTag slot tag = true := by
  induction height generalizing slot with
  | zero =>
    have bit := tagged.2
    cases slot <;> cases bit
  | succ height ih =>
    cases slot with
    | null | item value => exact absurd tagged.2 (by simp [carries])
    | node node =>
      apply (anyTag_iff node tag).mpr
      by_cases level : height = 0
      · subst level
        exact ⟨offsetOf index 0, tagged.2⟩
      · refine ⟨offsetOf index height, ?_⟩
        rw [valid.1.above level]
        exact ih (valid.2 _) ((taggedItem_succ level).mp tagged)

theorem taggedItem_of_hasTag (valid : Valid height slot) (has : hasTag slot tag = true) :
    ∃ index, TaggedItem tag index height slot := by
  induction height generalizing slot with
  | zero =>
    rw [hasTag_zero valid] at has
    cases has
  | succ height ih =>
    cases slot with
    | null | item value => cases has
    | node node =>
      obtain ⟨offset, bit⟩ := (anyTag_iff node tag).mp has
      by_cases level : height = 0
      · subst level
        obtain ⟨index, digit, _⟩ := exists_index_offset 0 0 offset
        have present := valid.1.bottom rfl tag offset bit
        refine ⟨index, ?_, ?_⟩
        · change get index 0 (node.slots (offsetOf index 0)) ≠ none
          have leaf := valid.2 offset
          rw [digit]
          cases child : node.slots offset with
          | null =>
            rw [child] at present
            cases present
          | item value => simp [get]
          | node inner =>
            rw [child] at leaf
            exact absurd leaf (by simp [Valid])
        · change node.tags tag (offsetOf index 0) = true
          rw [digit]
          exact bit
      · rw [valid.1.above level] at bit
        obtain ⟨low, item, carried⟩ := ih (valid.2 offset) bit
        obtain ⟨index, digit, same⟩ := exists_index_offset height low offset
        refine ⟨index, (taggedItem_succ level).mpr ?_⟩
        rw [digit]
        exact ⟨by rwa [get_same_index same], by rwa [carries_same_index same]⟩

theorem hasTag_iff (valid : Valid height slot) :
    hasTag slot tag = true ↔ ∃ index, TaggedItem tag index height slot :=
  ⟨taggedItem_of_hasTag valid, fun ⟨_, tagged⟩ => hasTag_of_taggedItem valid tagged⟩

/-- A tagged item of the tree has an index that fits a word. -/
theorem RootOk.tagged_word {root : Root α} (ok : RootOk root) (tag : Tag) :
    (∃ index, TaggedItem tag index root.height root.rnode) ↔
      ∃ index : UInt32, contents root index ≠ none ∧
        carries tag index.toNat root.height root.rnode = true := by
  constructor
  · rintro ⟨index, item, carried⟩
    have held : index % 2 ^ (6 * root.height) ≤ maxindexOf root.height := by
      by_contra beyond
      exact item (ok.bounded index (by omega))
    have word : index % 2 ^ (6 * root.height) < 2 ^ 32 :=
      Nat.lt_of_le_of_lt held (maxindexOf_lt_word _ ok.height_lt)
    have same : Same 6 root.height (index % 2 ^ (6 * root.height)) index := Nat.mod_mod _ _
    refine ⟨UInt32.ofNat (index % 2 ^ (6 * root.height)), ?_, ?_⟩
    · unfold contents
      rw [UInt32.toNat_ofNat_of_lt' word, if_pos held, get_same_index same]
      exact item
    · rw [UInt32.toNat_ofNat_of_lt' word, carries_same_index same]
      exact carried
  · rintro ⟨index, item, carried⟩
    refine ⟨index.toNat, ?_, carried⟩
    intro absent
    unfold contents at item
    split at item
    · exact item absent
    · exact item rfl

theorem RootOk.tagged_eq {root : Root α} (ok : RootOk root) (tag : Tag) :
    radixTreeTagged root tag = some (hasTag root.rnode tag) := by
  unfold radixTreeTagged
  cases node : root.rnode with
  | null | node top => rfl
  | item value =>
    have valid := ok.valid
    have flat := ok.empty
    cases level : root.height with
    | zero =>
      rw [flat level] at node
      cases node
    | succ height =>
      rw [level, node] at valid
      exact absurd valid (by simp [Valid])

end Aggregate

/-- What the tags and the nodes handed back say about a tree: a tag bit above
the bottom is set exactly for the subtrees with a tagged item, one at the bottom
only for an item, and the tag of the whole tree tells whether there is a tagged
item. -/
structure TagsExact (state : State α) : Prop where
  interior : ∀ level node, Within state.root.height state.root.rnode level node → level ≠ 0 →
    ∀ tag offset, node.tags tag offset = true ↔
      ∃ index, TaggedItem tag index level (node.slots offset)
  leaf : ∀ node, Within state.root.height state.root.rnode 0 node →
    ∀ tag offset, node.tags tag offset = true → (node.slots offset).isNull = false
  tagged : ∀ tag, ∃ answer, radixTreeTagged state.root tag = some answer ∧
    (answer = true ↔ ∃ index : UInt32, contents state.root index ≠ none ∧
      carries tag index.toNat state.root.height state.root.rnode = true)
  cache : ∀ node ∈ state.cache, (∀ offset, node.slots offset = .null) ∧
    ∀ tag offset, node.tags tag offset = false

/-- Along every run, failed allocations included. -/
theorem radixTree_tags_exact (ops : List (Op α)) (final : State α)
    (allowed : Along step Allowed emptyTree ops) (executed : run step emptyTree ops = some final) :
    TagsExact final := by
  have ok : StateOk final := run_invariant
    (fun _ _ _ => step_ok) ops emptyTree final
    emptyTree_ok allowed executed
  refine ⟨?_, ?_, ?_, ?_⟩
  · intro level node inside above tag offset
    have valid := inside.valid ok.root.valid
    rw [valid.1.above above]
    exact hasTag_iff (valid.2 offset)
  · intro node inside
    have valid := inside.valid ok.root.valid
    exact valid.1.bottom rfl
  · intro tag
    refine ⟨_, ok.root.tagged_eq tag, ?_⟩
    rw [hasTag_iff ok.root.valid, ok.root.tagged_word]
  · intro node member
    rw [ok.clean node member]
    exact ⟨fun _ => rfl, fun _ _ => rfl⟩

theorem radixTree_tags_exact_tagAndDelete :
    ∃ final, run step (emptyTree : State Nat)
        [.insert 0 7 9, .insert 4096 8 9, .tagSet 4096 1, .tagSet 0 0, .delete 4096] = some final ∧
      TagsExact final := by
  refine (Option.isSome_iff_exists.mp ?_).imp fun final executed =>
    ⟨executed, radixTree_tags_exact _ final ?_ executed⟩
  · decide +kernel
  · refine ⟨trivial, ?_⟩
    rintro _ ⟨⟩
    refine ⟨trivial, ?_⟩
    rintro _ ⟨⟩
    refine ⟨by decide, ?_⟩
    rintro _ ⟨⟩
    refine ⟨by decide, ?_⟩
    rintro _ ⟨⟩
    exact ⟨trivial, fun _ _ => trivial⟩

end MagxKernel.RadixTree
