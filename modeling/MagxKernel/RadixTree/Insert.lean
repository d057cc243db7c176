import MagxKernel.RadixTree.Invariant

namespace MagxKernel.RadixTree

open RadixSlots

variable {α : Type}

/-- Every node in the cache is as its constructor left it. -/
def Clean (cache : List (Node (Ptr α))) : Prop := ∀ node ∈ cache, node = .zero

variable {node : Node (Ptr α)} {height : Nat}

theorem nodeAlloc_clean {cache cache' : List (Node (Ptr α))} {budget budget' : Nat}
    (clean : Clean cache) (allocated : nodeAlloc cache budget = some (node, cache', budget')) :
    node = .zero ∧ Clean cache' := by
  unfold nodeAlloc at allocated
  split at allocated
  · cases allocated
  · cases allocated
    exact ⟨rfl, clean⟩
  · cases allocated
    exact ⟨clean _ (by simp), (List.forall_mem_cons.mp clean).2⟩

/-- What an insertion below a slot does to the items: it fills a free index,
finds a present one, or runs out of memory. -/
inductive InsertResult (index : Nat) (item : α) (height : Nat) (before after : Ptr α) : Int → Prop
  | done (free : get index height before = none)
      (items : ∀ other, get other height after =
        if Same 6 height other index then some item else get other height before) :
      InsertResult index item height before after 0
  | exists_ (present : get index height before ≠ none)
      (items : ∀ other, get other height after = get other height before) :
      InsertResult index item height before after (-eexist)
  | nomem (free : get index height before = none)
      (items : ∀ other, get other height after = get other height before) :
      InsertResult index item height before after (-enomem)

structure Inserted (index : Nat) (item : α) (height : Nat) (slot : Ptr α) (outcome : Outcome α) :
    Prop where
  valid : Valid height outcome.ptr
  clean : Clean outcome.cache
  tags : ∀ tag, hasTag outcome.ptr tag = hasTag slot tag
  kept : slot.isNull = false → outcome.ptr.isNull = false
  result : InsertResult index item height slot outcome.ptr outcome.error

theorem fillSlot_eq {offset : Offset} {outcome : Outcome α} (ok : NodeOk height node) :
    fillSlot node offset (height == 0) outcome =
      some { outcome with ptr := .node (filledNode node offset outcome.ptr) } := by
  have unset : ((node.slots offset).isNull && !outcome.ptr.isNull && (height == 0) &&
      (node.tags 0 offset || node.tags 1 offset)) = false := by
    by_contra trips
    simp only [Bool.not_eq_false, Bool.and_eq_true, Bool.or_eq_true, beq_iff_eq] at trips
    obtain ⟨⟨⟨null, _⟩, bottom⟩, set⟩ := trips
    rcases set with set | set
    · rw [ok.bottom bottom 0 offset set] at null
      cases null
    · rw [ok.bottom bottom 1 offset set] at null
      cases null
  unfold fillSlot
  rw [if_neg (by rw [unset]; decide)]

theorem filledNode_replaced {offset : Offset} {child : Ptr α} (ok : NodeOk height node)
    (kept : (node.slots offset).isNull = false → child.isNull = false)
    (tags : ∀ tag, hasTag child tag = hasTag (node.slots offset) tag) :
    Replaced height node (filledNode node offset child) offset child := by
  have unchanged : (filledNode node offset child).tags = node.tags := by
    unfold filledNode
    split <;> rfl
  have slots : (filledNode node offset child).slots = Function.update node.slots offset child := by
    unfold filledNode
    split <;> rfl
  refine ⟨slots, ?_, ?_, ?_, ?_⟩
  · have total := filled_update node.slots offset child
    have count := ok.count_eq
    rw [slots]
    unfold filledNode
    cases old : (node.slots offset).isNull <;> cases new : child.isNull
    · simp only [old, new, Bool.false_eq_true, if_false, Bool.false_and] at total ⊢
      change node.count = _
      omega
    · rw [kept old] at new
      cases new
    · simp only [old, new, Bool.false_eq_true, if_false, if_true, Bool.not_false,
        Bool.and_self] at total ⊢
      change node.count + 1 = _
      omega
    · simp only [old, new, if_true, Bool.not_true, Bool.and_false, Bool.false_eq_true,
        if_false] at total ⊢
      change node.count = _
      omega
  · intro tag other _
    rw [unchanged]
  · intro bottom tag set
    rw [unchanged] at set
    exact kept (ok.bottom bottom tag offset set)
  · intro level tag
    rw [unchanged, ok.above level tag offset, tags]

theorem Inserted.parent {index : Nat} {item : α} {outcome : Outcome α}
    (valid : Valid (height + 1) (.node node))
    (below : Inserted index item height (node.slots (offsetOf index height)) outcome) :
    Inserted index item (height + 1) (.node node)
      { outcome with ptr := .node (filledNode node (offsetOf index height) outcome.ptr) } := by
  have replaced := filledNode_replaced valid.1 below.kept below.tags
  refine ⟨replaced.valid valid below.valid, below.clean, ?_, fun _ => rfl, ?_⟩
  · intro tag
    change Node.anyTag _ tag = node.anyTag tag
    unfold Node.anyTag filledNode
    split
    · rfl
    · rfl
  · have result := below.result
    generalize outcome.error = error at result
    cases result with
    | done free items => exact .done free (replaced.get_of_child items)
    | exists_ present items => exact .exists_ present (replaced.get_same items)
    | nomem free items => exact .nomem free (replaced.get_same items)

theorem insertSlot_inserted (index : Nat) (item : α) (height : Nat) (cache : List (Node (Ptr α)))
    (budget : Nat) (slot : Ptr α) (valid : Valid height slot) (clean : Clean cache) :
    ∃ outcome, insertSlot index item height cache budget slot = some outcome ∧
      Inserted index item height slot outcome := by
  induction height generalizing cache budget slot with
  | zero =>
    cases slot with
    | null =>
      refine ⟨_, rfl, trivial, clean, fun _ => rfl, fun _ => rfl, .done rfl ?_⟩
      intro other
      rw [if_pos (by simp [Same, Nat.mod_one])]
      rfl
    | item value =>
      exact ⟨_, rfl, trivial, clean, fun _ => rfl, fun _ => rfl, .exists_ (by simp [get]) fun _ =>
        rfl⟩
    | node node => exact absurd valid (by simp [Valid])
  | succ height ih =>
    -- the turn of the loop inside one node
    have turn : ∀ (node : Node (Ptr α)) (cache : List (Node (Ptr α))) (budget : Nat),
        Valid (height + 1) (.node node) → Clean cache →
        ∃ outcome, (insertSlot index item height cache budget
            (node.slots (offsetOf index height))).bind
              (fillSlot node (offsetOf index height) (height == 0)) = some outcome ∧
          Inserted index item (height + 1) (.node node) outcome := by
      intro node cache budget valid clean
      obtain ⟨outcome, ran, inserted⟩ := ih cache budget _ (valid.2 _) clean
      refine ⟨_, ?_, inserted.parent valid⟩
      rw [ran, Option.bind_some, fillSlot_eq valid.1]
    cases slot with
    | item value => exact absurd valid (by simp [Valid])
    | node node => exact turn node cache budget valid clean
    | null =>
      cases allocated : nodeAlloc cache budget with
      | none =>
        refine ⟨⟨-enomem, .null, cache, budget⟩, ?_, trivial, clean, fun _ => rfl, ?_, ?_⟩
        · rw [insertSlot]
          simp only [allocated]
        · exact fun filled => by cases filled
        · exact .nomem rfl fun _ => rfl
      | some result =>
        obtain ⟨node, cache', budget'⟩ := result
        obtain ⟨rfl, clean'⟩ := nodeAlloc_clean clean allocated
        obtain ⟨outcome, ran, inserted⟩ := turn .zero cache' budget' (valid_zero height) clean'
        refine ⟨outcome, ?_, inserted.valid, inserted.clean, ?_, ?_, ?_⟩
        · rw [insertSlot]
          simp only [allocated]
          exact ran
        · intro tag
          rw [inserted.tags tag]
          simp [hasTag, Node.anyTag, Node.zero]
        · exact fun filled => by cases filled
        · have empty : ∀ other, get other (height + 1) (.node (.zero : Node (Ptr α))) =
              get other (height + 1) .null := by
            intro other
            exact get_null other height
          have result := inserted.result
          generalize outcome.error = error at result
          cases result with
          | done free items =>
            refine .done rfl fun other => ?_
            rw [items, empty]
          | exists_ present items => exact absurd (empty index) present
          | nomem free items =>
            refine .nomem rfl fun other => ?_
            rw [items, empty]

end MagxKernel.RadixTree
