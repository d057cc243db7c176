import MagxKernel.Lib.RadixSlots
import MagxKernel.Idr.Layers

namespace MagxKernel.Idr

open RadixSlots Function

variable {α : Type}

section Slots

theorem slotOf_val (id level : Nat) : (slotOf id level).val = digit 5 id level :=
  shiftRight_and_mask 5 id level

theorem same_succ_slot (height left right : Nat) :
    Same 5 (height + 1) left right ↔
      slotOf left height = slotOf right height ∧ Same 5 height left right := by
  rw [same_succ, Fin.ext_iff, slotOf_val, slotOf_val]

theorem exists_index_slot (height id : Nat) (slot : Slot) :
    ∃ whole, slotOf whole height = slot ∧ Same 5 height whole id := by
  obtain ⟨whole, top, same⟩ := exists_index 5 height id slot.val slot.isLt
  exact ⟨whole, Fin.ext ((slotOf_val whole height).trans top), same⟩

variable {bits : Slot → Bool}

theorem findNextBit_none {start : Slot} :
    findNextBit (fun slot => !bits slot) start = none ↔ ∀ slot, start ≤ slot →
      bits slot = true := by
  unfold findNextBit
  simp

theorem findNextBit_some {start slot : Slot}
    (found : findNextBit (fun slot => !bits slot) start = some slot) :
    start ≤ slot ∧ bits slot = false := by
  have holds := List.find?_some found
  simpa using holds

theorem findNextBit_of_clear {start slot : Slot} (le : start ≤ slot) (clear : bits slot = false) :
    ∃ m, findNextBit (fun slot => !bits slot) start = some m := by
  cases found : findNextBit (fun slot => !bits slot) start with
  | some m => exact ⟨m, rfl⟩
  | none =>
    rw [findNextBit_none.mp found slot le] at clear
    cases clear

end Slots

section Layers

def Ptr.isFull : Ptr α → Bool
  | .layer p => p.isFull
  | _ => false

theorem isFull_iff (p : Layer (Ptr α)) : p.isFull = true ↔ ∀ slot, p.bitmap slot = true :=
  decide_eq_true_iff

variable {p : Layer (Ptr α)}

theorem not_isFull {slot : Slot} (clear : p.bitmap slot = false) : p.isFull = false := by
  cases full : p.isFull with
  | false => rfl
  | true =>
    rw [(isFull_iff p).mp full slot] at clear
    cases clear

/-- A layer at the bottom: its bits are the allocated ids. -/
structure LeafOk (p : Layer (Ptr α)) : Prop where
  count_eq : p.count = occupied id p.bitmap
  clear : ∀ slot, p.bitmap slot = false → p.ary slot = .null
  users : ∀ slot below, p.ary slot ≠ .layer below

/-- A layer above: its bits mark the full children. -/
structure InnerOk (p : Layer (Ptr α)) : Prop where
  count_eq : p.count = occupied (fun child => !child.isNull) p.ary
  full_eq : ∀ slot, p.bitmap slot = (p.ary slot).isFull

def Valid : Nat → Ptr α → Prop
  | _, .null => True
  | _, .user _ => False
  | 0, .layer p => LeafOk p
  | level + 1, .layer p => InnerOk p ∧ ∀ slot, Valid level (p.ary slot)

/-- What a subtree holds for an id: none for a free one. -/
def entry (id : Nat) : Nat → Ptr α → Option (Ptr α)
  | 0, .layer p => if p.bitmap (slotOf id 0) then some (p.ary (slotOf id 0)) else none
  | level + 1, .layer p => entry id level (p.ary (slotOf id (level + 1)))
  | _, _ => none

@[simp] theorem valid_null (level : Nat) : Valid level (.null : Ptr α) := by
  cases level <;> trivial

@[simp] theorem entry_null (id level : Nat) : entry id level (.null : Ptr α) = none := by
  cases level <;> rfl

theorem entry_same {level left right : Nat} {ptr : Ptr α} (same : Same 5 (level + 1) left right) :
    entry left level ptr = entry right level ptr := by
  induction level generalizing ptr with
  | zero =>
    cases ptr with
    | null | user value => rfl
    | layer p =>
      obtain ⟨slot, _⟩ := (same_succ_slot 0 left right).mp same
      simp only [entry, slot]
  | succ level ih =>
    obtain ⟨slot, rest⟩ := (same_succ_slot (level + 1) left right).mp same
    cases ptr with
    | null | user value => rfl
    | layer p =>
      change entry left level (p.ary (slotOf left (level + 1))) =
        entry right level (p.ary (slotOf right (level + 1)))
      rw [slot]
      exact ih rest

variable {level : Nat}

theorem Valid.child {p c : Layer (Ptr α)} {slot : Slot} (valid : Valid (level + 1) (.layer p))
    (below : p.ary slot = .layer c) : Valid level (.layer c) :=
  below ▸ valid.2 slot

theorem Valid.ne_user {p : Layer (Ptr α)} {slot : Slot} {value : α}
    (valid : Valid (level + 1) (.layer p)) : p.ary slot ≠ .user value := by
  intro below
  have impossible := valid.2 slot
  rw [below] at impossible
  exact absurd impossible (by simp [Valid])

/-- The bits tell exactly whether a free id is left. -/
theorem isFull_entry {ptr : Ptr α} (valid : Valid level ptr) :
    ptr.isFull = true ↔ ∀ id, entry id level ptr ≠ none := by
  induction level generalizing ptr with
  | zero =>
    cases ptr with
    | null => simp [Ptr.isFull, entry]
    | user value => exact absurd valid (by simp [Valid])
    | layer p =>
      change p.isFull = true ↔ _
      rw [isFull_iff]
      constructor
      · intro all id
        simp [entry, all]
      · intro taken slot
        obtain ⟨id, here, _⟩ := exists_index_slot 0 0 slot
        have held := taken id
        by_contra clear
        exact held (by simp [entry, here, clear])
  | succ level ih =>
    cases ptr with
    | null => simp [Ptr.isFull, entry]
    | user value => exact absurd valid (by simp [Valid])
    | layer p =>
      change p.isFull = true ↔ _
      rw [isFull_iff]
      constructor
      · intro all id
        have full := all (slotOf id (level + 1))
        rw [valid.1.full_eq, ih (valid.2 _)] at full
        exact full id
      · intro taken slot
        rw [valid.1.full_eq, ih (valid.2 slot)]
        intro id
        obtain ⟨whole, here, same⟩ := exists_index_slot (level + 1) id slot
        have held : entry whole level (p.ary (slotOf whole (level + 1))) ≠ none := taken whole
        rwa [here, entry_same same] at held

/-- A layer without a count is empty, and so fits at any level. -/
structure Empty (p : Layer (Ptr α)) : Prop where
  bits : ∀ slot, p.bitmap slot = false
  slots : ∀ slot, p.ary slot = .null
  count : p.count = 0

theorem empty_zero : Empty (Layer.zero : Layer (Ptr α)) := ⟨fun _ => rfl, fun _ => rfl, rfl⟩

theorem isNull_iff (ptr : Ptr α) : ptr.isNull = true ↔ ptr = .null := by
  cases ptr <;> simp [Ptr.isNull]

theorem empty_of_count (valid : Valid level (.layer p)) (none : p.count = 0) : Empty p := by
  cases level with
  | zero =>
    have ok : LeafOk p := valid
    have bits : ∀ slot, p.bitmap slot = false := by
      apply (occupied_eq_zero id).mp
      have count := ok.count_eq
      omega
    exact ⟨bits, fun slot => ok.clear slot (bits slot), none⟩
  | succ level =>
    have slots : ∀ slot, p.ary slot = .null := by
      intro slot
      have count := valid.1.count_eq
      have vacant : occupied (fun child : Ptr α => !child.isNull) p.ary = 0 := by omega
      exact (isNull_iff _).mp (by simpa using (occupied_eq_zero _).mp vacant slot)
    refine ⟨fun slot => ?_, slots, none⟩
    rw [valid.1.full_eq, slots]
    rfl

theorem Empty.valid (empty : Empty p) (level : Nat) : Valid level (.layer p) := by
  cases level with
  | zero =>
    refine ⟨?_, fun slot _ => empty.slots slot, fun slot below => ?_⟩
    · rw [empty.count, (occupied_eq_zero id).mpr empty.bits]
      rfl
    · rw [empty.slots]
      simp
  | succ level =>
    refine ⟨⟨?_, fun slot => ?_⟩, fun slot => ?_⟩
    · rw [empty.count, (occupied_eq_zero _).mpr fun slot => by rw [empty.slots]; rfl]
      rfl
    · rw [empty.bits, empty.slots]
      rfl
    · rw [empty.slots]
      exact valid_null level

theorem Empty.entry (empty : Empty p) (id level : Nat) : entry id level (.layer p) = none := by
  cases level with
  | zero => simp [Idr.entry, empty.bits]
  | succ level =>
    change Idr.entry id level (p.ary _) = none
    rw [empty.slots]
    exact entry_null id level

end Layers

section Inner

/-- A layer above the bottom whose entry `slot` is given another child. -/
structure Replaced (before after : Layer (Ptr α)) (slot : Slot) (child : Ptr α) : Prop where
  ary_eq : after.ary = update before.ary slot child
  count_eq : after.count + (!(before.ary slot).isNull).toNat = before.count + (!child.isNull).toNat
  bits : ∀ other, other ≠ slot → after.bitmap other = before.bitmap other
  bit : after.bitmap slot = child.isFull

variable {before after : Layer (Ptr α)} {slot : Slot} {child : Ptr α} {level : Nat}

section

variable (replaced : Replaced before after slot child)

include replaced

theorem Replaced.ary_self : after.ary slot = child := by
  rw [replaced.ary_eq, update_self]

theorem Replaced.ary_other {other : Slot} (ne : other ≠ slot) :
    after.ary other = before.ary other := by
  rw [replaced.ary_eq, update_of_ne ne]

theorem Replaced.valid (old : Valid (level + 1) (.layer before)) (new : Valid level child) :
    Valid (level + 1) (.layer after) := by
  refine ⟨⟨?_, ?_⟩, ?_⟩
  · have total := occupied_update (fun child : Ptr α => !child.isNull) before.ary slot child
    have count := replaced.count_eq
    have first := old.1.count_eq
    rw [replaced.ary_eq]
    omega
  · intro other
    by_cases same : other = slot
    · subst same
      rw [replaced.bit, replaced.ary_self]
    · rw [replaced.bits other same, replaced.ary_other same, old.1.full_eq]
  · rw [replaced.ary_eq]
    exact (forall_update_iff before.ary fun _ => Valid level).mpr
      ⟨new, fun other _ => old.2 other⟩

theorem Replaced.entry (id : Nat) :
    entry id (level + 1) (.layer after) =
      if slotOf id (level + 1) = slot then entry id level child
      else entry id (level + 1) (.layer before) := by
  change Idr.entry id level (after.ary (slotOf id (level + 1))) = _
  rw [replaced.ary_eq, update_apply, apply_ite (Idr.entry id level)]
  rfl

end

theorem Replaced.entry_of_child {id : Nat} {value : Option (Ptr α)}
    (replaced : Replaced before after (slotOf id (level + 1)) child)
    (below : ∀ other, Idr.entry other level child = if Same 5 (level + 1) other id then value
      else Idr.entry other level (before.ary (slotOf id (level + 1)))) (other : Nat) :
    Idr.entry other (level + 1) (.layer after) = if Same 5 (level + 2) other id then value
      else Idr.entry other (level + 1) (.layer before) := by
  rw [replaced.entry]
  simp only [same_succ_slot (level + 1), Idr.entry]
  by_cases here : slotOf other (level + 1) = slotOf id (level + 1)
  · simp [here, below]
  · simp [here]

theorem Replaced.entry_kept (replaced : Replaced before after slot child)
    (below : ∀ other, Idr.entry other level child = Idr.entry other level (before.ary slot))
    (other : Nat) :
    Idr.entry other (level + 1) (.layer after) = Idr.entry other (level + 1) (.layer before) := by
  rw [replaced.entry]
  split
  · rename_i here
    rw [below, ← here]
    rfl
  · rfl

end Inner

section Pool

/-- A layer as the free list keeps it: entry 0 is the link. -/
structure Blank (p : Layer (Ptr α)) : Prop where
  bits : ∀ slot, p.bitmap slot = false
  slots : ∀ slot, slot ≠ 0 → p.ary slot = .null
  count : p.count = 0

structure PoolOk (pool : Pool α) : Prop where
  counted : pool.idFreeCnt = pool.idFree.length
  blank : ∀ p ∈ pool.idFree, Blank p

theorem Empty.blank {p : Layer (Ptr α)} (empty : Empty p) : Blank p :=
  ⟨empty.bits, fun slot _ => empty.slots slot, empty.count⟩

theorem freeLayer_ok {pool : Pool α} {p : Layer (Ptr α)} (ok : PoolOk pool) (blank : Blank p) :
    PoolOk (freeLayer pool p) := by
  refine ⟨by simp [freeLayer, ok.counted], ?_⟩
  exact List.forall_mem_cons.mpr ⟨blank, ok.blank⟩

theorem allocLayer_ok {pool pool' : Pool α} {new : Layer (Ptr α)} (ok : PoolOk pool)
    (allocated : allocLayer pool = some (new, pool')) : Empty new ∧ PoolOk pool' := by
  unfold allocLayer at allocated
  cases free : pool.idFree with
  | nil =>
    rw [free] at allocated
    cases allocated
  | cons p rest =>
    rw [free] at allocated
    cases allocated
    have blank := ok.blank p (by rw [free]; exact List.mem_cons_self)
    refine ⟨⟨blank.bits, ?_, blank.count⟩, ?_, ?_⟩
    · exact (forall_update_iff p.ary fun _ ptr => ptr = .null).mpr ⟨rfl, blank.slots⟩
    · rw [ok.counted, free]
      rfl
    · intro other member
      exact ok.blank other (by rw [free]; exact List.mem_cons_of_mem _ member)

end Pool

end MagxKernel.Idr
