import MagxKernel.Idr.Alloc

namespace MagxKernel.Idr

open RadixSlots Function List

variable {α : Type}

/-- The way up goes on with a cleared entry. -/
def emptied : List (Frame α) → Ptr α × List (Layer (Ptr α))
  | [] => (.null, [])
  | frame :: path => dropUp path (frame.layer.setSlot frame.slot .null)

theorem dropUp_eq (path : List (Frame α)) (p : Layer (Ptr α)) :
    dropUp path p = if (p.addCount (-1)).count = 0 then
        ((emptied path).1, p.addCount (-1) :: (emptied path).2)
      else (plug (.layer (p.addCount (-1))) path, []) := by
  cases path <;> rfl

/-- One id has been removed from a subtree. -/
structure Removed (id level : Nat) (p : Layer (Ptr α)) (after : Ptr α) : Prop where
  valid : Valid level after
  entries : ∀ other, entry other level after =
    if Same 5 (level + 1) other id then none else entry other level (.layer p)

/-- What the two ways of `sub_remove` do with the part of the path inside a
subtree: it is gone, or it is linked back with one id less. -/
def Drops (leaf : Layer (Ptr α)) (frames : List (Frame α)) (after : Ptr α)
    (freed : List (Layer (Ptr α))) : Prop :=
  ∀ path, dropUp (frames ++ path) leaf =
    if after.isNull then ((emptied path).1, freed ++ (emptied path).2) else (plug after path, freed)

/-- The layer with the bit of an entry cleared and another child there. -/
def Layer.clearTo (p : Layer (Ptr α)) (slot : Slot) (child : Ptr α) : Layer (Ptr α) :=
  (p.setBit slot false).setSlot slot child

section Leaf

variable {p : Layer (Ptr α)} {id : Nat}

theorem removed_leaf (valid : Valid 0 (.layer p)) (set : p.bitmap (slotOf id 0) = true) :
    Removed id 0 p (.layer ((p.clearTo (slotOf id 0) .null).addCount (-1))) := by
  obtain ⟨ok, entries⟩ := @put_leaf _ .null p id false (-1) nofun valid (fun _ => rfl)
    (by rw [set]; rfl)
  exact ⟨ok, entries⟩

end Leaf

section Parent

variable {p : Layer (Ptr α)} {c : Layer (Ptr α)} {id level : Nat} {after : Ptr α}

theorem Removed.notFull (removed : Removed id level c after) : after.isFull = false := by
  cases full : after.isFull with
  | false => rfl
  | true =>
    have taken := (isFull_entry removed.valid).mp full id
    rw [removed.entries] at taken
    exact absurd (if_pos rfl) taken

/-- The parent with the changed or cleared entry; `change` is what its count
loses. -/
theorem Removed.parent {change : Int} (valid : Valid (level + 1) (.layer p))
    (child : p.ary (slotOf id (level + 1)) = .layer c) (removed : Removed id level c after)
    (counted : change = if after.isNull then -1 else 0) :
    Removed id (level + 1) p (.layer
      ((p.clearTo (slotOf id (level + 1)) after).addCount change)) := by
  have replaced : Replaced p ((p.clearTo (slotOf id (level + 1)) after).addCount change)
      (slotOf id (level + 1)) after := by
    refine ⟨rfl, ?_, ?_, ?_⟩
    · rw [child, counted]
      cases after.isNull <;> exact Int.add_assoc _ _ _
    · intro other ne
      exact update_of_ne ne _ p.bitmap
    · rw [removed.notFull]
      exact update_self _ false p.bitmap
  refine ⟨replaced.valid valid removed.valid, ?_⟩
  apply replaced.entry_of_child
  rw [child]
  exact removed.entries

theorem Removed.gone {q : Layer (Ptr α)} (removed : Removed id level p (.layer q))
    (empty : q.count = 0) : Removed id level p .null ∧ Blank q := by
  have bare := empty_of_count removed.valid empty
  refine ⟨⟨valid_null level, ?_⟩, bare.blank⟩
  intro other
  rw [← removed.entries, bare.entry, entry_null]

end Parent

theorem dropUp_settles {id level : Nat} {p q leaf : Layer (Ptr α)} {frames : List (Frame α)}
    {freed : List (Layer (Ptr α))} (removed : Removed id level p (.layer (q.addCount (-1))))
    (blank : ∀ layer ∈ freed, Blank layer)
    (drops : ∀ path, dropUp (frames ++ path) leaf =
      ((dropUp path q).1, freed ++ (dropUp path q).2)) :
    ∃ after freed', Removed id level p after ∧ (∀ layer ∈ freed', Blank layer) ∧
      Drops leaf frames after freed' := by
  by_cases last : (q.addCount (-1)).count = 0
  · obtain ⟨gone, bare⟩ := removed.gone last
    refine ⟨.null, freed ++ [q.addCount (-1)], gone, ?_, ?_⟩
    · exact forall_mem_append.mpr ⟨blank, forall_mem_singleton.mpr bare⟩
    · intro path
      rw [drops, dropUp_eq, if_pos last, append_assoc]
      rfl
  · refine ⟨_, freed, removed, blank, ?_⟩
    intro path
    rw [drops, dropUp_eq, if_neg last, append_nil]
    rfl

/-- Both ways of `sub_remove` through the subtree of an allocated id. -/
theorem subRemove_removed (id level : Nat) (p : Layer (Ptr α)) (valid : Valid level (.layer p))
    (taken : entry id level (.layer p) ≠ none) :
    ∃ leaf frames after freed,
      (∀ path, removeWalk id level (.layer p) path = some (.layer leaf, frames ++ path)) ∧
      leaf.bitmap (slotOf id 0) = true ∧ Removed id level p after ∧
      (∀ layer ∈ freed, Blank layer) ∧
      Drops (leaf.clearTo (slotOf id 0) .null) frames after freed := by
  induction level generalizing p with
  | zero =>
    have set : p.bitmap (slotOf id 0) = true := by
      by_contra clear
      exact taken (by simp [entry, clear])
    obtain ⟨after, freed, removed, blank, drops⟩ := @dropUp_settles _ id 0 p
      (p.clearTo (slotOf id 0) .null) _ [] [] (removed_leaf valid set) (by simp) (fun _ => rfl)
    exact ⟨p, [], after, freed, fun _ => rfl, set, removed, blank, drops⟩
  | succ level ih =>
    have below : entry id level (p.ary (slotOf id (level + 1))) ≠ none := taken
    cases child : p.ary (slotOf id (level + 1)) with
    | null =>
      rw [child, entry_null] at below
      exact absurd rfl below
    | user value => exact absurd child valid.ne_user
    | layer c =>
      have validChild := valid.child child
      rw [child] at below
      obtain ⟨leaf, frames, after, freed, walk, set, removed, blank, drops⟩ := ih c validChild below
      have walk' : ∀ path, removeWalk id (level + 1) (.layer p) path = some (.layer leaf,
          (frames ++ [⟨p.setBit (slotOf id (level + 1)) false, slotOf id (level + 1)⟩]) ++
            path) := by
        intro path
        rw [removeWalk, child, walk, append_assoc]
        rfl
      cases after with
      | null =>
        have parent := @Removed.parent _ p c id level .null (-1) valid child removed rfl
        obtain ⟨after', freed', removed', blank', drops'⟩ := @dropUp_settles _ id (level + 1) p
          (p.clearTo (slotOf id (level + 1)) .null) (leaf.clearTo (slotOf id 0) .null)
          (frames ++ [⟨p.setBit (slotOf id (level + 1)) false, slotOf id (level + 1)⟩]) freed parent
          blank (fun path => by
            rw [append_assoc, drops]
            rfl)
        exact ⟨leaf, _, after', freed', walk', set, removed', blank', drops'⟩
      | user value => exact absurd removed.valid (by simp [Valid])
      | layer c' =>
        have parent := @Removed.parent _ p c id level (.layer c') 0 valid child removed rfl
        refine ⟨leaf, _, _, freed, walk', set, parent, blank, ?_⟩
        intro path
        rw [append_assoc, drops]
        have same : (p.clearTo (slotOf id (level + 1)) (.layer c')).addCount 0 =
            p.clearTo (slotOf id (level + 1)) (.layer c') := by
          unfold Layer.addCount
          rw [Int.add_zero]
        rw [same]
        rfl

/-- On the way to an id that is not allocated no bit is set, so clearing them changes nothing. -/
theorem removeWalk_absent (id level : Nat) (ptr : Ptr α) (path : List (Frame α))
    (valid : Valid level ptr) (free : entry id level ptr = none) :
    ∃ found frames, removeWalk id level ptr path = some (found, frames) ∧
      plug found frames = plug ptr path ∧
      (found = .null ∨ ∃ leaf, found = .layer leaf ∧ leaf.bitmap (slotOf id 0) = false) := by
  induction level generalizing ptr path with
  | zero =>
    cases ptr with
    | null => exact ⟨_, _, rfl, rfl, .inl rfl⟩
    | user value => exact absurd valid (by simp [Valid])
    | layer p =>
      refine ⟨_, _, rfl, rfl, .inr ⟨p, rfl, ?_⟩⟩
      simpa [entry] using free
  | succ level ih =>
    cases ptr with
    | null => exact ⟨_, _, rfl, rfl, .inl rfl⟩
    | user value => exact absurd valid (by simp [Valid])
    | layer p =>
      have clear : p.bitmap (slotOf id (level + 1)) = false := by
        rw [valid.1.full_eq, ← Bool.not_eq_true, isFull_entry (valid.2 _)]
        exact fun taken => taken id free
      have same : p.setBit (slotOf id (level + 1)) false = p := by
        rw [Layer.setBit, ← clear, update_eq_self]
      obtain ⟨found, frames, walk, plugged, missing⟩ :=
        ih _ (⟨p, slotOf id (level + 1)⟩ :: path) (valid.2 _) free
      refine ⟨found, frames, ?_, ?_, missing⟩
      · rw [removeWalk, same]
        exact walk
      · rw [plugged, plug, Layer.setSlot, update_eq_self]

end MagxKernel.Idr
