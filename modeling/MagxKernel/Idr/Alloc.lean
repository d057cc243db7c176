import MagxKernel.Idr.Invariant

namespace MagxKernel.Idr

open RadixSlots Function

variable {α : Type} {m : Slot}

section Spans

/-- The number of ids below an entry at this level. -/
def span (level : Nat) : Nat := 2 ^ (5 * level)

theorem span_pos (level : Nat) : 0 < span level := Nat.two_pow_pos _

theorem span_succ (level : Nat) : span (level + 1) = span level * 32 := power_succ 5 level

variable (id level : Nat)

theorem slotOf_eq : (slotOf id level).val = id / span level % 32 :=
  slotOf_val id level

theorem div_span_succ : id / span (level + 1) = id / span level / 32 := by
  rw [span_succ, Nat.div_div_eq_div_mul]

theorem block_mono {left right low high : Nat} (block : left / span low = right / span low)
    (le : low ≤ high) : left / span high = right / span high := by
  induction high, le using Nat.le_induction with
  | base => exact block
  | succ high _ ih => rw [div_span_succ, div_span_succ, ih]

theorem slotOf_block {left right low level : Nat} (block : left / span low = right / span low)
    (le : low ≤ level) : slotOf left level = slotOf right level := by
  apply Fin.ext
  rw [slotOf_eq, slotOf_eq, block_mono block le]

theorem next_block :
    (id ||| (1 <<< (idrBits * level) - 1)) + 1 = (id / span level + 1) * span level := by
  have ones : 1 <<< (idrBits * level) = span level := Nat.one_shiftLeft _
  have positive := span_pos level
  have below : 2 ^ (5 * level) - 1 < 2 ^ (5 * level) := Nat.sub_lt positive Nat.one_pos
  have quotient : (id ||| (span level - 1)) / span level = id / span level := by
    unfold span
    rw [Nat.or_div_two_pow, Nat.div_eq_of_lt below, Nat.or_zero]
  have remainder : (id ||| (span level - 1)) % span level = span level - 1 := by
    unfold span
    rw [Nat.or_mod_two_pow, Nat.mod_eq_of_lt below]
    apply Nat.eq_of_testBit_eq
    intro bit
    rw [Nat.testBit_or, Nat.testBit_mod_two_pow, Nat.testBit_two_pow_sub_one]
    cases decide (bit < 5 * level) <;> simp
  rw [ones]
  have total := Nat.div_add_mod (id ||| (span level - 1)) (span level)
  rw [quotient, remainder] at total
  rw [Nat.add_mul, Nat.one_mul, Nat.mul_comm (id / span level)]
  omega

theorem take_slot (m : Slot) :
    (id >>> (idrBits * level) ^^^ (slotOf id level).val ^^^ m.val) <<< (idrBits * level) =
      (id / span (level + 1) * 32 + m.val) * span level := by
  rw [Nat.shiftLeft_eq, Nat.shiftRight_eq_div_pow, slotOf_eq, div_span_succ]
  change (id / span level ^^^ id / span level % 32 ^^^ m.val) * span level = _
  generalize id / span level = high
  have small : m.val < 2 ^ 5 := m.isLt
  have quotient : (high ^^^ high % 2 ^ 5 ^^^ m.val) / 2 ^ 5 = high / 2 ^ 5 := by
    rw [Nat.xor_div_two_pow, Nat.xor_div_two_pow, Nat.div_eq_of_lt (Nat.mod_lt _ (by decide)),
      Nat.div_eq_of_lt small, Nat.xor_zero, Nat.xor_zero]
  have remainder : (high ^^^ high % 2 ^ 5 ^^^ m.val) % 2 ^ 5 = m.val := by
    rw [Nat.xor_mod_two_pow, Nat.xor_mod_two_pow, Nat.mod_mod, Nat.xor_self, Nat.zero_xor,
      Nat.mod_eq_of_lt small]
  have total := Nat.div_add_mod (high ^^^ high % 2 ^ 5 ^^^ m.val) (2 ^ 5)
  rw [quotient, remainder] at total
  rw [Nat.mul_comm (high / 32)]
  exact congrArg (· * span level) total.symm

/-- The id after the search of a layer has chosen entry `m`. -/
def chosen (id level : Nat) (m : Slot) : Nat :=
  if m ≠ slotOf id level then (id / span (level + 1) * 32 + m.val) * span level else id

theorem chosen_div (m : Slot) :
    chosen id level m / span level = id / span (level + 1) * 32 + m.val := by
  unfold chosen
  split
  · exact Nat.mul_div_cancel _ (span_pos level)
  · rename_i same
    rw [ne_eq, not_not] at same
    rw [same, slotOf_eq, div_span_succ]
    omega

theorem chosen_block (m : Slot) : chosen id level m / span (level + 1) = id / span (level + 1) := by
  have small : m.val < 32 := m.isLt
  rw [div_span_succ (chosen id level m), chosen_div]
  omega

theorem slotOf_chosen (m : Slot) : slotOf (chosen id level m) level = m := by
  have small : m.val < 32 := m.isLt
  apply Fin.ext
  rw [slotOf_eq, chosen_div]
  omega

theorem le_chosen {id level : Nat} (le : slotOf id level ≤ m) : id ≤ chosen id level m := by
  unfold chosen
  split
  · rename_i different
    have less : id / span level < id / span (level + 1) * 32 + m.val := by
      have ne : (slotOf id level).val ≠ m.val := fun same => different (Fin.ext same.symm)
      have le' : (slotOf id level).val ≤ m.val := le
      rw [slotOf_eq] at ne le'
      rw [div_span_succ]
      omega
    exact Nat.le_of_lt ((Nat.div_lt_iff_lt_mul (span_pos level)).mp less)
  · exact Nat.le_refl id

theorem chosen_mod {id level : Nat} (different : m ≠ slotOf id level) :
    chosen id level m % span level = 0 := by
  rw [chosen, if_pos different]
  exact Nat.mul_mod_left _ _

theorem lt_of_block {id new low high : Nat} (block : new / span low = id / span low)
    (le : low ≤ high) (small : id < span high) : new < span high := by
  have same := block_mono block le
  rwa [Nat.div_eq_of_lt small, Nat.div_eq_zero_iff_lt (span_pos high)] at same

end Spans

section Results

/-- A pointer of a user, never a layer. -/
def IsUser (ptr : Ptr α) : Prop := ∀ below, ptr ≠ .layer below

/-- One free id has been given to the pointer. -/
structure Planted (ptr : Ptr α) (id level : Nat) (p p' : Layer (Ptr α)) : Prop where
  valid : Valid level (.layer p')
  free : entry id level (.layer p) = none
  entries : ∀ other, entry other level (.layer p') =
    if Same 5 (level + 1) other id then some ptr else entry other level (.layer p)

/-- Only layers without ids have been added. -/
structure Kept (level : Nat) (p p' : Layer (Ptr α)) : Prop where
  valid : Valid level (.layer p')
  entries : ∀ other, entry other level (.layer p') = entry other level (.layer p)

/-- The search has ended below the layer `p`, with the path above still to be
linked: an id of the block from `id` on, or no memory. -/
inductive Settled (ptr : Ptr α) (id level : Nat) (p : Layer (Ptr α)) (path : List (Frame α)) :
    Outcome α → Prop
  | done {new : Nat} {p' : Layer (Ptr α)} {pool : Pool α} (planted : Planted ptr new level p p')
      (above : id ≤ new) (block : new / span (level + 1) = id / span (level + 1))
      (ok : PoolOk pool) :
      Settled ptr id level p path ⟨.done new, markFull (new / span level) p' path, pool⟩
  | noMemory {p' : Layer (Ptr α)} {pool : Pool α} (kept : Kept level p p') (ok : PoolOk pool) :
      Settled ptr id level p path ⟨.noMemory, plug (.layer p') path, pool⟩

variable {ptr : Ptr α} {id level : Nat} {p : Layer (Ptr α)} {path : List (Frame α)}
  {outcome : Outcome α}

theorem Kept.isFull_eq {p' : Layer (Ptr α)} (kept : Kept level p p')
    (valid : Valid level (.layer p)) :
    p'.isFull = p.isFull := by
  have left := isFull_entry kept.valid
  have right := isFull_entry valid
  simp only [kept.entries] at left
  exact Bool.eq_iff_iff.mpr (left.trans right.symm)

theorem Settled.weaken {start : Nat} (settled : Settled ptr id level p path outcome)
    (le : start ≤ id)
    (block : id / span (level + 1) = start / span (level + 1)) :
    Settled ptr start level p path outcome := by
  cases settled with
  | done planted above same ok => exact .done planted (le.trans above) (same.trans block) ok
  | noMemory kept ok => exact .noMemory kept ok

theorem Settled.congr {p' : Layer (Ptr α)} (settled : Settled ptr id level p' path outcome)
    (kept : Kept level p p') : Settled ptr id level p path outcome := by
  cases settled with
  | done planted above same ok =>
    refine .done ⟨planted.valid, ?_, ?_⟩ above same ok
    · rw [← kept.entries, planted.free]
    · intro other
      rw [planted.entries, kept.entries]
  | noMemory more ok =>
    refine .noMemory ⟨more.valid, ?_⟩ ok
    intro other
    rw [more.entries, kept.entries]

theorem markFull_of_clear {n : Nat} (clear : p.isFull = false) :
    markFull n p path = plug (.layer p) path := by
  cases path with
  | nil => rfl
  | cons frame path => simp only [markFull, clear, Bool.false_eq_true, if_false]

theorem setBit_same {child : Ptr α} {bit : Bool} (same : p.bitmap m = bit) :
    (p.setSlot m child).setBit m bit = p.setSlot m child := by
  subst same
  exact congrArg (fun bits => { p.setSlot m child with bitmap := bits }) (update_eq_self m p.bitmap)

/-- The parent with the changed child, and the bit that `markFull` gives it. -/
theorem markFull_cons {c : Layer (Ptr α)} {new : Nat} (clear : p.bitmap m = false)
    (here : slotOf new (level + 1) = m) :
    markFull (new / span level) c (⟨p, m⟩ :: path) =
      markFull (new / span (level + 1)) ((p.setSlot m (.layer c)).setBit m c.isFull) path := by
  have shifted : (new / span level) >>> idrBits = new / span (level + 1) := by
    rw [Nat.shiftRight_eq_div_pow, div_span_succ]
    rfl
  have bottom : slotOf (new / span (level + 1)) 0 = m := by
    rw [← here]
    apply Fin.ext
    rw [slotOf_eq, slotOf_eq]
    change new / span (level + 1) / 1 % 32 = _
    rw [Nat.div_one]
  rw [markFull, shifted, bottom]
  cases full : c.isFull with
  | true => simp only [if_true]
  | false =>
    simp only [Bool.false_eq_true, if_false, setBit_same clear]
    have free : (p.setSlot m (.layer c)).isFull = false := not_isFull clear
    rw [markFull_of_clear free]
    rfl

theorem replaced_child {c c' : Layer (Ptr α)} (child : p.ary m = .layer c) :
    Replaced p ((p.setSlot m (.layer c')).setBit m c'.isFull) m (.layer c') := by
  refine ⟨rfl, ?_, ?_, ?_⟩
  · rw [child]
    rfl
  · intro other ne
    exact update_of_ne ne _ p.bitmap
  · exact update_self m c'.isFull p.bitmap

/-- What has been settled below a child is settled in its parent. -/
theorem Settled.lift {c : Layer (Ptr α)} (valid : Valid (level + 1) (.layer p))
    (child : p.ary m = .layer c) (clear : p.bitmap m = false) (here : slotOf id (level + 1) = m)
    (below : Settled ptr id level c (⟨p, m⟩ :: path) outcome) :
    Settled ptr id (level + 1) p path outcome := by
  have validChild := valid.child child
  cases below with
  | @done new c' pool planted above block ok =>
    have here' : slotOf new (level + 1) = m := (slotOf_block block (Nat.le_refl _)).trans here
    have replaced := @replaced_child _ m p c c' child
    rw [markFull_cons clear here']
    refine .done ⟨replaced.valid valid planted.valid, ?_, ?_⟩ above ?_ ok
    · change entry new level (p.ary (slotOf new (level + 1))) = none
      rw [here', child]
      exact planted.free
    · subst here'
      apply replaced.entry_of_child
      rw [child]
      exact planted.entries
    · exact block_mono block (Nat.le_succ _)
  | @noMemory c' pool kept ok =>
    have same : p.bitmap m = c'.isFull := by
      rw [kept.isFull_eq validChild, valid.1.full_eq, child]
      rfl
    have replaced := @replaced_child _ m p c c' child
    rw [setBit_same same] at replaced
    refine .noMemory ⟨replaced.valid valid kept.valid, ?_⟩ ok
    apply replaced.entry_kept
    rw [child]
    exact kept.entries

theorem kept_newChild {new : Layer (Ptr α)} (valid : Valid (level + 1) (.layer p))
    (missing : p.ary m = .null) (empty : Empty new) :
    Kept (level + 1) p ((p.setSlot m (.layer new)).addCount 1) := by
  have replaced : Replaced p ((p.setSlot m (.layer new)).addCount 1) m (.layer new) := by
    refine ⟨rfl, ?_, fun _ _ => rfl, ?_⟩
    · rw [missing]
      change p.count + 1 + 0 = p.count + 1
      omega
    · change p.bitmap m = new.isFull
      rw [valid.1.full_eq, missing, not_isFull (empty.bits 0)]
      rfl
  refine ⟨replaced.valid valid (empty.valid level), ?_⟩
  apply replaced.entry_kept
  intro other
  rw [missing, empty.entry, entry_null]

end Results

section Search

variable {ptr : Ptr α}

/-- Back to the layer above after a search without success. -/
def backTo (ptr : Ptr α) (fuel id level : Nat) (p : Layer (Ptr α)) (path : List (Frame α))
    (pool : Pool α) : Option (Outcome α) :=
  match path with
  | [] => some ⟨.exhausted id, .layer p, pool⟩
  | frame :: path =>
    subAllocLoop ptr fuel id (level + 1) (frame.layer.setSlot frame.slot (.layer p)) path pool

section Turns

variable {fuel id level : Nat} {p : Layer (Ptr α)} {path : List (Frame α)} {pool : Pool α}
  {m : Slot}

theorem loop_exhausted
    (full : findNextBit (fun slot => !p.bitmap slot) (slotOf id level) = none) :
    subAllocLoop ptr (fuel + 1) id level p path pool =
      backTo ptr fuel ((id / span (level + 1) + 1) * span (level + 1)) level p path pool := by
  rw [subAllocLoop]
  simp only [full, next_block]
  rfl

theorem loop_chosen (m : Slot) :
    (if m ≠ slotOf id level then
      (id >>> (idrBits * level) ^^^ (slotOf id level).val ^^^ m.val) <<< (idrBits * level)
      else id) = chosen id level m := by
  unfold chosen
  rw [take_slot]

theorem span_six : span 6 = 2 ^ 30 := by decide

theorem chosen_small (m : Slot) (low : level < 6) (small : id < span 6) :
    ¬maxIdBit ≤ chosen id level m := by
  have less := lt_of_block (chosen_block id level m) low small
  rw [span_six] at less
  change ¬2 ^ 31 ≤ chosen id level m
  omega

section

variable (found : findNextBit (fun slot => !p.bitmap slot) (slotOf id (level + 1)) = some m)
  (low : level + 1 < 6) (small : id < span 6)

include found low small

theorem loop_child {child : Layer (Ptr α)} (below : p.ary m = .layer child) :
    subAllocLoop ptr (fuel + 1) id (level + 1) p path pool =
      subAllocLoop ptr fuel (chosen id (level + 1) m) level child (⟨p, m⟩ :: path) pool := by
  rw [subAllocLoop]
  simp only [found, loop_chosen, chosen_small m low small, if_false, below]

theorem loop_noMemory (below : p.ary m = .null) (failed : allocLayer pool = none) :
    subAllocLoop ptr (fuel + 1) id (level + 1) p path pool =
      some ⟨.noMemory, plug (.layer p) path, pool⟩ := by
  rw [subAllocLoop]
  simp only [found, loop_chosen, chosen_small m low small, if_false, below, failed]

theorem loop_newChild {new : Layer (Ptr α)} {pool' : Pool α} (below : p.ary m = .null)
    (allocated : allocLayer pool = some (new, pool')) :
    subAllocLoop ptr (fuel + 1) id (level + 1) p path pool =
      subAllocLoop ptr fuel (chosen id (level + 1) m) level new
        (⟨(p.setSlot m (.layer new)).addCount 1, m⟩ :: path) pool' := by
  rw [subAllocLoop]
  simp only [found, loop_chosen, chosen_small m low small, if_false, below, allocated]

end

end Turns

variable {p : Layer (Ptr α)} {id level : Nat}

theorem slotOf_zero (zeros : id % span (level + 1) = 0) : slotOf id level = 0 := by
  apply Fin.ext
  rw [slotOf_eq]
  rw [span_succ] at zeros
  have quotient := Nat.mod_mul_right_div_self id (span level) 32
  rw [zeros, Nat.zero_div] at quotient
  exact quotient.symm

theorem entry_of_set (valid : Valid level (.layer p)) (set : p.bitmap (slotOf id level) = true) :
    entry id level (.layer p) ≠ none := by
  cases level with
  | zero => simp [entry, set]
  | succ level =>
    rw [valid.1.full_eq, isFull_entry (valid.2 _)] at set
    exact set id

theorem found_fresh (valid : Valid level (.layer p)) (free : p.isFull = false)
    (fresh : id % span (level + 1) = 0 ∨ entry id level (.layer p) = none) :
    ∃ m, findNextBit (fun slot => !p.bitmap slot) (slotOf id level) = some m := by
  rcases fresh with zeros | none
  · obtain ⟨slot, clear⟩ : ∃ slot, p.bitmap slot = false := by simpa [Layer.isFull] using free
    exact findNextBit_of_clear (by rw [slotOf_zero zeros]; exact Fin.zero_le _) clear
  · exact findNextBit_of_clear (Nat.le_refl _)
      (Bool.eq_false_iff.mpr fun set => entry_of_set valid set none)

theorem mod_span_of_succ (zeros : id % span (level + 1) = 0) : id % span level = 0 := by
  rw [span_succ] at zeros
  rw [← Nat.mod_mul_right_mod id (span level) 32, zeros, Nat.zero_mod]

/-- The entry of an id in a bottom layer changes, and its bit and the count with it. -/
theorem put_leaf {id : Nat} {bit : Bool} {change : Int} (user : IsUser ptr)
    (valid : Valid 0 (.layer p)) (empty : bit = false → ptr = .null)
    (counts : change + (p.bitmap (slotOf id 0)).toNat = bit.toNat) :
    let p' := ((p.setSlot (slotOf id 0) ptr).setBit (slotOf id 0) bit).addCount change
    LeafOk p' ∧ ∀ other, entry other 0 (.layer p') =
      if Same 5 1 other id then if bit then some ptr else none else entry other 0 (.layer p) := by
  have ok : LeafOk p := valid
  refine ⟨⟨?_, fun slot clear => ?_, fun slot below => ?_⟩, fun other => ?_⟩
  · change p.count + change = occupied (fun bit => bit) (update p.bitmap (slotOf id 0) bit)
    have total := occupied_update (fun bit => bit) p.bitmap (slotOf id 0) bit
    have count : p.count = occupied (fun bit => bit) p.bitmap := ok.count_eq
    omega
  · change update p.bitmap (slotOf id 0) bit slot = false at clear
    change update p.ary (slotOf id 0) ptr slot = .null
    by_cases same : slot = slotOf id 0
    · rw [same, update_self] at clear ⊢
      exact empty clear
    · rw [update_of_ne same] at clear ⊢
      exact ok.clear slot clear
  · exact (forall_update_iff p.ary fun _ child => child ≠ .layer below).mpr
      ⟨user below, fun slot _ => ok.users slot below⟩ slot
  · change (if update p.bitmap (slotOf id 0) bit (slotOf other 0) = true then
      some (update p.ary (slotOf id 0) ptr (slotOf other 0)) else none) = _
    simp only [same_succ_slot]
    by_cases same : slotOf other 0 = slotOf id 0
    · have all : Same 5 0 other id := by simp [Same, Nat.mod_one]
      simp [same, all]
    · simp only [same, false_and, if_false, update_of_ne same]
      rfl

theorem planted_leaf {id : Nat} (user : IsUser ptr) (valid : Valid 0 (.layer p))
    (clear : p.bitmap m = false) (here : slotOf id 0 = m) :
    Planted ptr id 0 p (((p.setSlot m ptr).setBit m true).addCount 1) := by
  subst here
  obtain ⟨ok, entries⟩ := @put_leaf _ ptr p id true 1 user valid nofun (by rw [clear]; rfl)
  exact ⟨ok, by simp [entry, clear], entries⟩

/-- A search cannot fail with zeros below the chosen entry or for an id that is free: it
only goes down. -/
theorem subAllocLoop_fresh (user : IsUser ptr) (level fuel id : Nat) (p : Layer (Ptr α)) (m : Slot)
    (path : List (Frame α)) (pool : Pool α) (valid : Valid level (.layer p)) (ok : PoolOk pool)
    (found : findNextBit (fun slot => !p.bitmap slot) (slotOf id level) = some m)
    (fresh : m = slotOf id level → id % span level = 0 ∨ entry id level (.layer p) = none)
    (low : level < 6) (small : id < span 6) (enough : level < fuel) :
    ∃ outcome, subAllocLoop ptr fuel id level p path pool = some outcome ∧
      Settled ptr id level p path outcome := by
  induction level generalizing fuel id p m path pool with
  | zero =>
    obtain ⟨le, clear⟩ := findNextBit_some found
    obtain ⟨fuel, rfl⟩ := Nat.exists_eq_add_of_lt enough
    rw [Nat.zero_add, subAllocLoop]
    simp only [found, loop_chosen, chosen_small m (by decide : 0 < 6) small, if_false]
    refine ⟨_, rfl, ?_⟩
    have planted := planted_leaf user valid clear (slotOf_chosen id 0 m)
    have settled := @Settled.done _ ptr id 0 p path _ _ pool planted (le_chosen le)
      (chosen_block id 0 m) ok
    have bottom : chosen id 0 m / span 0 = chosen id 0 m := Nat.div_one _
    rwa [bottom] at settled
  | succ level ih =>
    obtain ⟨le, clear⟩ := findNextBit_some found
    obtain ⟨fuel, rfl⟩ : ∃ less, fuel = less + 1 := ⟨fuel - 1, by omega⟩
    have block := chosen_block id (level + 1) m
    -- the rest of the way down, in the child that is there or has been made
    have down : ∀ (p c : Layer (Ptr α)) (pool : Pool α), Valid (level + 1) (.layer p) →
        PoolOk pool → p.ary m = .layer c → p.bitmap m = false →
        (chosen id (level + 1) m % span (level + 1) = 0 ∨
          entry (chosen id (level + 1) m) level (.layer c) = none) →
        ∃ outcome, subAllocLoop ptr fuel (chosen id (level + 1) m) level c (⟨p, m⟩ :: path) pool =
            some outcome ∧ Settled ptr id (level + 1) p path outcome := by
      intro p c pool valid ok child clear fresh
      have validChild := valid.child child
      rw [valid.1.full_eq, child] at clear
      obtain ⟨m', found'⟩ := found_fresh validChild clear fresh
      obtain ⟨outcome, ran, settled⟩ := ih fuel _ c m' (⟨p, m⟩ :: path) pool validChild ok found'
        (fun _ => fresh.imp_left mod_span_of_succ) (by omega) (lt_of_block block low small)
          (by omega)
      refine ⟨outcome, ran, ?_⟩
      have lifted := settled.lift valid child (by rwa [valid.1.full_eq, child])
        (slotOf_chosen id (level + 1) m)
      exact lifted.weaken (le_chosen le) block
    cases below : p.ary m with
    | user value => exact absurd below valid.ne_user
    | layer c =>
      rw [loop_child found low small below]
      refine down p c pool valid ok below clear ?_
      by_cases here : m = slotOf id (level + 1)
      · rw [chosen, if_neg (not_not.mpr here)]
        refine (fresh here).imp_right fun none => ?_
        change entry id level (p.ary (slotOf id (level + 1))) = .none at none
        rwa [← here, below] at none
      · exact .inl (chosen_mod here)
    | null =>
      cases allocated : allocLayer pool with
      | none =>
        rw [loop_noMemory found low small below allocated]
        exact ⟨_, rfl, .noMemory ⟨valid, fun _ => rfl⟩ ok⟩
      | some result =>
        obtain ⟨new, pool'⟩ := result
        obtain ⟨empty, ok'⟩ := allocLayer_ok ok allocated
        rw [loop_newChild found low small below allocated]
        have kept := kept_newChild valid below empty
        obtain ⟨outcome, ran, settled⟩ := down _ new pool' kept.valid ok'
          (update_self m _ p.ary) clear (.inr (empty.entry _ _))
        exact ⟨outcome, ran, settled.congr kept⟩

/-- Where a search comes back to level `k`, its id goes on in the same block of
the layer above unless digit `k` overflows. The search comes back when no id from
the start on is free in the start's block of `span k` ids, and it went in there
because some id of that block is free. -/
def NoCarry (taken : Nat → Prop) (start k : Nat) : Prop :=
  start / span k % 32 = 31 →
    (∀ id, start ≤ id → id / span k = start / span k → taken id) →
    ∀ id, id / span k = start / span k → taken id

/-- No id from the start on is free below the layer. -/
def Exhausted (start level : Nat) (p : Layer (Ptr α)) : Prop :=
  ∀ id, start ≤ id → id / span (level + 1) = start / span (level + 1) →
    entry id level (.layer p) ≠ none

theorem slotOf_mono {start id level : Nat} (le : start ≤ id)
    (block : id / span (level + 1) = start / span (level + 1)) :
    slotOf start level ≤ slotOf id level := by
  have quotient := @Nat.div_le_div_right start id (span level) le
  rw [div_span_succ, div_span_succ] at block
  change (slotOf start level).val ≤ (slotOf id level).val
  rw [slotOf_eq, slotOf_eq]
  omega

theorem block_of_slot {start id level : Nat}
    (block : id / span (level + 1) = start / span (level + 1))
    (slot : slotOf id level = slotOf start level) : id / span level = start / span level := by
  have digits := Fin.ext_iff.mp slot
  rw [slotOf_eq, slotOf_eq] at digits
  rw [div_span_succ, div_span_succ] at block
  omega

theorem exhausted_of_none {start level : Nat} (valid : Valid level (.layer p))
    (full : findNextBit (fun slot => !p.bitmap slot) (slotOf start level) = none) :
    Exhausted start level p := by
  intro id le block
  exact entry_of_set valid (findNextBit_none.mp full _ (slotOf_mono le block))

/-- The start of the block behind, when it belongs to the same block above. -/
theorem next_facts {start level : Nat} (room : start / span level % 32 ≠ 31) :
    (start / span level + 1) * span level / span level = start / span level + 1 ∧
      (start / span level + 1) * span level / span (level + 1) = start / span (level + 1) ∧
      (slotOf ((start / span level + 1) * span level) level).val =
        (slotOf start level).val + 1 := by
  have cancel := Nat.mul_div_cancel (start / span level + 1) (span_pos level)
  refine ⟨cancel, ?_, ?_⟩
  · rw [div_span_succ, cancel, div_span_succ]
    omega
  · rw [slotOf_eq, slotOf_eq, cancel]
    omega

/-- A turn of the loop that looks for the start settles below the layer, or the
search goes back up with the start of the block behind after at most `turns`
turns. -/
def Follows (ptr : Ptr α) (start level turns fuel : Nat) (p : Layer (Ptr α)) (path : List (Frame α))
    (result : Option (Outcome α)) (pool : Pool α) : Prop :=
  (∃ outcome, result = some outcome ∧ Settled ptr start level p path outcome) ∨
  Exhausted start level p ∧ ∃ left, fuel ≤ left + turns ∧
    result = backTo ptr left ((start / span (level + 1) + 1) * span (level + 1)) level p path pool

section Resume

variable {start level : Nat} {p c : Layer (Ptr α)} {m : Slot}

section

variable (here : m = slotOf start (level + 1)) (below : p.ary m = .layer c)

include here below

theorem entry_in_child {id k : Nat} (le : k ≤ level + 1) (block : id / span k = start / span k) :
    entry id (level + 1) (.layer p) = entry id level (.layer c) := by
  change entry id level (p.ary (slotOf id (level + 1))) = _
  rw [slotOf_block block le, ← here, below]

theorem noCarry_child {k : Nat} (le : k ≤ level)
    (carry : NoCarry (fun id => entry id (level + 1) (.layer p) ≠ none) start k) :
    NoCarry (fun id => entry id level (.layer c) ≠ none) start k := by
  intro top exhausted id block
  have above := carry top
    (by
      intro other from_start same
      rw [entry_in_child here below (by omega) same]
      exact exhausted other from_start same) id block
  change entry id (level + 1) (.layer p) ≠ none at above
  rwa [entry_in_child here below (by omega) block] at above

/-- The layer was entered because it is not full, so the way back has no carry. -/
theorem digit_ne_top (valid : Valid (level + 1) (.layer p)) (clear : p.bitmap m = false)
    (carry : NoCarry (fun id => entry id (level + 1) (.layer p) ≠ none) start (level + 1))
    (exhausted : Exhausted start level c) : start / span (level + 1) % 32 ≠ 31 := by
  intro top
  have validChild := valid.child below
  have all := carry top (by
    intro id from_start block
    rw [entry_in_child here below (Nat.le_refl _) block]
    exact exhausted id from_start block)
  have full : c.isFull = true := by
    apply (isFull_entry validChild).mpr
    intro id
    -- the id of the start's block that goes the same way
    obtain ⟨whole, slots, same⟩ : ∃ whole, whole / span (level + 1) = start / span (level + 1) ∧
        Same 5 (level + 1) whole id := by
      refine ⟨start / span (level + 1) * span (level + 1) + id % span (level + 1), ?_, ?_⟩
      · rw [Nat.mul_comm, Nat.mul_add_div (span_pos _),
          Nat.div_eq_of_lt (Nat.mod_lt _ (span_pos _)), Nat.add_zero]
      · change _ % span (level + 1) = id % span (level + 1)
        rw [Nat.mul_comm, Nat.mul_add_mod, Nat.mod_mod]
    have taken : entry whole (level + 1) (.layer p) ≠ none := all whole slots
    rwa [entry_in_child here below (Nat.le_refl _) slots, entry_same same] at taken
  rw [valid.1.full_eq, below] at clear
  change c.isFull = false at clear
  rw [full] at clear
  cases clear

end

/-- The search goes on behind an exhausted child. -/
theorem resume_follows (user : IsUser ptr) {fuel : Nat} {path : List (Frame α)} {pool : Pool α}
    (valid : Valid (level + 1) (.layer p)) (ok : PoolOk pool) (here : m = slotOf start (level + 1))
    (below : p.ary m = .layer c) (exhausted : Exhausted start level c)
    (room : start / span (level + 1) % 32 ≠ 31) (low : level + 1 < 6) (small : start < span 6)
    (enough : level + 1 < fuel) :
    Follows ptr start (level + 1) 1 fuel p path
      (subAllocLoop ptr fuel ((start / span (level + 1) + 1) * span (level + 1)) (level + 1) p path
        pool) pool := by
  obtain ⟨cancel, block, slot⟩ := next_facts room
  cases found : findNextBit (fun entry => !p.bitmap entry)
      (slotOf ((start / span (level + 1) + 1) * span (level + 1)) (level + 1)) with
  | none =>
    obtain ⟨less, rfl⟩ : ∃ less, fuel = less + 1 := ⟨fuel - 1, by omega⟩
    refine .inr ⟨?_, less, by omega, ?_⟩
    · intro id from_start inBlock
      by_cases same : slotOf id (level + 1) = slotOf start (level + 1)
      · have narrow := block_of_slot inBlock same
        rw [entry_in_child here below (Nat.le_refl _) narrow]
        exact exhausted id from_start narrow
      · apply entry_of_set valid
        have after : slotOf ((start / span (level + 1) + 1) * span (level + 1)) (level + 1) ≤
            slotOf id (level + 1) := by
          have le : (slotOf start (level + 1)).val ≤ (slotOf id (level + 1)).val :=
            slotOf_mono from_start inBlock
          have ne : (slotOf id (level + 1)).val ≠ (slotOf start (level + 1)).val :=
            fun equal => same (Fin.ext equal)
          rw [Fin.le_def, slot]
          omega
        exact findNextBit_none.mp found _ after
    · rw [loop_exhausted found, block]
  | some m' =>
    have small' := lt_of_block block low small
    obtain ⟨outcome, ran, settled⟩ :=
      subAllocLoop_fresh user (level + 1) fuel _ p m' path pool valid ok
      found (fun _ => .inl (Nat.mul_mod_left _ _)) low small' enough
    exact .inl ⟨outcome, ran, settled.weaken (Nat.le_of_lt
      (Nat.lt_mul_of_div_lt (Nat.lt_succ_self _) (span_pos _))) block⟩

end Resume

/-- The search for the start itself, which follows its digits down. -/
theorem subAllocLoop_follow (user : IsUser ptr) (start level fuel : Nat) (p : Layer (Ptr α))
    (path : List (Frame α)) (pool : Pool α) (valid : Valid level (.layer p)) (ok : PoolOk pool)
    (carry : ∀ k, 1 ≤ k → k ≤ level → NoCarry (fun id => entry id level (.layer p) ≠ none) start k)
    (low : level < 6) (small : start < span 6) (enough : 3 * level + 1 ≤ fuel) :
    Follows ptr start level (2 * level + 1) fuel p path
      (subAllocLoop ptr fuel start level p path pool) pool := by
  induction level generalizing fuel p path pool with
  | zero =>
    obtain ⟨fuel, rfl⟩ : ∃ less, fuel = less + 1 := ⟨fuel - 1, by omega⟩
    cases found : findNextBit (fun slot => !p.bitmap slot) (slotOf start 0) with
    | none => exact .inr ⟨exhausted_of_none valid found, fuel, by omega, loop_exhausted found⟩
    | some m =>
      exact .inl (subAllocLoop_fresh user 0 (fuel + 1) start p m path pool valid ok found
        (fun _ => .inl (Nat.mod_one start)) low small (by omega))
  | succ level ih =>
    obtain ⟨fuel, rfl⟩ : ∃ less, fuel = less + 1 := ⟨fuel - 1, by omega⟩
    cases found : findNextBit (fun slot => !p.bitmap slot) (slotOf start (level + 1)) with
    | none => exact .inr ⟨exhausted_of_none valid found, fuel, by omega, loop_exhausted found⟩
    | some m =>
      by_cases here : m = slotOf start (level + 1)
      · have same : chosen start (level + 1) m = start := if_neg (not_not.mpr here)
        cases below : p.ary m with
        | user value => exact absurd below valid.ne_user
        | null =>
          have free : entry start (level + 1) (.layer p) = none := by
            change entry start level (p.ary (slotOf start (level + 1))) = none
            rw [← here, below, entry_null]
          exact .inl (subAllocLoop_fresh user (level + 1) (fuel + 1) start p m path pool valid ok
            found (fun _ => .inr free) low small (by omega))
        | layer c =>
          have validChild := valid.child below
          have clear := (findNextBit_some found).2
          rw [loop_child found low small below, same]
          rcases ih fuel c (⟨p, m⟩ :: path) pool validChild ok
            (fun k positive le => noCarry_child here below le (carry k positive (by omega)))
            (by omega) (by omega) with ⟨outcome, ran, settled⟩ | ⟨exhausted, left, bound, ran⟩
          · exact .inl ⟨outcome, ran, settled.lift valid below clear here.symm⟩
          · have room := digit_ne_top here below valid clear
              (carry (level + 1) (by omega) (Nat.le_refl _)) exhausted
            have linked : p.setSlot m (.layer c) = p := by
              unfold Layer.setSlot
              rw [← below, update_eq_self]
            rw [ran, backTo, linked]
            rcases @resume_follows _ ptr start level p c m user left path pool valid ok here below
              exhausted room low small (by omega) with done | ⟨exhausted', left', bound', ran'⟩
            · exact .inl done
            · exact .inr ⟨exhausted', left', by omega, ran'⟩
      · exact .inl (subAllocLoop_fresh user (level + 1) (fuel + 1) start p m path pool valid ok
          found (fun same => absurd same here) low small (by omega))

end Search

end MagxKernel.Idr
