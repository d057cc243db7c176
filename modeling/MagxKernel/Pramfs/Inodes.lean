import Mathlib.Algebra.Group.Nat.Defs
import Mathlib.Data.List.Nodup
import Mathlib.Data.List.Perm.Subperm
import MagxKernel.Lib.Runs

namespace MagxKernel.Pramfs

open Function List

/-- The fields of `pram_inode` that tell whether its slot is in use. -/
structure PramInode where
  linksCount : Nat
  mode : Nat
  dtime : Nat

/-- The inode table, with `s_free_inodes_count` and `s_free_inode_hint`. Inodes go by their place
in the table; the root is the first. -/
structure InodeTable where
  slots : Nat → PramInode
  freeInodesCount : Nat
  freeInodeHint : Nat

inductive InodeError where
  | enomem
  | enospc
  | edquot
deriving DecidableEq

/-- The test of `pram_new_inode` on a slot. -/
def PramInode.deleted (pi : PramInode) : Bool :=
  pi.linksCount == 0 && (pi.mode == 0 || pi.dtime != 0)

namespace InodeTable

variable (count : Nat) (table : InodeTable)

/-- The table that `pram_init` leaves behind. -/
def init : InodeTable :=
  ⟨fun nr => if nr = 0 then ⟨2, 0o40755, 0⟩ else ⟨0, 0, 0⟩, count - 1, 1⟩

def pramUpdateInode (nr nlink mode : Nat) : InodeTable :=
  { table with
    slots := Function.update table.slots nr
      { table.slots nr with linksCount := nlink, mode := mode } }

def pramDecCount (nr : Nat) : InodeTable :=
  if (table.slots nr).linksCount = 0 then table
  else table.pramUpdateInode nr ((table.slots nr).linksCount - 1) (table.slots nr).mode

def pramFreeInode (nr seconds : Nat) : InodeTable :=
  { slots := Function.update table.slots nr
      { table.slots nr with dtime := seconds % 2 ^ 32 }
    freeInodesCount := table.freeInodesCount + 1
    freeInodeHint :=
      if table.freeInodesCount + 1 = count - 1 then 1
      else if nr < table.freeInodeHint then nr
      else table.freeInodeHint }

def findDeleted : Option Nat :=
  (List.range' table.freeInodeHint (count - table.freeInodeHint)).find? fun nr =>
    (table.slots nr).deleted

/-- `memory` tells whether `new_inode` succeeds, `quota` whether `DQUOT_ALLOC_INODE` does; without
quota the inode is deleted at once, with its slot as it was written. -/
def pramNewInode (mode : Nat) (memory quota : Bool) (seconds : Nat) :
    Except InodeError Nat × InodeTable :=
  if memory = false then (.error .enomem, table)
  else if table.freeInodesCount = 0 then (.error .enospc, table)
  else
    match table.findDeleted count with
    | none => (.error .enospc, table)
    | some nr =>
        let taken := { table with
          freeInodesCount := table.freeInodesCount - 1
          freeInodeHint := if nr < count - 1 then nr + 1 else 0 }
        let made := taken.pramUpdateInode nr 1 mode
        if quota then (.ok nr, made) else (.error .edquot, made.pramFreeInode count nr seconds)

end InodeTable

/-- The table and the inodes that have been handed out and not yet released. -/
structure Inodes where
  table : InodeTable
  held : List Nat

inductive InodeCall where
  | new (mode : Nat) (memory quota : Bool) (seconds : Nat)
  | unlink (nr : Nat)
  | free (nr seconds : Nat)

def Inodes.step (count : Nat) (fs : Inodes) : InodeCall → Option Inodes
  | .new mode memory quota seconds =>
      let result := fs.table.pramNewInode count mode memory quota seconds
      some ⟨result.2, result.1.toOption.toList ++ fs.held⟩
  | .unlink nr => some ⟨fs.table.pramDecCount nr, fs.held⟩
  | .free nr seconds => some ⟨fs.table.pramFreeInode count nr seconds, fs.held.erase nr⟩

/-- What the callers see to: a mode has its file type, the root is never unlinked, and only
the last close of an unlinked file releases its inode. -/
def Called (fs : Inodes) : InodeCall → Prop
  | .new mode _ _ _ => mode ≠ 0
  | .unlink nr => nr ∈ fs.held ∧ nr ≠ 0
  | .free nr _ => nr ∈ fs.held ∧ nr ≠ 0 ∧ (fs.table.slots nr).linksCount = 0

instance (fs : Inodes) : (call : InodeCall) → Decidable (Called fs call)
  | .new mode _ _ _ => inferInstanceAs (Decidable (mode ≠ 0))
  | .unlink nr => inferInstanceAs (Decidable (nr ∈ fs.held ∧ nr ≠ 0))
  | .free nr _ => inferInstanceAs (Decidable (nr ∈ fs.held ∧ nr ≠ 0 ∧ _ = 0))

/-- A slot that is not handed out but not taken for free either: a refused quota leaves one, and
so does a release at time 0. -/
def Inodes.Lost (fs : Inodes) (nr : Nat) : Prop :=
  nr ∉ fs.held ∧ (fs.table.slots nr).deleted = false

def Inodes.Spare (fs : Inodes) (nr : Nat) : Prop :=
  nr ∉ fs.held ∧ (fs.table.slots nr).deleted = true

instance (fs : Inodes) (nr : Nat) : Decidable (fs.Lost nr) := inferInstanceAs (Decidable (_ ∧ _))

instance (fs : Inodes) (nr : Nat) : Decidable (fs.Spare nr) := inferInstanceAs (Decidable (_ ∧ _))

/-- When a file is created, no unlinked one is open in a slot from the hint on that was released
before, and if a slot is lost there is still a spare one. -/
def Timed (count : Nat) (fs : Inodes) : InodeCall → Prop
  | .new _ _ _ _ =>
      (∀ nr ∈ fs.held, fs.table.freeInodeHint ≤ nr →
        (fs.table.slots nr).linksCount = 0 → (fs.table.slots nr).dtime = 0) ∧
      ((∃ nr < count, fs.Lost nr) → ∃ nr < count, fs.Spare nr)
  | .unlink _ | .free _ _ => True

instance (count : Nat) (fs : Inodes) : (call : InodeCall) → Decidable (Timed count fs call)
  | .new _ _ _ _ => inferInstanceAs (Decidable ((∀ nr ∈ fs.held, _ → _ → _) ∧ (_ → _)))
  | .unlink _ | .free _ _ => inferInstanceAs (Decidable True)

/-- What `pram_new_inode` may answer. -/
structure Hands (count : Nat) (held : List Nat) (result : Except InodeError Nat) : Prop where
  fresh : ∀ nr, result = .ok nr → nr < count ∧ nr ∉ held
  full : result = .error .enospc → ∀ nr < count, nr ∈ held

structure Inodes.Sound (count : Nat) (fs : Inodes) : Prop where
  root : 0 ∈ fs.held
  distinct : fs.held.Nodup
  inside : ∀ nr ∈ fs.held, nr < count
  counted : fs.table.freeInodesCount + fs.held.length = count
  typed : ∀ nr ∈ fs.held, (fs.table.slots nr).mode ≠ 0
  hint : ∀ nr < count, fs.Spare nr → fs.table.freeInodeHint ≤ nr

namespace Inodes.Sound

variable {count : Nat} {fs : Inodes}

theorem init (positive : 0 < count) : Sound count ⟨.init count, [0]⟩ where
  root := mem_singleton_self 0
  distinct := nodup_singleton 0
  inside := by simpa using positive
  counted := Nat.sub_add_cancel positive
  typed := by simp [InodeTable.init]
  hint := fun nr _ spare => Nat.pos_of_ne_zero (mem_singleton.not.mp spare.1)

section

variable (sound : Sound count fs)

include sound

theorem full (zero : fs.table.freeInodesCount = 0) : ∀ nr < count, nr ∈ fs.held := by
  intro nr below
  by_contra free
  have all : (nr :: fs.held) ⊆ List.range count :=
    cons_subset.mpr ⟨mem_range.mpr below, fun other member =>
      mem_range.mpr (sound.inside other member)⟩
  have length := ((nodup_cons.mpr ⟨free, sound.distinct⟩).subperm all).length_le
  have counted := sound.counted
  simp only [length_cons, length_range] at length
  omega

/-- As long as the count is not 0, some slot is spare. -/
theorem spare (left : fs.table.freeInodesCount ≠ 0)
    (kept : (∃ nr < count, fs.Lost nr) → ∃ nr < count, fs.Spare nr) :
    ∃ nr < count, fs.Spare nr := by
  obtain ⟨nr, below, free⟩ : ∃ nr < count, nr ∉ fs.held := by
    by_contra none
    have all : List.range count ⊆ fs.held := fun nr member =>
      not_not.mp fun free => none ⟨nr, mem_range.mp member, free⟩
    have length := (nodup_range.subperm all).length_le
    have counted := sound.counted
    rw [length_range] at length
    omega
  cases deleted : (fs.table.slots nr).deleted with
  | true => exact ⟨nr, below, free, deleted⟩
  | false => exact kept ⟨nr, below, free, deleted⟩

/-- The search finds the least spare slot. -/
theorem findDeleted {spare : Nat} (below : spare < count) (isSpare : fs.Spare spare)
    (young : ∀ nr ∈ fs.held, fs.table.freeInodeHint ≤ nr →
      (fs.table.slots nr).linksCount = 0 → (fs.table.slots nr).dtime = 0) :
    ∃ nr, fs.table.findDeleted count = some nr ∧ nr < count ∧ nr ∉ fs.held ∧
      ∀ other < count, fs.Spare other → nr ≤ other := by
  cases found : fs.table.findDeleted count with
  | none =>
    have hint := sound.hint spare below isSpare
    have inside := mem_range'_1.mpr
      ⟨hint, (by omega : spare < fs.table.freeInodeHint + (count - fs.table.freeInodeHint))⟩
    exact absurd isSpare.2 (find?_eq_none.mp found spare inside)
  | some nr =>
    obtain ⟨deleted, member, before⟩ := find?_range'_eq_some.mp found
    have between := mem_range'_1.mp member
    simp only [PramInode.deleted, Bool.and_eq_true, Bool.or_eq_true, beq_iff_eq, bne_iff_ne]
      at deleted
    refine ⟨nr, rfl, by omega, fun held => ?_, fun other lower free => ?_⟩
    · exact deleted.2.elim (sound.typed nr held) fun late =>
        late (young nr held between.1 deleted.1)
    · by_contra earlier
      have early := before other (sound.hint other lower free) (by omega)
      rw [free.2] at early
      cases early

/-- One slot changes and its inode is handed out, released or neither. -/
theorem change {nr free hint : Nat} {slot : PramInode} {held : List Nat} (below : nr < count)
    (others : ∀ other, other ≠ nr → (other ∈ held ↔ other ∈ fs.held)) (root : 0 ∈ held)
    (distinct : held.Nodup) (counted : free + held.length = count)
    (typed : nr ∈ held → slot.mode ≠ 0) (here : nr ∉ held → slot.deleted = true → hint ≤ nr)
    (hinted : ∀ other < count, other ≠ nr → other ∉ held → fs.Spare other → hint ≤ other) :
    Sound count ⟨⟨update fs.table.slots nr slot, free, hint⟩, held⟩ := by
  refine ⟨root, distinct, fun other inside => ?_, counted, fun other inside => ?_,
    fun other lower spare => ?_⟩
  · by_cases same : other = nr
    · exact same ▸ below
    · exact sound.inside other ((others other same).mp inside)
  · change (update fs.table.slots nr slot other).mode ≠ 0
    by_cases same : other = nr
    · rw [same, update_self]
      exact typed (same ▸ inside)
    · rw [update_of_ne same]
      exact sound.typed other ((others other same).mp inside)
  · obtain ⟨away, deleted⟩ := spare
    change (update fs.table.slots nr slot other).deleted = true at deleted
    by_cases same : other = nr
    · rw [same, update_self] at deleted
      exact same ▸ here (same ▸ away) deleted
    · rw [update_of_ne same] at deleted
      exact hinted other lower same away ⟨fun held => away ((others other same).mpr held), deleted⟩

theorem new {mode : Nat} {memory quota : Bool} {seconds : Nat} (typed : mode ≠ 0)
    (timed : Timed count fs (.new mode memory quota seconds)) :
    Hands count fs.held (fs.table.pramNewInode count mode memory quota seconds).1 ∧
      ∀ next, fs.step count (.new mode memory quota seconds) = some next → Sound count next := by
  obtain ⟨young, kept⟩ := timed
  have counted := sound.counted
  cases memory with
  | false => exact ⟨⟨nofun, nofun⟩, fun next same => Option.some.inj same ▸ sound⟩
  | true =>
    by_cases zero : fs.table.freeInodesCount = 0
    · simp only [Inodes.step, InodeTable.pramNewInode, zero]
      exact ⟨⟨nofun, fun _ => sound.full zero⟩, fun next same => Option.some.inj same ▸ sound⟩
    obtain ⟨spare, inside, isSpare⟩ := sound.spare zero kept
    obtain ⟨nr, found, below, free, least⟩ := sound.findDeleted inside isSpare young
    cases quota with
    | true =>
      simp only [Inodes.step, InodeTable.pramNewInode, zero, found]
      refine ⟨⟨fun other same => by cases same; exact ⟨below, free⟩, nofun⟩, fun next same => ?_⟩
      rw [← Option.some.inj same]
      refine sound.change below (fun other away => mem_cons.trans (or_iff_right away))
        (mem_cons_of_mem nr sound.root) (nodup_cons.mpr ⟨free, sound.distinct⟩) ?_
        (fun _ => typed) (absurd (mem_cons_self ..)) fun other lower elsewhere _ spare => ?_
      · change fs.table.freeInodesCount - 1 + (fs.held.length + 1) = count
        omega
      · have after := least other lower spare
        change (if nr < count - 1 then nr + 1 else 0) ≤ other
        split <;> omega
    | false =>
      -- the slot keeps its link and is lost
      have result : fs.table.pramNewInode count mode true false seconds = (.error .edquot,
          ⟨update fs.table.slots nr ⟨1, mode, seconds % 2 ^ 32⟩, fs.table.freeInodesCount - 1 + 1,
            if fs.table.freeInodesCount - 1 + 1 = count - 1 then 1
            else if nr < (if nr < count - 1 then nr + 1 else 0) then nr
            else if nr < count - 1 then nr + 1 else 0⟩) := by
        simp [InodeTable.pramNewInode, zero, found, InodeTable.pramFreeInode,
          InodeTable.pramUpdateInode]
        rfl
      simp only [Inodes.step, result]
      refine ⟨⟨nofun, nofun⟩, fun next same => ?_⟩
      rw [← Option.some.inj same]
      refine sound.change below (fun _ _ => Iff.rfl) sound.root sound.distinct ?_
        (fun held => absurd held free) (fun _ => nofun) fun other lower elsewhere away spare => ?_
      · change fs.table.freeInodesCount - 1 + 1 + fs.held.length = count
        omega
      · have after := least other lower spare
        repeat' split
        all_goals omega

theorem unlink {nr : Nat} (held : nr ∈ fs.held) :
    Sound count ⟨fs.table.pramDecCount nr, fs.held⟩ := by
  unfold InodeTable.pramDecCount
  split
  · exact sound
  · exact sound.change (sound.inside nr held) (fun _ _ => Iff.rfl) sound.root sound.distinct
      sound.counted (fun _ => sound.typed nr held) (absurd held)
      fun other below _ _ spare => sound.hint other below spare

theorem free {nr seconds : Nat} (called : Called fs (.free nr seconds)) :
    Sound count ⟨fs.table.pramFreeInode count nr seconds, fs.held.erase nr⟩ := by
  obtain ⟨held, file, _⟩ := called
  have root : 0 ∈ fs.held.erase nr := (mem_erase_of_ne file.symm).mpr sound.root
  refine sound.change (sound.inside nr held) (fun _ => mem_erase_of_ne) root
    (sound.distinct.erase nr) ?_ (fun inside => absurd inside sound.distinct.not_mem_erase)
    (fun _ _ => ?_) fun other below elsewhere away spare => ?_
  · have counted := sound.counted
    have positive := length_pos_of_mem held
    rw [length_erase_of_mem held]
    omega
  · split
    · omega
    · split <;> omega
  · have nonroot : other ≠ 0 := fun here => away (here ▸ root)
    have older := sound.hint other below spare
    split
    · omega
    · split <;> omega

end

end Inodes.Sound

/-- In every such run on a new file system, an inode that is handed out was not held, and none is
refused for want of space while one is left. -/
theorem pramNewInode_fresh (count : Nat) (positive : 0 < count)
    (calls : List InodeCall) (fs : Inodes)
    (called : Runs.Along (Inodes.step count) (fun fs call => Called fs call ∧ Timed count fs call)
      ⟨.init count, [0]⟩ calls)
    (executed : Runs.run (Inodes.step count) ⟨.init count, [0]⟩ calls = some fs)
    (mode : Nat) (memory quota : Bool) (seconds : Nat)
    (typed : Called fs (.new mode memory quota seconds))
    (timed : Timed count fs (.new mode memory quota seconds)) :
    Hands count fs.held (fs.table.pramNewInode count mode memory quota seconds).1 := by
  have sound : fs.Sound count := by
    refine Runs.run_invariant (fun fs call next sound called stepped => ?_) calls _ fs
      (Inodes.Sound.init positive) called executed
    cases call with
    | new mode memory quota seconds =>
      exact (sound.new called.1 called.2).2 next stepped
    | unlink nr => exact Option.some.inj stepped ▸ sound.unlink called.1.1
    | free nr seconds => exact Option.some.inj stepped ▸ sound.free called.1
  exact (sound.new typed timed).1

/-- Inode 1 is reused and then unlinked while it is open, and a refused quota loses slot 3. -/
def reusedAndRefused : List InodeCall :=
  [.new 0o100644 true true 0, .unlink 1, .free 1 5, .new 0o100644 true true 0,
    .new 0o100644 true true 0, .unlink 1, .new 0o100644 true false 6]

theorem pramNewInode_fresh_reused : ∃ fs,
    Runs.run (Inodes.step 5) ⟨.init 5, [0]⟩ reusedAndRefused = some fs ∧ fs.held = [2, 1, 0] ∧
      (fs.table.pramNewInode 5 0o100644 true true 0).1 = .ok 4 ∧
      Hands 5 fs.held (fs.table.pramNewInode 5 0o100644 true true 0).1 :=
  ⟨_, rfl, by decide, by decide, pramNewInode_fresh 5 (by decide) reusedAndRefused _
    (by decide) rfl 0o100644 true true 0 (by decide) (by decide)⟩

/-- Inode 1 is in its second life, unlinked and open, when inode 2 is released. -/
def secondLife : List InodeCall :=
  [.new 0o100644 true true 0, .unlink 1, .free 1 5, .new 0o100644 true true 0,
    .new 0o100644 true true 0, .unlink 1, .unlink 2, .free 2 6]

theorem pramNewInode_reuses : ∃ fs, Runs.run (Inodes.step 3) ⟨.init 3, [0]⟩ secondLife = some fs ∧
    Runs.Along (Inodes.step 3) Called ⟨.init 3, [0]⟩ secondLife ∧ fs.held = [1, 0] ∧
    (fs.table.pramNewInode 3 0o100644 true true 0).1 = .ok 1 := by
  refine ⟨_, rfl, by decide, by decide, by decide⟩

end MagxKernel.Pramfs
