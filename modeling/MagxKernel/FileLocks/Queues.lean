import MagxKernel.FileLocks.Overwrite
import MagxKernel.Lib.WaitsFor

namespace MagxKernel.FileLocks

open WaitsFor Function List
open Relation (ReflTransGen)

variable {Owner : Type}

/-- The part of a lock that the wait queues are made of. -/
def LockState.links (state : LockState Owner) (fl : Nat) : Owner × Option Nat × List Nat :=
  ((state.mem fl).flOwner, (state.mem fl).flNext, (state.mem fl).flBlock)

/-- The edges of `blocked_list`: from the owner of a blocked request to the owner
of the lock that it waits for. -/
def LockState.WaitsFor (state : LockState Owner) (waiting holding : Owner) : Prop :=
  ∃ waiter ∈ state.blockedList, (state.mem waiter).flOwner = waiting ∧
    ∃ blocker, (state.mem waiter).flNext = some blocker ∧ (state.mem blocker).flOwner = holding

/-- Blocked requests stand in the queue of a live lock, at most one for each
owner, and nobody waits for himself. The spare addresses take no part. -/
structure Queued (state : LockState Owner) (live : Nat → Prop) (spare : List Nat) : Prop where
  nodup : state.blockedList.Nodup
  linked : ∀ waiter ∈ state.blockedList, ∃ blocker, (state.mem waiter).flNext = some blocker ∧
    waiter ∈ (state.mem blocker).flBlock ∧ live blocker
  single : ∀ waiter ∈ state.blockedList, ∀ other ∈ state.blockedList,
    (state.mem waiter).flOwner = (state.mem other).flOwner → waiter = other
  acyclic : Acyclic state.WaitsFor
  unused : ∀ fl ∈ spare, fl ∉ state.blockedList ∧ ¬live fl

section Queues

variable {state after : LockState Owner} {live fewer : Nat → Prop} {spare : List Nat}

theorem links_write_same (address : Nat) (lock : FileLock Owner)
    (same : (lock.flOwner, lock.flNext, lock.flBlock) = state.links address) :
    (state.write address lock).links = state.links :=
  funext ((forall_update_iff state.mem fun fl held =>
    (held.flOwner, held.flNext, held.flBlock) = state.links fl).mpr ⟨same, fun _ _ => rfl⟩)

@[simp] theorem links_setStart (fl : Nat) (start : Int) :
    (state.setStart fl start).links = state.links := links_write_same fl _ rfl

@[simp] theorem links_setEnd (fl : Nat) (stop : Int) :
    (state.setEnd fl stop).links = state.links := links_write_same fl _ rfl

theorem links_joinLocks (request fl : Nat) : (joinLocks state request fl).links = state.links := by
  unfold joinLocks joinEnd joinStart
  split <;> split <;> simp

theorem blockedList_joinLocks (request fl : Nat) :
    (joinLocks state request fl).blockedList = state.blockedList := by
  unfold joinLocks joinEnd joinStart
  split <;> split <;> rfl

/-- Writes to spare addresses and to other fields leave the queues alone. -/
theorem Queued.congr (queued : Queued state live spare)
    (kept : ∀ fl, fl ∉ spare → after.links fl = state.links fl)
    (list : after.blockedList = state.blockedList) : Queued after live spare := by
  have waiting : ∀ fl ∈ state.blockedList, after.links fl = state.links fl :=
    fun fl member => kept fl fun free => (queued.unused fl free).1 member
  have living : ∀ fl, live fl → after.links fl = state.links fl :=
    fun fl alive => kept fl fun free => (queued.unused fl free).2 alive
  simp only [LockState.links, Prod.mk.injEq] at waiting living
  constructor
  · rw [list]
    exact queued.nodup
  · rw [list]
    intro waiter member
    obtain ⟨blocker, next, inQueue, alive⟩ := queued.linked waiter member
    have same := waiting waiter member
    have sameBlocker := living blocker alive
    exact ⟨blocker, same.2.1.trans next, sameBlocker.2.2 ▸ inQueue, alive⟩
  · rw [list]
    intro waiter member other otherMember equal
    have same := waiting waiter member
    have sameOther := waiting other otherMember
    rw [same.1, sameOther.1] at equal
    exact queued.single waiter member other otherMember equal
  · apply queued.acyclic.mono
    rintro a b ⟨waiter, member, owns, blocker, next, holds⟩
    rw [list] at member
    obtain ⟨target, points, _, alive⟩ := queued.linked waiter member
    have same := waiting waiter member
    have sameTarget := living target alive
    obtain rfl : blocker = target := by
      rw [same.2.1, points] at next
      exact (Option.some.inj next).symm
    exact ⟨waiter, member, same.1 ▸ owns, blocker, points, sameTarget.1 ▸ holds⟩
  · rw [list]
    exact queued.unused

theorem Queued.of_links (queued : Queued state live spare)
    (kept : after.links = state.links) (list : after.blockedList = state.blockedList) :
    Queued after live spare :=
  queued.congr (fun fl _ => congrFun kept fl) list

theorem unlinkBlock_mem (state : LockState Owner) (waiter fl : Nat) :
    ((unlinkBlock state waiter).mem fl).flOwner = (state.mem fl).flOwner ∧
    ((unlinkBlock state waiter).mem fl).flNext = (state.mem fl).flNext ∧
    ∀ other ∈ (state.mem fl).flBlock, other ≠ waiter →
      other ∈ ((unlinkBlock state waiter).mem fl).flBlock := by
  unfold unlinkBlock
  split
  · rename_i blocker points
    change ((update state.mem blocker _) fl).flOwner = _ ∧
      ((update state.mem blocker _) fl).flNext = _ ∧
      ∀ other ∈ _, _ → other ∈ ((update state.mem blocker _) fl).flBlock
    by_cases here : fl = blocker
    · rw [here, update_self]
      exact ⟨rfl, rfl, fun other member distinct => (mem_erase_of_ne distinct).mpr member⟩
    · rw [update_of_ne here]
      exact ⟨rfl, rfl, fun other member _ => member⟩
  · exact ⟨rfl, rfl, fun other member _ => member⟩

theorem blockedList_unlinkBlock (waiter : Nat) :
    (unlinkBlock state waiter).blockedList = state.blockedList := by
  unfold unlinkBlock
  split <;> rfl

theorem blockedList_locksDeleteBlock (waiter : Nat) :
    (locksDeleteBlock state waiter).blockedList = state.blockedList.erase waiter :=
  congrArg (List.erase · waiter) (blockedList_unlinkBlock waiter)

/-- What is left for the other locks when one request leaves its queue. -/
theorem locksDeleteBlock_mem (state : LockState Owner) (waiter fl : Nat) :
    ((locksDeleteBlock state waiter).mem fl).flOwner = (state.mem fl).flOwner ∧
    (fl ≠ waiter → ((locksDeleteBlock state waiter).mem fl).flNext = (state.mem fl).flNext) ∧
    ∀ other ∈ (state.mem fl).flBlock, other ≠ waiter →
      other ∈ ((locksDeleteBlock state waiter).mem fl).flBlock := by
  obtain ⟨owner, next, queue⟩ := unlinkBlock_mem state waiter fl
  change ((update (unlinkBlock state waiter).mem waiter _) fl).flOwner = _ ∧
    (_ → ((update (unlinkBlock state waiter).mem waiter _) fl).flNext = _) ∧
    ∀ other ∈ _, _ → other ∈ ((update (unlinkBlock state waiter).mem waiter _) fl).flBlock
  by_cases here : fl = waiter
  · subst here
    rw [update_self]
    exact ⟨owner, absurd rfl, queue⟩
  · rw [update_of_ne here]
    exact ⟨owner, fun _ => next, queue⟩

section

variable (queued : Queued state live spare)

include queued

theorem Queued.delete (waiter : Nat) : Queued (locksDeleteBlock state waiter) live spare := by
  have rest : ∀ other, other ∈ (locksDeleteBlock state waiter).blockedList ↔
      other ≠ waiter ∧ other ∈ state.blockedList := by
    intro other
    rw [blockedList_locksDeleteBlock]
    exact queued.nodup.mem_erase_iff
  have owner := fun fl => (locksDeleteBlock_mem state waiter fl).1
  have next := fun fl => (locksDeleteBlock_mem state waiter fl).2.1
  constructor
  · rw [blockedList_locksDeleteBlock]
    exact queued.nodup.erase waiter
  · intro other member
    obtain ⟨distinct, blocked⟩ := (rest other).mp member
    obtain ⟨blocker, points, inQueue, alive⟩ := queued.linked other blocked
    exact ⟨blocker, (next other distinct).trans points,
      (locksDeleteBlock_mem state waiter blocker).2.2 other inQueue distinct, alive⟩
  · intro first firstMember second secondMember equal
    rw [owner, owner] at equal
    exact queued.single first ((rest first).mp firstMember).2 second
      ((rest second).mp secondMember).2 equal
  · apply queued.acyclic.mono
    rintro a b ⟨other, member, owns, blocker, points, holds⟩
    obtain ⟨distinct, blocked⟩ := (rest other).mp member
    rw [owner] at owns holds
    rw [next other distinct] at points
    exact ⟨other, blocked, owns, blocker, points, holds⟩
  · intro fl free
    obtain ⟨idle, dead⟩ := queued.unused fl free
    exact ⟨fun member => idle ((rest fl).mp member).2, dead⟩

theorem Queued.delete_all (waiters : List Nat) :
    Queued (waiters.foldl locksDeleteBlock state) live spare ∧
    ∀ other ∈ (waiters.foldl locksDeleteBlock state).blockedList,
      other ∉ waiters ∧ other ∈ state.blockedList ∧
      ((waiters.foldl locksDeleteBlock state).mem other).flNext = (state.mem other).flNext := by
  induction waiters generalizing state with
  | nil => exact ⟨queued, fun other member => ⟨not_mem_nil, member, rfl⟩⟩
  | cons waiter waiters ih =>
    obtain ⟨kept, remaining⟩ := ih (queued.delete waiter)
    apply And.intro kept
    intro other member
    obtain ⟨outside, blocked, next⟩ := remaining other member
    rw [blockedList_locksDeleteBlock, queued.nodup.mem_erase_iff] at blocked
    rw [(locksDeleteBlock_mem state waiter other).2.1 blocked.1] at next
    exact ⟨by simp [blocked.1, outside], blocked.2, next⟩

/-- A lock whose waiters have been woken can be freed. -/
theorem Queued.wake (blocker : Nat) (shrunk : ∀ fl, live fl → fl ≠ blocker → fewer fl)
    (subset : ∀ fl, fewer fl → live fl) :
    Queued (locksWakeUpBlocks state blocker) fewer spare := by
  obtain ⟨kept, remaining⟩ := queued.delete_all (state.mem blocker).flBlock
  refine { kept with linked := ?_, unused := ?_ }
  · intro waiter member
    obtain ⟨target, points, inQueue, alive⟩ := kept.linked waiter member
    apply Exists.intro target
    apply And.intro points (And.intro inQueue _)
    apply shrunk target alive
    obtain ⟨outside, blocked, next⟩ := remaining waiter member
    obtain ⟨before, pointed, waited, _⟩ := queued.linked waiter blocked
    rw [points, pointed] at next
    rintro rfl
    rw [Option.some.inj next] at outside
    exact outside waited
  · intro fl free
    exact ⟨(kept.unused fl free).1, fun alive => (kept.unused fl free).2 (subset fl alive)⟩

theorem Queued.wake_keep (blocker : Nat) :
    Queued (locksWakeUpBlocks state blocker) live spare :=
  queued.wake blocker (fun _ alive _ => alive) fun _ alive => alive

end

theorem Queued.adopt {more : Nat → Prop} {fl : Nat} (queued : Queued state live (fl :: spare))
    (grown : ∀ other, live other → more other)
    (subset : ∀ other, more other → live other ∨ other = fl)
    (distinct : fl ∉ spare) : Queued state more spare := by
  refine { queued with linked := ?_, unused := ?_ }
  · intro waiter member
    obtain ⟨blocker, points, inQueue, alive⟩ := queued.linked waiter member
    exact ⟨blocker, points, inQueue, grown blocker alive⟩
  · intro other free
    obtain ⟨idle, dead⟩ := queued.unused other (mem_cons_of_mem _ free)
    apply And.intro idle
    intro alive
    rcases subset other alive with old | rfl
    · exact dead old
    · exact distinct free

theorem links_locksCopyLock (new fl other : Nat) (distinct : other ≠ new) :
    (locksCopyLock state new fl).links other = state.links other := by
  change (fun held : FileLock Owner => (held.flOwner, held.flNext, held.flBlock))
    (update state.mem new _ other) = _
  rw [update_of_ne distinct]
  rfl

/-- The locks that are live while one list is worked on. -/
def Scan.Live (outside : Nat → Prop) (scan : Scan Owner) (fl : Nat) : Prop :=
  outside fl ∨ fl ∈ scan.passed ++ scan.rest

def Scan.Queued (outside : Nat → Prop) (spare : List Nat) (scan : Scan Owner) : Prop :=
  FileLocks.Queued scan.state (scan.Live outside) spare

variable {outside : Nat → Prop}

variable {scan : Scan Owner} {newFl2 : Nat}

/-- A copy goes to a spare address in front of `*before`. -/
theorem Scan.Queued.insert {new : Nat} (fl : Nat) (fresh : new ∉ spare)
    (queued : scan.Queued outside (new :: spare)) :
    FileLocks.Queued (locksCopyLock scan.state new fl)
      (fun other => outside other ∨ other ∈ scan.passed ++ new :: scan.rest) spare := by
  have copied : FileLocks.Queued (locksCopyLock scan.state new fl) (scan.Live outside)
      (new :: spare) := by
    refine queued.congr ?_ rfl
    intro other used
    exact links_locksCopyLock new fl other fun same => used (by simp [same])
  apply copied.adopt _ _ fresh
  · rintro other (alive | member)
    · exact .inl alive
    · apply Or.inr
      simp only [mem_append, mem_cons] at member ⊢
      tauto
  · rintro other (alive | member)
    · exact .inl (.inl alive)
    · simp only [mem_append, mem_cons] at member
      unfold Scan.Live
      rw [mem_append]
      tauto

theorem insertNew_queued {newFl : Nat} (distinct : newFl ≠ newFl2)
    (queued : scan.Queued outside [newFl, newFl2]) :
    (insertNew newFl scan).Queued outside [newFl2] := by
  have fresh : newFl ∉ [newFl2] := by simpa using distinct
  unfold insertNew
  split
  · exact queued.adopt (fun other alive => alive) (fun _ => .inl) fresh
  · exact queued.insert _ fresh

theorem cutRight_queued (queued : scan.Queued outside [newFl2]) :
    (cutRight newFl2 scan).Queued outside [] := by
  have unsplit : Queued scan.state (scan.Live outside) [] :=
    queued.adopt (fun other alive => alive) (fun _ => .inl) not_mem_nil
  unfold cutRight
  split
  · exact unsplit
  · rename_i right _
    split
    · have parted := queued.insert right not_mem_nil
      exact (parted.of_links (links_setStart _ _) rfl).wake_keep right
    · exact (unsplit.of_links (links_setStart _ _) rfl).wake_keep right

theorem cutLeft_queued (queued : scan.Queued outside []) : (cutLeft scan).Queued outside [] := by
  unfold cutLeft
  split
  · exact queued
  · exact (queued.of_links (links_setEnd _ _) rfl).wake_keep _

theorem finishScan_queued {newFl : Nat} (distinct : newFl ≠ newFl2)
    (queued : scan.Queued outside [newFl, newFl2]) :
    Queued (finishScan newFl newFl2 scan)
      (fun fl => outside fl ∨ fl ∈ (finishScan newFl newFl2 scan).iFlock) [] := by
  have committed : ∀ {done : Scan Owner}, Queued done.state (done.Live outside) [] →
      Queued done.commit (fun fl => outside fl ∨ fl ∈ done.commit.iFlock) [] :=
    fun kept => { kept with }
  unfold finishScan
  split
  · apply committed
    exact { queued with unused := by simp }
  · exact committed (cutLeft_queued (cutRight_queued (insertNew_queued distinct queued)))

variable [DecidableEq Owner]

/-- Every lock that the loop takes off the list has been freed of its waiters. -/
theorem processLocks_queued (passed : List Nat) (request : Nat) (added : Bool)
    (left : Option Nat) (rest : List Nat)
    (queued : Queued state (fun fl => outside fl ∨ fl ∈ passed ++ rest) spare) :
    (processLocks state passed request added left rest).Queued outside spare := by
  induction rest generalizing state passed request added left with
  | nil => exact queued
  | cons fl rest ih =>
    have moved : Queued state (fun other => outside other ∨ other ∈ (passed ++ [fl]) ++ rest)
        spare := by
      simpa using queued
    have dropped : ∀ {middle : LockState Owner}, middle.links = state.links →
        middle.blockedList = state.blockedList →
        Queued (locksWakeUpBlocks middle fl) (fun other => outside other ∨ other ∈ passed ++ rest)
          spare := by
      intro middle kept list
      apply (queued.of_links kept list).wake fl
      · rintro other (alive | member) distinct
        · exact .inl alive
        · simp only [mem_append, mem_cons, distinct, false_or] at member
          exact .inr (mem_append.mpr member)
      · rintro other (alive | member)
        · exact .inl alive
        · apply Or.inr
          simp only [mem_append, mem_cons] at member ⊢
          tauto
    rw [processLocks]
    dsimp only
    generalize (if (state.mem request).flType = .unlck then true else added) = taken
    split
    · exact queued
    split
    · split
      · exact ih _ _ _ _ moved
      split
      · exact queued
      split
      · exact ih _ _ _ _ (dropped (links_joinLocks _ _) (blockedList_joinLocks _ _))
      · exact ih _ _ _ _ (moved.of_links (links_joinLocks _ _) (blockedList_joinLocks _ _))
    split
    · exact ih _ _ _ _ moved
    split
    · exact queued
    split
    · exact queued
    split
    · split
      · exact ih _ _ _ _ (dropped rfl rfl)
      · exact ih _ _ _ _ ((moved.wake_keep fl).of_links (links_write_same fl _ rfl) rfl)
    · exact ih _ _ _ _ moved

theorem applyLock_queued {request newFl newFl2 : Nat} (distinct : newFl ≠ newFl2)
    (queued : Queued state (fun fl => outside fl ∨ fl ∈ state.iFlock) [newFl, newFl2]) :
    Queued (applyLock state request newFl newFl2)
      (fun fl => outside fl ∨ fl ∈ (applyLock state request newFl newFl2).iFlock) [] := by
  apply finishScan_queued distinct
  apply processLocks_queued
  rw [takeWhile_append_dropWhile]
  exact queued

end Queues

section Link

variable {state : LockState Owner} {live : Nat → Prop} {spare : List Nat}

/-- The writes of `locks_insert_block` to the two locks. -/
def linkBlock (state : LockState Owner) (blocker waiter : Nat) : LockState Owner :=
  (state.setBlock blocker ((state.mem blocker).flBlock ++ [waiter])).setNext waiter (some blocker)

theorem linkBlock_mem (state : LockState Owner) (blocker waiter fl : Nat) :
    ((linkBlock state blocker waiter).mem fl).flOwner = (state.mem fl).flOwner ∧
    ((linkBlock state blocker waiter).mem fl).flNext =
      (if fl = waiter then some blocker else (state.mem fl).flNext) ∧
    ((linkBlock state blocker waiter).mem fl).flBlock =
      (if fl = blocker then (state.mem fl).flBlock ++ [waiter] else (state.mem fl).flBlock) := by
  unfold linkBlock LockState.setNext LockState.setBlock LockState.write
  by_cases waits : fl = waiter
  · subst waits
    by_cases blocks : fl = blocker
    · subst blocks
      simp
    · simp [blocks]
  · by_cases blocks : fl = blocker
    · subst blocks
      simp [waits]
    · simp [waits, blocks]

section

variable {blocker waiter : Nat} (queued : Queued state live [waiter]) (alive : live blocker)
  (alone : ∀ other ∈ state.blockedList, (state.mem other).flOwner ≠ (state.mem waiter).flOwner)
  (apart : ¬ReflTransGen state.WaitsFor (state.mem blocker).flOwner (state.mem waiter).flOwner)

include queued alive alone apart

/-- A request that is not blocked yet adds one edge. -/
theorem Queued.link :
    Queued { linkBlock state blocker waiter with blockedList := waiter :: state.blockedList }
      live [] := by
  have owner := fun fl => (linkBlock_mem state blocker waiter fl).1
  have next := fun fl => (linkBlock_mem state blocker waiter fl).2.1
  have queue := fun fl => (linkBlock_mem state blocker waiter fl).2.2
  have idle := (queued.unused waiter mem_cons_self).1
  have others : ∀ other ∈ state.blockedList, other ≠ waiter :=
    fun other member same => idle (same ▸ member)
  have first : ((linkBlock state blocker waiter).mem waiter).flNext = some blocker := by
    rw [next, if_pos rfl]
  have later : ∀ other ∈ state.blockedList,
      ((linkBlock state blocker waiter).mem other).flNext = (state.mem other).flNext := by
    intro other member
    rw [next, if_neg (others other member)]
  constructor
  · exact nodup_cons.mpr ⟨idle, queued.nodup⟩
  · intro other member
    rcases mem_cons.mp member with rfl | old
    · exact ⟨blocker, first, by rw [queue, if_pos rfl]; simp, alive⟩
    · obtain ⟨target, points, inQueue, living⟩ := queued.linked other old
      refine ⟨target, (later other old).trans points, ?_, living⟩
      rw [queue]
      split
      · exact mem_append_left _ inQueue
      · exact inQueue
  · intro one oneMember two twoMember equal
    rw [owner, owner] at equal
    rcases mem_cons.mp oneMember with rfl | oneOld <;>
      rcases mem_cons.mp twoMember with rfl | twoOld
    · rfl
    · exact absurd equal.symm (alone two twoOld)
    · exact absurd equal (alone one oneOld)
    · exact queued.single one oneOld two twoOld equal
  · apply queued.acyclic.insert apart
    rintro a b ⟨other, member, owns, target, points, holds⟩
    rw [owner] at owns holds
    rcases mem_cons.mp member with rfl | old
    · rw [first] at points
      cases points
      exact .inr ⟨owns.symm, holds.symm⟩
    · rw [later other old] at points
      exact .inl ⟨other, old, owns, target, points, holds⟩
  · simp

theorem Queued.block (posix : (state.mem blocker).flPosix = true) :
    Queued (locksInsertBlock state blocker waiter) live [] := by
  have idle := (queued.unused waiter mem_cons_self).1
  have insert : ∀ {base : LockState Owner}, Queued base live [waiter] → base.view = state.view →
      base.blockedList = state.blockedList →
      (∀ a b, base.WaitsFor a b → state.WaitsFor a b) →
      Queued (if ((linkBlock base blocker waiter).mem blocker).flPosix then
        { linkBlock base blocker waiter with blockedList := waiter :: base.blockedList }
        else linkBlock base blocker waiter) live [] := by
    intro base kept view list fewer
    have owner : ∀ fl, (base.mem fl).flOwner = (state.mem fl).flOwner :=
      fun fl => congrArg View.owner (congrFun view fl)
    have sameView : (linkBlock base blocker waiter).view = state.view :=
      (view_setNext _ waiter _).trans ((view_setBlock base blocker _).trans view)
    have stillPosix : ((linkBlock base blocker waiter).mem blocker).flPosix = true :=
      (congrArg View.posix (congrFun sameView blocker)).trans posix
    rw [if_pos stillPosix]
    apply kept.link alive
    · intro other member
      rw [list] at member
      rw [owner, owner]
      exact alone other member
    · rw [owner, owner]
      exact fun path => apart (ReflTransGen.mono fewer _ _ path)
  unfold locksInsertBlock
  split
  · apply insert (queued.delete waiter) (view_locksDeleteBlock state waiter)
    · rw [blockedList_locksDeleteBlock, erase_of_not_mem idle]
    · rintro a b ⟨other, member, owns, target, points, holds⟩
      rw [blockedList_locksDeleteBlock, erase_of_not_mem idle] at member
      rw [(locksDeleteBlock_mem state waiter _).1] at owns holds
      rw [(locksDeleteBlock_mem state waiter other).2.1 fun same => idle (same ▸ member)] at points
      exact ⟨other, member, owns, target, points, holds⟩
  · exact insert queued rfl rfl fun _ _ edge => edge

end

end Link

end MagxKernel.FileLocks
