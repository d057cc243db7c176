import MagxKernel.FileLocks.Queues

namespace MagxKernel.FileLocks

open Runs WaitsFor List
open Relation (ReflTransGen)

variable {Inode Owner : Type}

section Walk

variable [DecidableEq Owner] {state : LockState Owner} {live : Nat → Prop} {spare : List Nat}

/-- One turn of the walk follows an edge or ends. -/
theorem posixLocksDeadlock_succ (callerFl : FileLock Owner) (fuel blockFl : Nat) :
    posixLocksDeadlock state callerFl (fuel + 1) blockFl =
      if callerFl.flOwner = (state.mem blockFl).flOwner then some true
      else
        match state.blockedList.find? fun fl =>
          decide ((state.mem fl).flOwner = (state.mem blockFl).flOwner) with
        | none => some false
        | some fl =>
          match (state.mem fl).flNext with
          | none => none
          | some next => posixLocksDeadlock state callerFl fuel next := by
  split
  · rename_i same
    exact if_pos (decide_eq_true same)
  · rename_i same
    exact if_neg (ne_true_of_eq_false (decide_eq_false same))

section

variable (queued : Queued state live spare) (callerFl : FileLock Owner)

include queued callerFl

/-- With one request for each owner the walk misses nobody. -/
theorem Queued.unreachable (fuel blockFl : Nat)
    (clear : posixLocksDeadlock state callerFl fuel blockFl = some false) :
    ¬ReflTransGen state.WaitsFor (state.mem blockFl).flOwner callerFl.flOwner := by
  induction fuel generalizing blockFl with
  | zero => cases clear
  | succ fuel ih =>
    rw [posixLocksDeadlock_succ] at clear
    split at clear
    · cases clear
    rename_i other
    intro path
    rcases path.cases_head with same | ⟨holding, ⟨waiter, member, owns, blocker, next, holds⟩, rest⟩
    · exact other same.symm
    split at clear
    · rename_i missing
      have absent := find?_eq_none.mp missing waiter member
      simp [owns] at absent
    · rename_i fl found
      have owner : (state.mem fl).flOwner = (state.mem blockFl).flOwner := by
        simpa using find?_some found
      have same : fl = waiter :=
        queued.single fl (mem_of_find?_eq_some found) waiter member (owner.trans owns.symm)
      rw [same, next] at clear
      rw [← holds] at rest
      exact ih blocker clear rest

/-- The walk ends: every turn leaves the request it has followed behind. -/
theorem Queued.walk_returns (bound blockFl : Nat)
    (short : ahead state.WaitsFor (fun fl => (state.mem fl).flOwner) state.blockedList
      (state.mem blockFl).flOwner ≤ bound) :
    ∃ answer, ∀ fuel, bound ≤ fuel →
      posixLocksDeadlock state callerFl (fuel + 1) blockFl = some answer := by
  induction bound using Nat.strongRecOn generalizing blockFl with
  | ind bound ih =>
    by_cases same : callerFl.flOwner = (state.mem blockFl).flOwner
    · exists true
      intro fuel _
      rw [posixLocksDeadlock_succ, if_pos same]
    cases found : state.blockedList.find? fun fl =>
        decide ((state.mem fl).flOwner = (state.mem blockFl).flOwner) with
    | none =>
      exists false
      intro fuel _
      rw [posixLocksDeadlock_succ, if_neg same, found]
    | some fl =>
      have member := mem_of_find?_eq_some found
      have owner : (state.mem fl).flOwner = (state.mem blockFl).flOwner := by
        simpa using find?_some found
      obtain ⟨next, points, _⟩ := queued.linked fl member
      have edge : state.WaitsFor (state.mem blockFl).flOwner (state.mem next).flOwner :=
        ⟨fl, member, owner, next, points, rfl⟩
      have closer : ahead state.WaitsFor (fun fl => (state.mem fl).flOwner) state.blockedList
          (state.mem next).flOwner < ahead state.WaitsFor (fun fl => (state.mem fl).flOwner)
          state.blockedList (state.mem blockFl).flOwner :=
        ahead_lt queued.acyclic edge member owner
      obtain ⟨answer, returns⟩ := ih _ (by omega) next (Nat.le_refl _)
      exists answer
      intro fuel enough
      obtain ⟨fuel, rfl⟩ := Nat.exists_eq_add_one_of_ne_zero (by omega : fuel ≠ 0)
      rw [posixLocksDeadlock_succ, if_neg same, found]
      dsimp only
      rw [points]
      exact returns fuel (by omega)

theorem Queued.deadlock_returns (blockFl : Nat) :
    ∃ answer, ∀ fuel, state.blockedList.length < fuel →
      posixLocksDeadlock state callerFl fuel blockFl = some answer := by
  obtain ⟨answer, returns⟩ := queued.walk_returns callerFl _ blockFl (ahead_le _)
  exists answer
  intro fuel enough
  obtain ⟨fuel, rfl⟩ := Nat.exists_eq_add_one_of_ne_zero (by omega : fuel ≠ 0)
  exact returns fuel (by omega)

end

end Walk

section Call

variable {state : LockState Owner} {live : Nat → Prop} {spare : List Nat} {outside : Nat → Prop}

theorem Queued.reserve (queued : Queued state live [])
    (unused : ∀ fl ∈ spare, fl ∉ state.blockedList ∧ ¬live fl) : Queued state live spare :=
  { queued with unused := unused }

theorem Queued.release (queued : Queued state live spare) : Queued state live [] :=
  { queued with unused := by simp }

theorem findConflict_eq_some [DecidableEq Owner] {request fl : Nat}
    (found : findConflict state request = some fl) :
    fl ∈ state.iFlock ∧ (state.mem fl).flPosix = true := by
  unfold findConflict at found
  split at found
  · cases found
  have conflict := find?_some found
  rw [Bool.and_eq_true] at conflict
  exact ⟨mem_of_find?_eq_some found, conflict.1⟩

/-- A call returns, and the queues stay as they should be if the owner of a
request that has to wait was not waiting before. -/
theorem Queued.posixLockFile [DecidableEq Owner] {request : Nat} {newFl newFl2 : Option Nat}
    (queued : Queued state (fun fl => outside fl ∨ fl ∈ state.iFlock) [request])
    (unused : ∀ fl ∈ newFl, fl ∉ state.blockedList ∧ ¬(outside fl ∨ fl ∈ state.iFlock))
    (unused2 : ∀ fl ∈ newFl2, fl ∉ state.blockedList ∧ ¬(outside fl ∨ fl ∈ state.iFlock))
    (distinct : ∀ fl ∈ newFl2, newFl ≠ some fl)
    (alone : (state.mem request).flSleep = true → (findConflict state request).isSome →
      ∀ waiter ∈ state.blockedList, (state.mem waiter).flOwner ≠ (state.mem request).flOwner) :
    ∃ error after, posixLockFile (state.blockedList.length + 1) state request newFl newFl2 =
        some (error, after) ∧
      Queued after (fun fl => outside fl ∨ fl ∈ after.iFlock) [] := by
  unfold FileLocks.posixLockFile
  cases found : findConflict state request with
  | some fl =>
    obtain ⟨member, posix⟩ := findConflict_eq_some found
    dsimp only
    split
    · exact ⟨_, _, rfl, queued.release⟩
    · rename_i sleeps
      obtain ⟨answer, returns⟩ := queued.deadlock_returns (state.mem request) fl
      have walked := returns _ (Nat.lt_succ_self _)
      rw [walked]
      cases answer with
      | true => exact ⟨_, _, rfl, queued.release⟩
      | false =>
        refine ⟨_, _, rfl, ?_⟩
        rw [iFlock_locksInsertBlock]
        apply queued.block (.inr member) ?_ ?_ posix
        · exact alone (by simpa using sleeps) (by rw [found]; rfl)
        · exact queued.unreachable _ _ _ walked
  | none =>
    dsimp only
    split
    · exact ⟨_, _, rfl, queued.release⟩
    split
    · rename_i new new2
      refine ⟨_, _, rfl, ?_⟩
      apply applyLock_queued
      · exact fun same => distinct new2 rfl (congrArg some same)
      · apply queued.release.reserve
        intro fl member
        simp only [mem_cons, not_mem_nil, or_false] at member
        rcases member with rfl | rfl
        · exact unused fl rfl
        · exact unused2 fl rfl
    · exact ⟨_, _, rfl, queued.release⟩

end Call

/-- The lock lists of all inodes share the memory and `blocked_list`. -/
structure Locks (Inode Owner : Type) where
  mem : Nat → FileLock Owner
  iFlock : Inode → List Nat
  blockedList : List Nat

namespace Locks

def on (locks : Locks Inode Owner) (inode : Inode) : LockState Owner :=
  ⟨locks.mem, locks.iFlock inode, locks.blockedList⟩

def put [DecidableEq Inode] (locks : Locks Inode Owner) (inode : Inode)
    (state : LockState Owner) : Locks Inode Owner :=
  ⟨state.mem, Function.update locks.iFlock inode state.iFlock, state.blockedList⟩

def WaitsFor (locks : Locks Inode Owner) (waiting holding : Owner) : Prop :=
  ∃ waiter ∈ locks.blockedList, (locks.mem waiter).flOwner = waiting ∧
    ∃ blocker, (locks.mem waiter).flNext = some blocker ∧ (locks.mem blocker).flOwner = holding

/-- An address that is in no list. -/
def Unused (locks : Locks Inode Owner) (fl : Nat) : Prop :=
  fl ∉ locks.blockedList ∧ ∀ inode, fl ∉ locks.iFlock inode

/-- A lock in the list of another inode. -/
def Elsewhere (locks : Locks Inode Owner) (inode : Inode) (fl : Nat) : Prop :=
  ∃ other, other ≠ inode ∧ fl ∈ locks.iFlock other

/-- The invariant of the queues over all inodes. -/
def Sound (locks : Locks Inode Owner) : Prop :=
  Queued ⟨locks.mem, [], locks.blockedList⟩ (fun fl => ∃ inode, fl ∈ locks.iFlock inode) []

variable {locks : Locks Inode Owner}

theorem live_iff (locks : Locks Inode Owner) (inode : Inode) (fl : Nat) :
    (∃ other, fl ∈ locks.iFlock other) ↔ locks.Elsewhere inode fl ∨ fl ∈ locks.iFlock inode := by
  constructor
  · rintro ⟨other, member⟩
    by_cases same : other = inode
    · exact .inr (same ▸ member)
    · exact .inl ⟨other, same, member⟩
  · rintro (⟨other, _, member⟩ | member)
    · exact ⟨other, member⟩
    · exact ⟨inode, member⟩

theorem Sound.on (sound : locks.Sound) (inode : Inode) :
    Queued (locks.on inode) (fun fl => locks.Elsewhere inode fl ∨ fl ∈ (locks.on inode).iFlock)
      [] := by
  have same := funext fun fl => propext (live_iff locks inode fl)
  unfold Sound at sound
  rw [same] at sound
  exact { sound with }

theorem Unused.outside {fl : Nat} (unused : locks.Unused fl) (inode : Inode) :
    fl ∉ (locks.on inode).blockedList ∧
      ¬(locks.Elsewhere inode fl ∨ fl ∈ (locks.on inode).iFlock) := by
  apply And.intro unused.1
  intro listed
  obtain ⟨other, member⟩ := (live_iff locks inode fl).mpr listed
  exact unused.2 other member

theorem sound_put [DecidableEq Inode] {inode : Inode} {state : LockState Owner}
    (queued : Queued state (fun fl => locks.Elsewhere inode fl ∨ fl ∈ state.iFlock) []) :
    (locks.put inode state).Sound := by
  have same : (fun fl => ∃ other, fl ∈ (locks.put inode state).iFlock other) =
      fun fl => locks.Elsewhere inode fl ∨ fl ∈ state.iFlock := by
    funext fl
    rw [live_iff _ inode]
    change ((∃ other, other ≠ inode ∧ fl ∈ Function.update locks.iFlock inode state.iFlock other) ∨
      fl ∈ Function.update locks.iFlock inode state.iFlock inode) = _
    rw [Function.update_self]
    refine propext (or_congr_left (exists_congr fun other => and_congr_right fun distinct => ?_))
    rw [Function.update_of_ne distinct]
  unfold Sound
  rw [same]
  exact { queued with }

end Locks

/-- A system in which nobody has locked anything. -/
def unlocked (mem : Nat → FileLock Owner) : Locks Inode Owner := ⟨mem, fun _ => [], []⟩

theorem unlocked_sound (mem : Nat → FileLock Owner) : (unlocked mem : Locks Inode Owner).Sound := by
  constructor
  · exact nodup_nil
  · simp [unlocked]
  · simp [unlocked]
  · intro owner cycle
    obtain ⟨_, ⟨waiter, blocked, _⟩, _⟩ := Relation.TransGen.head'_iff.mp cycle
    cases blocked
  · simp

/-- Some thread calls `__posix_lock_file`, or a signal ends the wait of a request
and `locks_delete_block` takes it off its queue. -/
inductive LockEvent (Inode Owner : Type) where
  | lock (inode : Inode) (call : Call Owner)
  | interrupt (inode : Inode) (waiter : Nat)

variable [DecidableEq Owner]

/-- The walk may take one turn more than there are blocked requests. -/
def lockEvent [DecidableEq Inode] (locks : Locks Inode Owner) :
    LockEvent Inode Owner → Option (Locks Inode Owner)
  | .lock inode call =>
    (lockStep (locks.blockedList.length + 1) (locks.on inode) call).map (locks.put inode)
  | .interrupt inode waiter => some (locks.put inode (locksDeleteBlock (locks.on inode) waiter))

namespace LockEvent

/-- A request is filled in while it is in no list, and the allocator returns
locks that are in none. -/
def Valid (locks : Locks Inode Owner) : LockEvent Inode Owner → Prop
  | .lock _ call =>
    locks.Unused call.request ∧ (∀ fl ∈ call.newFl, locks.Unused fl) ∧
      ∀ fl ∈ call.newFl2, locks.Unused fl ∧ call.newFl ≠ some fl
  | .interrupt _ _ => True

/-- When a request has to wait, no other request of its owner is waiting. -/
def OnlyWait (locks : Locks Inode Owner) : LockEvent Inode Owner → Prop
  | .lock inode call =>
    call.lock.flSleep = true → (findConflict (call.fill (locks.on inode)) call.request).isSome →
      ∀ waiter ∈ locks.blockedList, (locks.mem waiter).flOwner ≠ call.lock.flOwner
  | .interrupt _ _ => True

end LockEvent

section Step

variable [DecidableEq Inode] {locks : Locks Inode Owner}

/-- What one event does: it always has a result, which keeps the invariant. -/
theorem lockEvent_sound (event : LockEvent Inode Owner) (sound : locks.Sound)
    (valid : event.Valid locks) (onlyWait : event.OnlyWait locks) :
    ∃ next, lockEvent locks event = some next ∧ next.Sound := by
  cases event with
  | interrupt inode waiter =>
    refine ⟨_, rfl, ?_⟩
    apply Locks.sound_put
    rw [iFlock_locksDeleteBlock]
    exact (sound.on inode).delete waiter
  | lock inode call =>
    obtain ⟨request, new, new2⟩ := valid
    have filled : (call.fill (locks.on inode)).mem call.request =
        { call.lock with
          flNext := ((locks.on inode).mem call.request).flNext
          flBlock := ((locks.on inode).mem call.request).flBlock } := Function.update_self _ _ _
    have others : ∀ fl, fl ≠ call.request →
        (call.fill (locks.on inode)).mem fl = locks.mem fl :=
      fun fl distinct => Function.update_of_ne distinct _ _
    have queued : Queued (call.fill (locks.on inode))
        (fun fl => locks.Elsewhere inode fl ∨ fl ∈ (locks.on inode).iFlock) [call.request] := by
      refine ((sound.on inode).reserve ?_).congr ?_ rfl
      · exact forall_mem_singleton.mpr (request.outside inode)
      · intro fl used
        have distinct : fl ≠ call.request := by simpa using used
        unfold LockState.links
        rw [others fl distinct]
        rfl
    obtain ⟨error, after, called, kept⟩ := queued.posixLockFile
      (fun fl member => (new fl member).outside inode)
      (fun fl member => (new2 fl member).1.outside inode)
      (fun fl member => (new2 fl member).2)
      (by
        intro sleeps conflict waiter member
        rw [filled] at sleeps ⊢
        have distinct : waiter ≠ call.request := fun same => request.1 (same ▸ member)
        rw [others waiter distinct]
        exact onlyWait sleeps conflict waiter member)
    refine ⟨locks.put inode after, ?_, Locks.sound_put kept⟩
    change ((posixLockFile _ _ _ _ _).map Prod.snd).map _ = _
    rw [show posixLockFile (locks.blockedList.length + 1) _ _ _ _ = _ from called]
    rfl

end Step

/-- In every run in which an owner has at most one request waiting, nobody waits
for himself through others, and the walk of `posix_locks_deadlock` ends with an
answer that does not depend on how many further turns it may take. -/
theorem waits_acyclic_of_onlyWait [DecidableEq Inode] (mem : Nat → FileLock Owner)
    (events : List (LockEvent Inode Owner))
    (permitted : Along lockEvent
      (fun locks event => event.Valid locks ∧ event.OnlyWait locks) (unlocked mem) events) :
    ∃ final, run lockEvent (unlocked mem) events = some final ∧ Acyclic final.WaitsFor ∧
      ∀ inode callerFl blockFl, ∃ answer, ∀ fuel, final.blockedList.length < fuel →
        posixLocksDeadlock (final.on inode) callerFl fuel blockFl = some answer := by
  obtain ⟨final, executed, sound⟩ := run_total (fun _ event sound allowed =>
    lockEvent_sound event sound allowed.1 allowed.2) events _ (unlocked_sound mem) permitted
  exact ⟨final, executed, sound.acyclic, fun inode => (sound.on inode).deadlock_returns⟩

instance (locks : Locks Bool Owner) : (event : LockEvent Bool Owner) → Decidable (event.Valid locks)
  | .lock _ _ => by unfold LockEvent.Valid Locks.Unused; infer_instance
  | .interrupt _ _ => isTrue trivial

instance (locks : Locks Inode Owner) :
    (event : LockEvent Inode Owner) → Decidable (event.OnlyWait locks)
  | .lock _ _ => by unfold LockEvent.OnlyWait; infer_instance
  | .interrupt _ _ => isTrue trivial

/-- A request for one byte that may sleep. -/
def setlkw (owner : Nat) (type : LockType) (byte : Int) (address : Nat) : Call Nat :=
  ⟨address, { flOwner := owner, flType := type, flStart := byte, flEnd := byte, flSleep := true },
    some (address + 1), some (address + 2)⟩

/-- Two owners that want each other's byte: the second one is turned away. -/
def crossedLocks : List (LockEvent Bool Nat) :=
  [.lock false (setlkw 0 .wrlck 0 10), .lock true (setlkw 1 .wrlck 0 20),
    .lock true (setlkw 0 .wrlck 0 30), .lock false (setlkw 1 .wrlck 0 40), .interrupt true 30]

theorem waits_acyclic_of_onlyWait_crossedLocks :
    ∃ final : Locks Bool Nat, run lockEvent (unlocked noLocks.mem) crossedLocks = some final ∧
      Acyclic final.WaitsFor ∧
      ∀ inode callerFl blockFl, ∃ answer, ∀ fuel, final.blockedList.length < fuel →
        posixLocksDeadlock (final.on inode) callerFl fuel blockFl = some answer :=
  waits_acyclic_of_onlyWait noLocks.mem crossedLocks (by decide +kernel)

/-- Between two locks whose owners wait for each other the walk never ends. -/
theorem posixLocksDeadlock_spins {state : LockState Owner} {callerFl : FileLock Owner}
    {one : Nat} (two waiter other : Nat)
    (oneForeign : callerFl.flOwner ≠ (state.mem one).flOwner)
    (twoForeign : callerFl.flOwner ≠ (state.mem two).flOwner)
    (oneWaits : (state.blockedList.find? fun fl =>
      decide ((state.mem fl).flOwner = (state.mem one).flOwner)) = some waiter)
    (oneNext : (state.mem waiter).flNext = some two)
    (twoWaits : (state.blockedList.find? fun fl =>
      decide ((state.mem fl).flOwner = (state.mem two).flOwner)) = some other)
    (twoNext : (state.mem other).flNext = some one) (fuel : Nat) :
    posixLocksDeadlock state callerFl fuel one = none ∧
      posixLocksDeadlock state callerFl fuel two = none := by
  induction fuel with
  | zero => exact ⟨rfl, rfl⟩
  | succ fuel ih =>
    constructor
    · rw [posixLocksDeadlock_succ, if_neg oneForeign, oneWaits]
      dsimp only
      rw [oneNext]
      exact ih.2
    · rw [posixLocksDeadlock_succ, if_neg twoForeign, twoWaits]
      dsimp only
      rw [twoNext]
      exact ih.1

/-- Two threads of owner 0 wait, one for owner 1 and one for owner 2. The walk for
owner 1 only follows the second of them, so that owner 1 may wait for owner 0.
Then owner 2 unlocks its byte. -/
def twoThreads : List (LockEvent Bool Nat) :=
  [.lock false (setlkw 1 .wrlck 0 10), .lock false (setlkw 2 .wrlck 1 20),
    .lock false (setlkw 0 .wrlck 2 30), .lock false (setlkw 0 .wrlck 0 40),
    .lock false (setlkw 0 .wrlck 1 50), .lock false (setlkw 1 .wrlck 2 60),
    .lock false (setlkw 2 .unlck 1 70)]

theorem twoThreads_deadlock :
    Along lockEvent (fun locks event => event.Valid locks)
      (unlocked noLocks.mem : Locks Bool Nat) twoThreads ∧
    ∃ final : Locks Bool Nat, run lockEvent (unlocked noLocks.mem) twoThreads = some final ∧
      ¬Acyclic final.WaitsFor ∧
      ∀ fuel, posixLocksDeadlock (final.on false) (setlkw 3 .wrlck 2 80).lock fuel 31 = none := by
  apply And.intro (by decide +kernel)
  refine ⟨_, rfl, ?_, ?_⟩
  · intro acyclic
    apply acyclic 0
    apply Relation.TransGen.tail (b := 1)
    · apply Relation.TransGen.single
      exact ⟨40, by decide +kernel, by decide +kernel, 11, by decide +kernel, by decide +kernel⟩
    · exact ⟨60, by decide +kernel, by decide +kernel, 31, by decide +kernel, by decide +kernel⟩
  · intro fuel
    refine (posixLocksDeadlock_spins 11 40 60 ?_ ?_ ?_ ?_ ?_ ?_ fuel).1 <;> decide +kernel

end MagxKernel.FileLocks
