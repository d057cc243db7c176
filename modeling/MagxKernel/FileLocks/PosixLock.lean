import Mathlib.Algebra.Group.Int.Defs
import Mathlib.Algebra.Group.Nat.Defs
import Mathlib.Logic.Function.Basic

namespace MagxKernel.FileLocks

abbrev offsetMax : Int := 2 ^ 63 - 1

abbrev eagain : Int := 11
abbrev edeadlk : Int := 35
abbrev enolck : Int := 37

/-- A `loff_t` after an addition or a subtraction. -/
def loff (value : Int) : Int := Int.bmod value (2 ^ 64)

inductive LockType where
  | rdlck
  | wrlck
  | unlck
deriving DecidableEq

variable {Owner : Type} [DecidableEq Owner]

/-- `struct file_lock`. The three flags are the bits of `fl_flags` that POSIX
locking reads; `flNext` is the blocker of a waiting request, `flBlock` the
requests that wait for this lock. -/
structure FileLock (Owner : Type) where
  flOwner : Owner
  flType : LockType
  flStart : Int
  flEnd : Int
  flPosix : Bool := true
  flSleep : Bool := false
  flAccess : Bool := false
  flNext : Option Nat := none
  flBlock : List Nat := []

/-- The locks in memory, the list of one inode as the addresses along
`i_flock`, and the global list of blocked requests. -/
structure LockState (Owner : Type) where
  mem : Nat → FileLock Owner
  iFlock : List Nat
  blockedList : List Nat

namespace LockState

def write (state : LockState Owner) (address : Nat) (lock : FileLock Owner) : LockState Owner :=
  { state with mem := Function.update state.mem address lock }

def setStart (state : LockState Owner) (address : Nat) (start : Int) : LockState Owner :=
  state.write address { state.mem address with flStart := start }

def setEnd (state : LockState Owner) (address : Nat) (stop : Int) : LockState Owner :=
  state.write address { state.mem address with flEnd := stop }

def setNext (state : LockState Owner) (address : Nat) (next : Option Nat) : LockState Owner :=
  state.write address { state.mem address with flNext := next }

def setBlock (state : LockState Owner) (address : Nat) (waiters : List Nat) : LockState Owner :=
  state.write address { state.mem address with flBlock := waiters }

end LockState

def locksOverlap (fl1 fl2 : FileLock Owner) : Bool :=
  decide (fl2.flStart ≤ fl1.flEnd) && decide (fl1.flStart ≤ fl2.flEnd)

/-- Locks without a lock manager: owners are compared as pointers. -/
def posixSameOwner (fl1 fl2 : FileLock Owner) : Bool :=
  decide (fl1.flOwner = fl2.flOwner)

def locksConflict (callerFl sysFl : FileLock Owner) : Bool :=
  if sysFl.flType = .wrlck then true
  else if callerFl.flType = .wrlck then true
  else false

def posixLocksConflict (callerFl sysFl : FileLock Owner) : Bool :=
  if !sysFl.flPosix || posixSameOwner callerFl sysFl then false
  else if !locksOverlap callerFl sysFl then false
  else locksConflict callerFl sysFl

/-- Take a waiter out of its blocker's queue. -/
def unlinkBlock (state : LockState Owner) (waiter : Nat) : LockState Owner :=
  match (state.mem waiter).flNext with
  | some blocker => state.setBlock blocker ((state.mem blocker).flBlock.erase waiter)
  | none => state

/-- `__locks_delete_block` -/
def locksDeleteBlock (state : LockState Owner) (waiter : Nat) : LockState Owner :=
  let unlinked := (unlinkBlock state waiter).setNext waiter none
  { unlinked with blockedList := unlinked.blockedList.erase waiter }

def locksInsertBlock (state : LockState Owner) (blocker waiter : Nat) : LockState Owner :=
  let single :=
    if (state.mem waiter).flNext.isSome then locksDeleteBlock state waiter else state
  let queued := single.setBlock blocker ((single.mem blocker).flBlock ++ [waiter])
  let linked := queued.setNext waiter (some blocker)
  if (linked.mem blocker).flPosix then
    { linked with blockedList := waiter :: linked.blockedList }
  else linked

/-- Every turn of the loop unlinks the first waiter of the queue. -/
def locksWakeUpBlocks (state : LockState Owner) (blocker : Nat) : LockState Owner :=
  (state.mem blocker).flBlock.foldl locksDeleteBlock state

/-- The walk over `blocked_list`: `none` when `fuel` turns do not end it. -/
def posixLocksDeadlock (state : LockState Owner) (callerFl : FileLock Owner) :
    (fuel : Nat) → (blockFl : Nat) → Option Bool
  | 0, _ => none
  | fuel + 1, blockFl =>
    if posixSameOwner callerFl (state.mem blockFl) then some true
    else
      match state.blockedList.find? fun fl =>
        posixSameOwner (state.mem fl) (state.mem blockFl) with
      | none => some false
      | some fl =>
        match (state.mem fl).flNext with
        | none => none
        | some next => posixLocksDeadlock state callerFl fuel next

/-- `locks_copy_lock`: the wait queue of the copy stays its own. -/
def locksCopyLock (state : LockState Owner) (new fl : Nat) : LockState Owner :=
  state.write new
    { state.mem fl with
      flNext := (state.mem new).flNext
      flBlock := (state.mem new).flBlock }

/-- The variables of `__posix_lock_file` while it works on the list: the locks
that `before` has passed and those from `*before` on. -/
structure Scan (Owner : Type) where
  state : LockState Owner
  passed : List Nat
  rest : List Nat
  request : Nat
  added : Bool
  left : Option Nat
  right : Option Nat

def joinStart (state : LockState Owner) (request fl : Nat) : LockState Owner :=
  if (state.mem request).flStart < (state.mem fl).flStart then
    state.setStart fl (state.mem request).flStart
  else state.setStart request (state.mem fl).flStart

def joinEnd (state : LockState Owner) (request fl : Nat) : LockState Owner :=
  if (state.mem fl).flEnd < (state.mem request).flEnd then
    state.setEnd fl (state.mem request).flEnd
  else state.setEnd request (state.mem fl).flEnd

/-- Adjacent or overlapping locks of one type: each of the two bounds is copied
from the lock that reaches further. -/
def joinLocks (state : LockState Owner) (request fl : Nat) : LockState Owner :=
  joinEnd (joinStart state request fl) request fl

/-- The old lock takes over range and type of the request. -/
def replaceLock (state : LockState Owner) (request fl : Nat) : LockState Owner :=
  let woken := locksWakeUpBlocks state fl
  woken.write fl
    { woken.mem fl with
      flStart := (woken.mem request).flStart
      flEnd := (woken.mem request).flEnd
      flType := (woken.mem request).flType }

/-- The loop over the locks of the requesting owner. -/
def processLocks (state : LockState Owner) (passed : List Nat) (request : Nat) (added : Bool)
    (left : Option Nat) : List Nat → Scan Owner
  | [] => ⟨state, passed, [], request, added, left, none⟩
  | fl :: rest =>
    let wanted := state.mem request
    let lock := state.mem fl
    if !posixSameOwner wanted lock then
      ⟨state, passed, fl :: rest, request, added, left, none⟩
    else if wanted.flType = lock.flType then
      if lock.flEnd < loff (wanted.flStart - 1) then
        processLocks state (passed ++ [fl]) request added left rest
      else if loff (wanted.flEnd + 1) < lock.flStart then
        ⟨state, passed, fl :: rest, request, added, left, none⟩
      else if added then
        processLocks (locksWakeUpBlocks (joinLocks state request fl) fl)
          passed request added left rest
      else processLocks (joinLocks state request fl) (passed ++ [fl]) fl true left rest
    else if lock.flEnd < wanted.flStart then
      processLocks state (passed ++ [fl]) request added left rest
    else if wanted.flEnd < lock.flStart then
      ⟨state, passed, fl :: rest, request, added, left, none⟩
    else
      let added := if wanted.flType = .unlck then true else added
      let left := if lock.flStart < wanted.flStart then some fl else left
      if wanted.flEnd < lock.flEnd then
        ⟨state, passed, fl :: rest, request, added, left, some fl⟩
      else if wanted.flStart ≤ lock.flStart then
        if added then processLocks (locksWakeUpBlocks state fl) passed request added left rest
        else processLocks (replaceLock state request fl) (passed ++ [fl]) fl true left rest
      else processLocks state (passed ++ [fl]) request added left rest

/-- A request that no old lock took over is inserted at `before`. -/
def insertNew (newFl : Nat) (scan : Scan Owner) : Scan Owner :=
  if scan.added then scan
  else
    { scan with
      state := locksCopyLock scan.state newFl scan.request
      rest := newFl :: scan.rest }

/-- The lock that reaches behind the request keeps that part. If it also begins
in front of the request, a copy of it keeps the front. -/
def cutRight (newFl2 : Nat) (scan : Scan Owner) : Scan Owner :=
  match scan.right with
  | none => scan
  | some right =>
    let split : Scan Owner :=
      if scan.left = some right then
        { scan with
          state := locksCopyLock scan.state newFl2 right
          rest := newFl2 :: scan.rest
          left := some newFl2 }
      else scan
    { split with
      state := locksWakeUpBlocks
        (split.state.setStart right (loff ((split.state.mem split.request).flEnd + 1))) right }

def cutLeft (scan : Scan Owner) : Scan Owner :=
  match scan.left with
  | none => scan
  | some left =>
    { scan with
      state := locksWakeUpBlocks
        (scan.state.setEnd left (loff ((scan.state.mem scan.request).flStart - 1))) left }

def Scan.commit (scan : Scan Owner) : LockState Owner :=
  { scan.state with iFlock := scan.passed ++ scan.rest }

/-- What follows the loop. -/
def finishScan (newFl newFl2 : Nat) (scan : Scan Owner) : LockState Owner :=
  if !scan.added && decide ((scan.state.mem scan.request).flType = .unlck) then scan.commit
  else (cutLeft (cutRight newFl2 (insertNew newFl scan))).commit

/-- The locks in front of the first one of the requesting owner. -/
def isForeign (state : LockState Owner) (request fl : Nat) : Bool :=
  !(state.mem fl).flPosix || !posixSameOwner (state.mem request) (state.mem fl)

def applyLock (state : LockState Owner) (request newFl newFl2 : Nat) : LockState Owner :=
  let skipped := state.iFlock.takeWhile (isForeign state request)
  let rest := state.iFlock.dropWhile (isForeign state request)
  finishScan newFl newFl2 (processLocks state skipped request false none rest)

/-- The first lock of the list that conflicts with the request; an unlock never
looks for one. -/
def findConflict (state : LockState Owner) (request : Nat) : Option Nat :=
  if (state.mem request).flType = .unlck then none
  else state.iFlock.find? fun fl =>
    (state.mem fl).flPosix && posixLocksConflict (state.mem request) (state.mem fl)

/-- `__posix_lock_file` on a request that is stored at `request`. `newFl` and
`newFl2` are the results of the two allocations. -/
def posixLockFile (fuel : Nat) (state : LockState Owner) (request : Nat)
    (newFl newFl2 : Option Nat) : Option (Int × LockState Owner) :=
  match findConflict state request with
  | some fl =>
    if !(state.mem request).flSleep then some (-eagain, state)
    else
      match posixLocksDeadlock state (state.mem request) fuel fl with
      | none => none
      | some true => some (-edeadlk, state)
      | some false => some (-eagain, locksInsertBlock state fl request)
  | none =>
    if (state.mem request).flAccess then some (0, state)
    else
      match newFl, newFl2 with
      | some newFl, some newFl2 => some (0, applyLock state request newFl newFl2)
      | _, _ => some (-enolck, state)

end MagxKernel.FileLocks
