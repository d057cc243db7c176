import MagxKernel.FileLocks.PosixLock
import MagxKernel.Lib.IntervalMap

namespace MagxKernel.FileLocks

open IntervalMap Function

variable {Owner : Type}

/-- What a lock says about its owner's bytes; wait queues are left out. -/
structure View (Owner : Type) where
  owner : Owner
  posix : Bool
  span : Span LockType

def FileLock.view (lock : FileLock Owner) : View Owner :=
  ⟨lock.flOwner, lock.flPosix, ⟨lock.flType, lock.flStart, lock.flEnd⟩⟩

def LockState.view (state : LockState Owner) (address : Nat) : View Owner :=
  (state.mem address).view

def LockState.spans (state : LockState Owner) (addresses : List Nat) : List (Span LockType) :=
  addresses.map fun address => (state.view address).span

def View.withFirst (view : View Owner) (first : Int) : View Owner :=
  { view with span := { view.span with first := first } }

def View.withRange (view : View Owner) (first last : Int) : View Owner :=
  { view with span := { view.span with first := first, last := last } }

def View.withLast (view : View Owner) (last : Int) : View Owner :=
  { view with span := { view.span with last := last } }

theorem View.withFirst_self (view : View Owner) : view.withFirst view.span.first = view := rfl

theorem View.withLast_self (view : View Owner) : view.withLast view.span.last = view := rfl

/-- The value that a request of some type stores; an unlock erases. -/
def LockType.tag : LockType → Option LockType
  | .unlck => none
  | type => some type

theorem loff_of_range (value : Int) (lower : -2 ^ 63 ≤ value) (upper : value < 2 ^ 63) :
    loff value = value := by
  unfold loff
  rw [Int.bmod_eq_of_le] <;> omega

theorem loff_succ (value : Int) (lower : 0 ≤ value) (upper : value < offsetMax) :
    loff (value + 1) = value + 1 := by
  unfold offsetMax at upper
  exact loff_of_range _ (by omega) (by omega)

theorem loff_pred (value : Int) (lower : 0 ≤ value) (upper : value ≤ offsetMax) :
    loff (value - 1) = value - 1 := by
  unfold offsetMax at upper
  exact loff_of_range _ (by omega) (by omega)

section Views

variable (state : LockState Owner) (address : Nat)

theorem view_write (lock : FileLock Owner) :
    (state.write address lock).view = update state.view address lock.view := by
  funext other
  by_cases same : other = address
  · subst same
    simp [LockState.view, LockState.write]
  · simp [LockState.view, LockState.write, same]

theorem view_write_same (lock : FileLock Owner) (same : lock.view = state.view address) :
    (state.write address lock).view = state.view := by
  rw [view_write, same, update_eq_self]

theorem view_setStart (start : Int) :
    (state.setStart address start).view =
      update state.view address ((state.view address).withFirst start) :=
  view_write state address _

theorem view_setEnd (stop : Int) :
    (state.setEnd address stop).view =
      update state.view address ((state.view address).withLast stop) :=
  view_write state address _

theorem view_locksCopyLock (new fl : Nat) :
    (locksCopyLock state new fl).view = update state.view new (state.view fl) :=
  view_write state new _

theorem view_setNext (next : Option Nat) : (state.setNext address next).view = state.view :=
  view_write_same state address _ rfl

theorem view_setBlock (waiters : List Nat) : (state.setBlock address waiters).view = state.view :=
  view_write_same state address _ rfl

theorem view_locksDeleteBlock (waiter : Nat) :
    (locksDeleteBlock state waiter).view = state.view := by
  have unlinked : (unlinkBlock state waiter).view = state.view := by
    unfold unlinkBlock
    split
    · exact view_setBlock state _ _
    · rfl
  exact (view_setNext _ waiter none).trans unlinked

theorem view_locksInsertBlock (blocker waiter : Nat) :
    (locksInsertBlock state blocker waiter).view = state.view := by
  unfold locksInsertBlock
  extract_lets single queued linked
  have first : single.view = state.view := by
    dsimp only [single]
    split
    · exact view_locksDeleteBlock state waiter
    · rfl
  have all : linked.view = state.view :=
    (view_setNext queued waiter _).trans ((view_setBlock single blocker _).trans first)
  split <;> exact all

@[simp] theorem view_locksWakeUpBlocks (blocker : Nat) :
    (locksWakeUpBlocks state blocker).view = state.view := by
  unfold locksWakeUpBlocks
  generalize (state.mem blocker).flBlock = waiters
  induction waiters generalizing state with
  | nil => rfl
  | cons waiter waiters ih =>
    rw [List.foldl_cons, ih, view_locksDeleteBlock]

section

variable (request fl : Nat) (distinct : request ≠ fl)

include request fl distinct

theorem view_joinStart :
    (joinStart state request fl).view =
      let first := min (state.view request).span.first (state.view fl).span.first
      update (update state.view request ((state.view request).withFirst first))
        fl ((state.view fl).withFirst first) := by
  change (if (state.view request).span.first < (state.view fl).span.first then
    state.setStart fl (state.view request).span.first
    else state.setStart request (state.view fl).span.first).view = _
  extract_lets first
  split
  · have smaller : first = (state.view request).span.first := by omega
    rw [smaller, View.withFirst_self, update_eq_self, view_setStart]
  · have smaller : first = (state.view fl).span.first := by omega
    rw [smaller, View.withFirst_self, update_comm distinct, update_eq_self, view_setStart]

theorem view_joinEnd :
    (joinEnd state request fl).view =
      let last := max (state.view request).span.last (state.view fl).span.last
      update (update state.view request ((state.view request).withLast last))
        fl ((state.view fl).withLast last) := by
  change (if (state.view fl).span.last < (state.view request).span.last then
    state.setEnd fl (state.view request).span.last
    else state.setEnd request (state.view fl).span.last).view = _
  extract_lets last
  split
  · have larger : last = (state.view request).span.last := by omega
    rw [larger, View.withLast_self, update_eq_self, view_setEnd]
  · have larger : last = (state.view fl).span.last := by omega
    rw [larger, View.withLast_self, update_comm distinct, update_eq_self, view_setEnd]

/-- Both locks end up with the union of the two ranges. -/
theorem view_joinLocks :
    (joinLocks state request fl).view =
      let first := min (state.view request).span.first (state.view fl).span.first
      let last := max (state.view request).span.last (state.view fl).span.last
      update (update state.view request
        ((state.view request).withRange first last)) fl ((state.view fl).withRange first last) := by
  rw [joinLocks, view_joinEnd _ _ _ distinct, view_joinStart _ _ _ distinct]
  funext other
  by_cases old : other = fl
  · subst old
    simp [distinct, View.withFirst, View.withLast, View.withRange]
  by_cases new : other = request
  · subst new
    simp [distinct, View.withFirst, View.withLast, View.withRange]
  · simp [old, new]

end

theorem view_replaceLock (request fl : Nat) :
    (replaceLock state request fl).view = update state.view fl
      ⟨(state.view fl).owner, (state.view fl).posix, (state.view request).span⟩ := by
  have woken := view_locksWakeUpBlocks state fl
  unfold replaceLock
  rw [view_write, woken]
  congr 1
  change View.mk ((locksWakeUpBlocks state fl).view fl).owner
    ((locksWakeUpBlocks state fl).view fl).posix
    ((locksWakeUpBlocks state fl).view request).span = _
  rw [woken]

end Views

end MagxKernel.FileLocks
