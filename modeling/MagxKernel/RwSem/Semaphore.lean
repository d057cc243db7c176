import MagxKernel.Lib.MachineInt
import MagxKernel.Lib.Runs

namespace MagxKernel.RwSem

open MachineInt (s32)

/-- Names a `struct task_struct`. -/
abbrev Task := Nat

inductive WaitFlags where
  | waitingForRead
  | waitingForWrite
deriving DecidableEq

structure RwsemWaiter where
  task : Task
  flags : WaitFlags
deriving DecidableEq

/-- `struct compat_rw_semaphore`; `activity` is an `__s32`. -/
structure CompatRwSemaphore where
  activity : Int
  waitList : List RwsemWaiter
deriving DecidableEq

def compatInitRwsem : CompatRwSemaphore := ⟨0, []⟩

/-- The loop of `__rwsem_do_wake`: the readers in front of the first writer, and the rest. -/
def wakeReaders : List RwsemWaiter → List RwsemWaiter × List RwsemWaiter
  | [] => ([], [])
  | waiter :: rest =>
      match waiter.flags with
      | .waitingForRead => (waiter :: (wakeReaders rest).1, (wakeReaders rest).2)
      | .waitingForWrite => ([], waiter :: rest)

namespace CompatRwSemaphore

/-- `__rwsem_do_wake`: the semaphore and the waiters it wakes. Both callers have
made sure that the list is not empty. -/
def rwsemDoWake (sem : CompatRwSemaphore) (wakewrite : Bool) :
    CompatRwSemaphore × List RwsemWaiter :=
  match sem.waitList with
  | [] => (sem, [])
  | waiter :: rest =>
      match waiter.flags, wakewrite with
      | .waitingForWrite, false => (sem, [])
      | .waitingForWrite, true => (⟨-1, rest⟩, [waiter])
      | .waitingForRead, _ =>
          let woken := wakeReaders (waiter :: rest)
          (⟨s32 (sem.activity + woken.1.length), woken.2⟩, woken.1)

/-- `__rwsem_wake_one_writer`, which does not look at the flags of the waiter. -/
def rwsemWakeOneWriter (sem : CompatRwSemaphore) : CompatRwSemaphore × List RwsemWaiter :=
  match sem.waitList with
  | [] => (sem, [])
  | waiter :: rest => (⟨-1, rest⟩, [waiter])

/-- `__down_read` up to the point where the task has the lock or sleeps. -/
def downRead (sem : CompatRwSemaphore) (task : Task) : CompatRwSemaphore × Bool :=
  if 0 ≤ sem.activity ∧ sem.waitList = [] then
    ({ sem with activity := s32 (sem.activity + 1) }, true)
  else ({ sem with waitList := sem.waitList ++ [⟨task, .waitingForRead⟩] }, false)

def downReadTrylock (sem : CompatRwSemaphore) : CompatRwSemaphore × Bool :=
  if 0 ≤ sem.activity ∧ sem.waitList = [] then
    ({ sem with activity := s32 (sem.activity + 1) }, true)
  else (sem, false)

def downWrite (sem : CompatRwSemaphore) (task : Task) : CompatRwSemaphore × Bool :=
  if sem.activity = 0 ∧ sem.waitList = [] then ({ sem with activity := -1 }, true)
  else ({ sem with waitList := sem.waitList ++ [⟨task, .waitingForWrite⟩] }, false)

def downWriteTrylock (sem : CompatRwSemaphore) : CompatRwSemaphore × Bool :=
  if sem.activity = 0 ∧ sem.waitList = [] then ({ sem with activity := -1 }, true)
  else (sem, false)

def upRead (sem : CompatRwSemaphore) : CompatRwSemaphore × List RwsemWaiter :=
  let released := { sem with activity := s32 (sem.activity - 1) }
  if released.activity = 0 ∧ sem.waitList ≠ [] then released.rwsemWakeOneWriter
  else (released, [])

def upWrite (sem : CompatRwSemaphore) : CompatRwSemaphore × List RwsemWaiter :=
  let released := { sem with activity := 0 }
  if sem.waitList ≠ [] then released.rwsemDoWake true else (released, [])

def downgradeWrite (sem : CompatRwSemaphore) : CompatRwSemaphore × List RwsemWaiter :=
  let released := { sem with activity := 1 }
  if sem.waitList ≠ [] then released.rwsemDoWake false else (released, [])

end CompatRwSemaphore

/-- A semaphore with the tasks that have returned from a `down`, once for each
lock they hold. -/
structure System where
  sem : CompatRwSemaphore
  readHolders : List Task
  writeHolders : List Task
deriving DecidableEq

def unlocked : System := ⟨compatInitRwsem, [], []⟩

namespace System

/-- A task whose waiter is woken returns from the `down` it called. -/
def wake (system : System) (waiter : RwsemWaiter) : System :=
  match waiter.flags with
  | .waitingForRead => { system with readHolders := waiter.task :: system.readHolders }
  | .waitingForWrite => { system with writeHolders := waiter.task :: system.writeHolders }

/-- The semaphore after a release, and the woken tasks running again. -/
def resume (system : System) (released : CompatRwSemaphore × List RwsemWaiter) : System :=
  released.2.foldl wake { system with sem := released.1 }

def grantRead (system : System) (task : Task) (asked : CompatRwSemaphore × Bool) : System :=
  { system with
    sem := asked.1
    readHolders := if asked.2 then task :: system.readHolders else system.readHolders }

def grantWrite (system : System) (task : Task) (asked : CompatRwSemaphore × Bool) : System :=
  { system with
    sem := asked.1
    writeHolders := if asked.2 then task :: system.writeHolders else system.writeHolders }

end System

/-- The operations, each with the task that calls it. -/
inductive Op where
  | downRead (task : Task)
  | downReadTrylock (task : Task)
  | downWrite (task : Task)
  | downWriteTrylock (task : Task)
  | upRead (task : Task)
  | upWrite (task : Task)
  | downgradeWrite (task : Task)
deriving DecidableEq

def act (system : System) : Op → System
  | .downRead task => system.grantRead task (system.sem.downRead task)
  | .downReadTrylock task => system.grantRead task system.sem.downReadTrylock
  | .downWrite task => system.grantWrite task (system.sem.downWrite task)
  | .downWriteTrylock task => system.grantWrite task system.sem.downWriteTrylock
  | .upRead task =>
      { system with readHolders := system.readHolders.erase task }.resume system.sem.upRead
  | .upWrite task =>
      { system with writeHolders := system.writeHolders.erase task }.resume system.sem.upWrite
  | .downgradeWrite task =>
      { system with
        readHolders := task :: system.readHolders
        writeHolders := system.writeHolders.erase task }.resume system.sem.downgradeWrite

def step (system : System) (op : Op) : Option System := some (act system op)

/-- Each release is by a holder. -/
def ByHolder (system : System) : Op → Prop
  | .upRead task => task ∈ system.readHolders
  | .upWrite task => task ∈ system.writeHolders
  | .downgradeWrite task => task ∈ system.writeHolders
  | _ => True

instance (system : System) (op : Op) : Decidable (ByHolder system op) :=
  match op with
  | .upRead task => inferInstanceAs (Decidable (task ∈ system.readHolders))
  | .upWrite task => inferInstanceAs (Decidable (task ∈ system.writeHolders))
  | .downgradeWrite task => inferInstanceAs (Decidable (task ∈ system.writeHolders))
  | .downRead _ | .downReadTrylock _ | .downWrite _ | .downWriteTrylock _ =>
      inferInstanceAs (Decidable True)

/-- What the counter and the queue say about the holders. -/
structure Sound (system : System) : Prop where
  counted : (system.sem.activity = system.readHolders.length ∧ system.writeHolders = []) ∨
    (system.sem.activity = -1 ∧ system.readHolders = [] ∧ system.writeHolders.length = 1)
  free : system.sem.activity = 0 → system.sem.waitList = []
  writerFirst : 0 < system.sem.activity → ∀ waiter rest,
    system.sem.waitList = waiter :: rest → waiter.flags = .waitingForWrite

end MagxKernel.RwSem
