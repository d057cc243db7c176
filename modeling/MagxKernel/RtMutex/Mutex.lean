import MagxKernel.Lib.Runs

namespace MagxKernel.RtMutex

open Function

abbrev maxUserRtPrio : Nat := 100
abbrev maxRtPrio : Nat := maxUserRtPrio
abbrev maxPrio : Nat := maxRtPrio + 40

/-- Where the `pi_list` of a waiter is linked: to itself, into the `pi_waiters` of a
task, or, after a plain `list_del`, nowhere that may be followed. -/
inductive PiLink where
  | empty
  | on (task : Nat)
  | poisoned
deriving DecidableEq

/-- What ends the wait of a call besides getting the lock. -/
inductive Patience where
  | uninterruptible
  | interruptible
  | timed
deriving DecidableEq

/-- A call that has gone to sleep and has not returned. -/
structure Frame where
  task : Nat
  waiter : Nat
  lock : Nat
  patience : Patience

/-- Memory, one map for each field of the three structures. A `SCHED_NORMAL` task has
no `rtPriority`; its `effectivePrio` is what `__effective_prio` returns, which changes
from time to time. A waiter lies on the stack of the task that sleeps. -/
structure State where
  /-- `struct task_struct` -/
  pid : Nat → Nat
  prio : Nat → Nat
  rtPriority : Nat → Option Nat
  effectivePrio : Nat → Nat
  blockedOn : Nat → Option Nat
  piWaiters : Nat → List Nat
  /-- `struct rt_mutex` -/
  owner : Nat → Option Nat
  waitList : Nat → List Nat
  /-- `struct rt_mutex_waiter` -/
  task : Nat → Option Nat
  lock : Nat → Nat
  piList : Nat → PiLink
  /-- the calls that are asleep -/
  frames : List Frame

namespace State

def rtTask (state : State) (p : Nat) : Bool := state.prio p < maxRtPrio

def mutexGetprio (state : State) (p : Nat) : Nat :=
  match state.rtPriority p with
  | some rtPriority => maxUserRtPrio - 1 - rtPriority
  | none => state.effectivePrio p

def setPrio (state : State) (p prio : Nat) : State :=
  { state with prio := update state.prio p prio }

def setBlockedOn (state : State) (p : Nat) (waiter : Option Nat) : State :=
  { state with blockedOn := update state.blockedOn p waiter }

def setPiWaiters (state : State) (p : Nat) (waiters : List Nat) : State :=
  { state with piWaiters := update state.piWaiters p waiters }

def setOwner (state : State) (lock : Nat) (owner : Option Nat) : State :=
  { state with owner := update state.owner lock owner }

def setWaitList (state : State) (lock : Nat) (waiters : List Nat) : State :=
  { state with waitList := update state.waitList lock waiters }

def setPiList (state : State) (w : Nat) (link : PiLink) : State :=
  { state with piList := update state.piList w link }

def setTask (state : State) (w : Nat) (task : Option Nat) : State :=
  { state with task := update state.task w task }

end State

/-- Take a waiter off the `pi_waiters` that it is on and leave the given link behind.
`list_del_init` leaves an empty list head, `list_del` a poisoned one; neither may be
applied to a poisoned one. -/
def unlinkPi (state : State) (w : Nat) (left : PiLink) : Option State :=
  match state.piList w with
  | .empty => some (state.setPiList w left)
  | .on p => some ((state.setPiWaiters p ((state.piWaiters p).erase w)).setPiList w left)
  | .poisoned => none

/-- `list_add_tail(&w->pi_list, &p->pi_waiters)` -/
def linkPi (state : State) (w p : Nat) : State :=
  (state.setPiWaiters p (state.piWaiters p ++ [w])).setPiList w (.on p)

/-- Move the waiters of this lock to the new owner. -/
def changeOwner (state : State) (lock oldOwner newOwner : Nat) : State :=
  if oldOwner = newOwner then state
  else
    let moved := (state.piWaiters oldOwner).filter fun w => state.lock w = lock
    let kept := (state.piWaiters oldOwner).filter fun w => state.lock w ≠ lock
    let joined := (state.setPiWaiters oldOwner kept).setPiWaiters newOwner
      (state.piWaiters newOwner ++ moved)
    { joined with piList := fun w => if w ∈ moved then .on newOwner else state.piList w }

def setNewOwner (state : State) (lock : Nat) (oldOwner : Option Nat) (newOwner : Nat) : State :=
  match oldOwner with
  | some old => (changeOwner state lock old newOwner).setOwner lock (some newOwner)
  | none => state.setOwner lock (some newOwner)

/-- The two branches of `pi_setprio` for a task that is blocked: one that has become
real-time is registered and goes to the head of the wait list, one that no longer is
real-time is taken off and goes to the tail. -/
def requeue (state : State) (w lock owner : Nat) (rt : Bool) : Option State :=
  if rt then
    if state.piList w = .empty then
      some ((linkPi state w owner).setWaitList lock (w :: (state.waitList lock).erase w))
    else some state
  else if state.piList w ≠ .empty then
    (unlinkPi state w .poisoned).map fun unlinked =>
      unlinked.setWaitList lock ((state.waitList lock).erase w ++ [w])
  else some state

/-- The loop of `pi_setprio` along the chain of owners. `mutex_setprio` refuses a
priority above `MAX_PRIO`. -/
def piWalk (prio : Nat) : (fuel : Nat) → (state : State) → (p : Nat) → Option State
  | 0, _, _ => none
  | fuel + 1, state, p =>
    if maxPrio < prio then none
    else
      let changed := state.setPrio p prio
      match state.blockedOn p with
      | none => some changed
      | some w =>
        match state.owner (state.lock w) with
        | none => none
        | some owner =>
          match requeue changed w (state.lock w) owner (changed.rtTask p) with
          | none => none
          | some next => if next.prio owner ≤ prio then some next else piWalk prio fuel next owner

/-- The walk may take two turns more than there are sleeping calls. -/
def piSetprio (state : State) (p prio : Nat) : Option State :=
  if state.pid p = 0 then some state else piWalk prio (state.frames.length + 2) state p

/-- The fields that `task_blocks_on_lock` sets first. -/
def markBlocked (state : State) (waiter task lock : Nat) : State :=
  { state with
    blockedOn := update state.blockedOn task (some waiter)
    task := update state.task waiter (some task)
    lock := update state.lock waiter lock
    piList := update state.piList waiter .empty }

def taskBlocksOnLock (state : State) (waiter task lock : Nat) : Option State :=
  let marked := markBlocked state waiter task lock
  if !state.rtTask task then
    some (marked.setWaitList lock (state.waitList lock ++ [waiter]))
  else
    match state.owner lock with
    | none => none
    | some owner =>
      let queued := (linkPi marked waiter owner).setWaitList lock (waiter :: state.waitList lock)
      if state.prio task < state.prio owner then piSetprio queued owner (state.prio task)
      else some queued

/-- The priority of the task of a waiter, which must have one. -/
def waiterPrio (state : State) (w : Nat) : Option Nat :=
  (state.task w).map state.prio

/-- The loop of `pick_new_owner`: it ends at the first task that is not real-time. -/
def pickWaiter (state : State) (best : Option Nat) : List Nat → Option (Option Nat)
  | [] => some best
  | w :: rest =>
    match waiterPrio state w with
    | none => none
    | some prio =>
      if maxRtPrio ≤ prio then some best
      else
        match best with
        | none => pickWaiter state (some w) rest
        | some waiter =>
          match waiterPrio state waiter with
          | none => none
          | some least => pickWaiter state (if prio ≤ least then some w else some waiter) rest

/-- What `pick_new_owner` does with the waiter that it has chosen. -/
def handOver (state : State) (lock oldOwner waiter newOwner : Nat) : Option State :=
  let dequeued := state.setWaitList lock ((state.waitList lock).erase waiter)
  (unlinkPi dequeued waiter .empty).map fun unlinked =>
    ((setNewOwner unlinked lock (some oldOwner) newOwner).setTask waiter none).setBlockedOn
      newOwner none

/-- `pick_new_owner` on a wait list that is not empty: the best real-time waiter, or
else the first of all. -/
def pickNewOwner (state : State) (lock oldOwner : Nat) : Option State :=
  match pickWaiter state none (state.waitList lock) with
  | none => none
  | some best =>
    match best.or (state.waitList lock).head? with
    | none => none
    | some waiter =>
      match state.task waiter with
      | none => none
      | some newOwner => handOver state lock oldOwner waiter newOwner

/-- The smallest priority among the given one and those of the waiters. -/
def leastPrio (state : State) (prio : Nat) : List Nat → Option Nat
  | [] => some prio
  | w :: rest =>
    match waiterPrio state w with
    | none => none
    | some other => leastPrio state (if other < prio then other else prio) rest

/-- The second half of `__up_mutex`: the old owner gets the priority that is left to
it. -/
def restorePrio (state : State) (oldOwner : Nat) : Option State :=
  match leastPrio state (state.mutexGetprio oldOwner) (state.piWaiters oldOwner) with
  | none => none
  | some prio => if prio ≠ state.prio oldOwner then piSetprio state oldOwner prio else some state

/-- `__up_mutex`. Releasing a lock that nobody owns follows a null pointer. -/
def upMutex (state : State) (lock : Nat) : Option State :=
  match state.owner lock with
  | none => none
  | some oldOwner =>
    let released := state.setOwner lock none
    match state.waitList lock with
    | [] => restorePrio released oldOwner
    | _ :: _ => (pickNewOwner released lock oldOwner).bind fun handed => restorePrio handed oldOwner

/-- `__down`, `__down_mutex`, `__down_interruptible` and `__down_interruptible_timeout`
up to the wait. -/
def down (state : State) (task lock waiter : Nat) (patience : Patience) : Option State :=
  match state.owner lock with
  | none => some (setNewOwner state lock none task)
  | some _ =>
    taskBlocksOnLock { state with frames := ⟨task, waiter, lock, patience⟩ :: state.frames }
      waiter task lock

/-- `__down_trylock` -/
def downTrylock (state : State) (task lock : Nat) : State :=
  match state.owner lock with
  | none => setNewOwner state lock none task
  | some _ => state

def returnFrom (state : State) (task : Nat) : State :=
  { state with frames := state.frames.filter fun frame => frame.task ≠ task }

/-- A signal or a timeout in the wait loop: a waiter that has not got the lock is
taken off both lists. -/
def giveUp (state : State) (frame : Frame) : Option State :=
  match state.task frame.waiter with
  | none => some (returnFrom state frame.task)
  | some _ =>
    let dequeued := state.setWaitList frame.lock ((state.waitList frame.lock).erase frame.waiter)
    (unlinkPi dequeued frame.waiter .empty).map fun unlinked => returnFrom unlinked frame.task

def frameOf (state : State) (task : Nat) : Option Frame :=
  state.frames.find? fun frame => frame.task = task

inductive Op where
  | down (task lock waiter : Nat) (patience : Patience)
  /-- `__down_interruptible_timeout` without time to wait -/
  | downNoTime (task lock : Nat)
  | trylock (task lock : Nat)
  | up (task lock : Nat)
  /-- the wait loop finds that the waiter has got the lock -/
  | resume (task : Nat)
  | signal (task : Nat)
  | expire (task : Nat)
  /-- the scheduler computes a new `__effective_prio` -/
  | age (task prio : Nat)
  /-- `p->prio = effective_prio(p)` -/
  | refresh (task : Nat)

def step (state : State) : Op → Option State
  | .down task lock waiter patience => down state task lock waiter patience
  | .downNoTime task lock => some (downTrylock state task lock)
  | .trylock task lock => some (downTrylock state task lock)
  | .up _ lock => upMutex state lock
  | .resume task =>
    match frameOf state task with
    | none => some state
    | some frame =>
      match state.task frame.waiter with
      | none => some (returnFrom state task)
      | some _ => some state
  | .signal task =>
    match frameOf state task with
    | none => some state
    | some frame => if frame.patience = .uninterruptible then some state else giveUp state frame
  | .expire task =>
    match frameOf state task with
    | none => some state
    | some frame => if frame.patience = .timed then giveUp state frame else some state
  | .age task prio =>
    some { state with effectivePrio := update state.effectivePrio task prio }
  | .refresh task =>
    some (if state.rtTask task then state else state.setPrio task (state.effectivePrio task))

end MagxKernel.RtMutex
