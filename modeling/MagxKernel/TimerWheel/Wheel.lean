import Mathlib.Algebra.Group.Int.Defs
import Mathlib.Algebra.Group.Nat.Defs
import Mathlib.Logic.Function.Basic

namespace MagxKernel.TimerWheel

open Function

abbrev tvnBits : Nat := 6
abbrev tvrBits : Nat := 8
abbrev tvnSize : Nat := 1 <<< tvnBits
abbrev tvrSize : Nat := 1 <<< tvrBits
abbrev tvnMask : Nat := tvnSize - 1
abbrev tvrMask : Nat := tvrSize - 1

/-- Names a `struct timer_list`. -/
abbrev Timer := Nat

/-- The list `vec[index]` of `tv1` to `tv5`. -/
structure Slot where
  level : Nat
  index : Nat
deriving DecidableEq

/-- A timer base of one processor with the timers that use it. `workList` is the
local list of `__run_timers`; `pending` says that `timer->base` is set. -/
structure Wheel where
  timerJiffies : Nat
  vec : Slot → List Timer
  workList : List Timer
  expires : Timer → Nat
  pending : Timer → Bool

/-- Subtraction of 32-bit values. -/
def sub32 (left right : Nat) : Nat := (left + 2 ^ 32 - right) % 2 ^ 32

/-- The list that `internal_add_timer` chooses. An unsigned distance of at least
`2 ^ 31` is a negative signed one. -/
def slotOf (expires timerJiffies : Nat) : Slot :=
  let idx := sub32 expires timerJiffies
  if idx < tvrSize then ⟨1, expires &&& tvrMask⟩
  else if idx < 1 <<< (tvrBits + tvnBits) then ⟨2, (expires >>> tvrBits) &&& tvnMask⟩
  else if idx < 1 <<< (tvrBits + 2 * tvnBits) then
    ⟨3, (expires >>> (tvrBits + tvnBits)) &&& tvnMask⟩
  else if idx < 1 <<< (tvrBits + 3 * tvnBits) then
    ⟨4, (expires >>> (tvrBits + 2 * tvnBits)) &&& tvnMask⟩
  else if 2 ^ 31 ≤ idx then ⟨1, timerJiffies &&& tvrMask⟩
  else ⟨5, (expires >>> (tvrBits + 3 * tvnBits)) &&& tvnMask⟩

namespace Wheel

/-- Timers are FIFO. -/
def listAddTail (base : Wheel) (slot : Slot) (timer : Timer) : Wheel :=
  { base with
    vec := update base.vec slot (base.vec slot ++ [timer])
    pending := update base.pending timer true }

def internalAddTimer (base : Wheel) (timer : Timer) : Wheel :=
  base.listAddTail (slotOf (base.expires timer) base.timerJiffies) timer

/-- `list_del`: the timer leaves the list it is linked into. -/
def listDel (base : Wheel) (timer : Timer) : Wheel :=
  { base with
    vec := fun slot => (base.vec slot).erase timer
    workList := base.workList.erase timer }

def setExpires (base : Wheel) (timer : Timer) (expires : Nat) : Wheel :=
  { base with expires := update base.expires timer expires }

/-- `__mod_timer` -/
def modTimerAlways (base : Wheel) (timer : Timer) (expires : Nat) : Wheel :=
  let detached := if base.pending timer then base.listDel timer else base
  (detached.setExpires timer expires).internalAddTimer timer

def modTimer (base : Wheel) (timer : Timer) (expires : Nat) : Wheel :=
  if base.expires timer = expires ∧ base.pending timer = true then base
  else base.modTimerAlways timer expires

/-- `add_timer` after its caller has set `timer->expires`. -/
def addTimer (base : Wheel) (timer : Timer) (expires : Nat) : Wheel :=
  base.modTimerAlways timer expires

/-- `add_timer_on`; adding a pending timer is a bug of the caller. -/
def addTimerOn (base : Wheel) (timer : Timer) (expires : Nat) : Option Wheel :=
  if base.pending timer then none
  else some ((base.setExpires timer expires).internalAddTimer timer)

def delTimer (base : Wheel) (timer : Timer) : Wheel :=
  if base.pending timer then
    let detached := base.listDel timer
    { detached with pending := update detached.pending timer false }
  else base

/-- The loop of `cascade`; a timer of another base trips its assertion. -/
def cascadeLoop (base : Wheel) : List Timer → Option Wheel
  | [] => some base
  | timer :: timers =>
    if !base.pending timer then none else (base.internalAddTimer timer).cascadeLoop timers

def clear (base : Wheel) (slot : Slot) : Wheel :=
  { base with vec := update base.vec slot [] }

def cascade (base : Wheel) (slot : Slot) : Option Wheel :=
  (base.cascadeLoop (base.vec slot)).map fun moved => moved.clear slot

/-- `INDEX(N)` -/
def index (base : Wheel) (n : Nat) : Nat :=
  (base.timerJiffies >>> (tvrBits + n * tvnBits)) &&& tvnMask

/-- The chain of cascades: each level is reached when the one below it has come
round to its list 0. -/
def cascadeLevels (base : Wheel) : List Nat → Option Wheel
  | [] => some base
  | n :: levels =>
    let index := base.index n
    (base.cascade ⟨n + 2, index⟩).bind fun moved =>
      if index = 0 then moved.cascadeLevels levels else some moved

/-- The head of one iteration of `__run_timers`, up to the splice. -/
def runIteration (base : Wheel) : Option Wheel :=
  let index := base.timerJiffies &&& tvrMask
  let cascaded := if index = 0 then base.cascadeLevels [0, 1, 2, 3] else some base
  cascaded.map fun base =>
    { base.clear ⟨1, index⟩ with
      timerJiffies := (base.timerJiffies + 1) % 2 ^ 32
      workList := base.vec ⟨1, index⟩ }

/-- The call of a timer function at the `repeat` label. -/
def fire (base : Wheel) (timer : Timer) : Option Wheel :=
  match base.workList with
  | [] => none
  | head :: rest =>
    if head = timer then
      some { base with
        workList := rest
        pending := update base.pending timer false }
    else none

end Wheel

inductive Op where
  | addTimer (timer : Timer) (expires : UInt32)
  | modTimer (timer : Timer) (expires : UInt32)
  | addTimerOn (timer : Timer) (expires : UInt32)
  | delTimer (timer : Timer)
  | tick
  | fire (timer : Timer)
deriving DecidableEq

/-- One critical section of the base lock. `fire` names the timer whose function
is called; an iteration begins only when the work list is empty. -/
def wheelStep (base : Wheel) : Op → Option Wheel
  | .addTimer timer expires => some (base.addTimer timer expires.toNat)
  | .modTimer timer expires => some (base.modTimer timer expires.toNat)
  | .addTimerOn timer expires => base.addTimerOn timer expires.toNat
  | .delTimer timer => some (base.delTimer timer)
  | .tick => if base.workList = [] then base.runIteration else none
  | .fire timer => base.fire timer

/-- `init_timers_cpu` -/
def initTimers (jiffies : UInt32) : Wheel :=
  ⟨jiffies.toNat, fun _ => [], [], fun _ => 0, fun _ => false⟩

end MagxKernel.TimerWheel
