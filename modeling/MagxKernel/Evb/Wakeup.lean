import MagxKernel.Lib.Runs

namespace MagxKernel.Evb

/-- `EvPacket_t` with the field that decides where it is queued. -/
structure Packet where
  epPri : Int

/-- Where a call of `EvGetEvent`, or of `event_ioctl` for `EV_GET_EVENT`, is. Only `looking`
holds the lock: it is dropped before `interruptible_sleep_on` joins the wait queue. -/
inductive Stage where
  | idle
  | looking (waitFlag : Bool)
  | unlocked
  | asleep
  | woken
deriving DecidableEq

/-- A user of the event broker; `ioctl` tells the receiver of `event_ioctl` from `EvGetEvent`. -/
structure Receiver where
  ioctl : Bool
  pending : List Packet
  qCount : UInt32
  qLimit : UInt32
  stage : Stage

def registered (ioctl : Bool) (qLimit : UInt32) : Receiver := ⟨ioctl, [], 0, qLimit, .idle⟩

def placeMiddle (packet : Packet) : List Packet → List Packet
  | [] => []
  | tmpPacket :: rest =>
      if tmpPacket.epPri < packet.epPri then packet :: tmpPacket :: rest
      else tmpPacket :: placeMiddle packet rest

def place (packet : Packet) (pending : List Packet) : List Packet :=
  match pending.head?, pending.getLast? with
  | some tmpPacket, some endPacket =>
      if tmpPacket.epPri < packet.epPri then packet :: pending
      else if packet.epPri ≤ endPacket.epPri then pending ++ [packet]
      else placeMiddle packet pending
  | _, _ => [packet]

def Receiver.full (receiver : Receiver) (evSysQLimit : UInt32) : Bool :=
  receiver.qLimit ≠ 0 && receiver.qLimit ≤ receiver.qCount ||
    evSysQLimit ≠ 0 && evSysQLimit ≤ receiver.qCount

/-- A delivery, which is one critical section; `packet` is `none` when `EvAllocate` fails. -/
def evGenEvent (evSysQLimit : UInt32) (receiver : Receiver) (packet : Option Packet) : Receiver :=
  match packet with
  | none => receiver
  | some packet =>
      if receiver.full evSysQLimit then receiver
      else { receiver with
        pending := place packet receiver.pending
        qCount := receiver.qCount + 1
        stage := if receiver.stage = .asleep then .woken else receiver.stage }

/-- The receiver looks at its list; `fault` is a `copy_to_user` that fails. -/
def look (receiver : Receiver) (waitFlag fault : Bool) : Receiver :=
  match receiver.pending with
  | [] => { receiver with stage := if waitFlag then .unlocked else .idle }
  | _ :: rest =>
      if receiver.ioctl && fault then { receiver with stage := .idle }
      else { receiver with pending := rest, qCount := receiver.qCount - 1, stage := .idle }

inductive Op where
  | call (waitFlag : Bool)
  | look (fault : Bool)
  | sleepOn
  | relock
  | evGenEvent (evSysQLimit : UInt32) (packet : Option Packet)

def step (receiver : Receiver) : Op → Option Receiver
  | .call waitFlag =>
      if receiver.stage = .idle then some { receiver with stage := .looking waitFlag } else none
  | .look fault =>
      match receiver.stage with
      | .looking waitFlag => some (look receiver waitFlag fault)
      | _ => none
  | .sleepOn =>
      if receiver.stage = .unlocked then some { receiver with stage := .asleep } else none
  | .relock =>
      -- `EV_GET_EVENT` takes an empty list here for a signal.
      if receiver.stage = .woken then
        some { receiver with
          stage := if receiver.ioctl && receiver.pending.isEmpty then .idle else .looking true }
      else none
  | .evGenEvent evSysQLimit packet => some (evGenEvent evSysQLimit receiver packet)

def Receiver.Stranded (receiver : Receiver) : Prop :=
  receiver.stage = .asleep ∧ receiver.pending ≠ []

/-- No packet is queued between the look at the empty list and the wait queue. -/
def Timely (receiver : Receiver) : Op → Prop
  | .evGenEvent evSysQLimit packet =>
      receiver.stage = .unlocked → packet = none ∨ receiver.full evSysQLimit
  | _ => True

def Clear (receiver : Receiver) : Prop :=
  receiver.stage = .unlocked ∨ receiver.stage = .asleep → receiver.pending = []

theorem Clear.evGenEvent {receiver : Receiver} {limit : UInt32} {packet : Option Packet}
    (clear : Clear receiver)
    (timely : receiver.stage = .unlocked → packet = none ∨ receiver.full limit) :
    Clear (evGenEvent limit receiver packet) := by
  cases packet with
  | none => exact clear
  | some packet =>
    by_cases full : receiver.full limit
    · simpa [Evb.evGenEvent, full] using clear
    · have locked : receiver.stage ≠ .unlocked := fun unlocked => by
        simpa [full] using timely unlocked
      by_cases asleep : receiver.stage = .asleep <;>
        simp [Clear, Evb.evGenEvent, full, locked, asleep]

theorem clear_look (receiver : Receiver) (waitFlag fault : Bool) :
    Clear (look receiver waitFlag fault) := by
  cases found : receiver.pending with
  | nil => simp [Clear, look, found]
  | cons packet rest => by_cases fails : receiver.ioctl && fault <;>
    simp [Clear, look, found, fails]

theorem Clear.step {receiver next : Receiver} {op : Op} (clear : Clear receiver)
    (timely : Timely receiver op) (stepped : step receiver op = some next) : Clear next := by
  cases op <;> simp only [Evb.step, Option.ite_none_right_eq_some, Option.some.injEq] at stepped
  case call | relock =>
    obtain ⟨-, rfl⟩ := stepped
    simp [Clear, apply_ite (· = Stage.unlocked), apply_ite (· = Stage.asleep)]
  case look =>
    split at stepped <;> cases stepped
    exact clear_look receiver _ _
  case sleepOn =>
    obtain ⟨unlocked, rfl⟩ := stepped
    exact fun _ => clear (.inl unlocked)
  case evGenEvent =>
    subst stepped
    exact clear.evGenEvent timely

theorem run_not_stranded (ioctl : Bool) (qLimit : UInt32) (ops : List Op) (final : Receiver)
    (timely : Runs.Along step Timely (registered ioctl qLimit) ops)
    (executed : Runs.run step (registered ioctl qLimit) ops = some final) :
    ¬ final.Stranded := by
  have clear : Clear final :=
    Runs.run_invariant (fun _ _ _ => Clear.step) ops _ final (by simp [Clear, registered])
      timely executed
  exact fun stranded => stranded.2 (clear (.inr stranded.1))

theorem run_not_stranded_woken :
    ¬ (Receiver.mk false [⟨1⟩] 1 0 .woken).Stranded :=
  run_not_stranded false 0 [.call true, .look false, .sleepOn, .evGenEvent 0 (some ⟨1⟩)] _
    (by simp [Runs.Along, Timely, step, look, registered]) rfl

/-- The wake-up of a delivery that comes before the receiver is on the wait queue is lost. -/
theorem run_stranded : ∃ final, Runs.run step (registered false 0)
    [.call true, .look false, .evGenEvent 0 (some ⟨1⟩), .sleepOn] = some final ∧
      final.Stranded :=
  ⟨⟨false, [⟨1⟩], 1, 0, .asleep⟩, rfl, by simp [Receiver.Stranded]⟩

end MagxKernel.Evb
