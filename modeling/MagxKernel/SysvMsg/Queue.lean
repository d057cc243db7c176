import MagxKernel.Lib.Runs
import MagxKernel.SysvMsg.Message

namespace MagxKernel.SysvMsg

open Function

/-- Names a `struct task_struct`. -/
abbrev Task := Nat

inductive Errno where
  | eagain
  | e2big
  | eidrm
deriving DecidableEq

/-- What `msr->r_msg` holds: `NULL` while the receiver is being woken, an
`ERR_PTR`, or the message that was handed over. -/
inductive Slot where
  | null
  | error (err : Errno)
  | message (msg : Msg)
deriving DecidableEq

/-- `struct msg_receiver`, a variable on the stack of the receiving task. -/
structure Receiver where
  rMode : SearchMode
  rMsgtype : Int
  rMaxsize : Nat
  rMsg : Slot
deriving DecidableEq

/-- The arguments of `sys_msgsnd`, the text already copied by `load_msg`. -/
structure SendCall where
  msg : Msg
  ipcNowait : Bool
deriving DecidableEq

/-- The arguments of `sys_msgrcv` after `convert_mode`. -/
structure RecvCall where
  msgsz : Nat
  msgtyp : Int
  mode : SearchMode
  flags : RecvFlags
deriving DecidableEq

structure MsgQueue where
  qMessages : List Msg
  qReceivers : List Task
  qSenders : List Task
  qCbytes : Nat
  qQnum : Nat
  qQbytes : Nat
  deleted : Bool
deriving DecidableEq

/-- A place in a critical section that writes to slots of sleeping receivers. -/
inductive Section where
  /-- in `pipelined_send`, before the receivers that are left -/
  | pipelined (msg : Msg) (left : List Task)
  /-- in `sys_msgsnd`, the message handed over, before `msg_unlock` -/
  | leave (msg : Msg)
  /-- in `expunge_all`, before the receivers that are left -/
  | expunge (res : Errno) (left : List Task)
deriving DecidableEq

/-- What a task does next on the queue. -/
inductive Stage where
  | idle
  /-- `sys_msgsnd` before `msg_lock` -/
  | sendEnter (call : SendCall)
  /-- `sys_msgsnd` in `schedule` -/
  | sendAsleep (call : SendCall)
  /-- `sys_msgrcv` before `msg_lock` -/
  | recvEnter (call : RecvCall)
  /-- `sys_msgrcv` in `schedule`, or waiting for a slot that is not `NULL` -/
  | recvAsleep (call : RecvCall)
  /-- `sys_msgrcv` after it has read `-EAGAIN`, before `ipc_lock_by_ptr` -/
  | recvRelock (call : RecvCall)
  /-- `sys_msgrcv` out of its loop with a message -/
  | received (msg : Msg)
  /-- `sys_msgrcv` about to follow a `NULL` pointer -/
  | fault
  /-- `sys_msgctl(IPC_SET)` before `msg_lock` -/
  | setEnter (qbytes : Nat)
  /-- `sys_msgctl(IPC_RMID)` before `msg_lock` -/
  | rmidEnter
  /-- holding the queue lock -/
  | locked (place : Section)
  /-- holding the queue lock, the slot of `receiver` set to `NULL` and `value` still to
  be written, before or after `wake_up_process` -/
  | waking (awake : Bool) (receiver : Task) (value : Slot) (place : Section)
  /-- in `freeque`, the lock released, before `free_msg` of the messages that are left -/
  | freeing (left : List Msg)
deriving DecidableEq

/-- One queue, the tasks that use it, and what became of the messages. `loaded`
counts the messages, `allocated` are those that take up memory, and `sent`,
`received`, `removed` and `rejected` record the ends of the calls. -/
structure System where
  queue : MsgQueue
  lock : Option Task
  stage : Task → Stage
  frame : Task → Receiver
  running : Task → Bool
  signalPending : Task → Bool
  msgCtlmax : Nat
  loaded : Nat
  allocated : List Msg
  sent : List Msg
  received : List (Task × Msg)
  removed : List Msg
  rejected : List Msg

/-- The memory of a message: `sizeof(struct msg_msg)` and the text. -/
def Msg.footprint (msg : Msg) : Nat := 24 + msg.mTs

/-- Queued messages and their bytes as unsigned longs, with room for one more. -/
def MsgQueue.hasRoom (queue : MsgQueue) (msg : Msg) : Bool :=
  decide ((msg.mTs + queue.qCbytes) % 2 ^ 32 ≤ queue.qQbytes ∧
    (1 + queue.qQnum) % 2 ^ 32 ≤ queue.qQbytes)

/-- `newque`: the queue of a fresh identifier. -/
def newque (msgCtlmnb : Nat) : MsgQueue := ⟨[], [], [], 0, 0, msgCtlmnb, false⟩

def initial (msgCtlmnb msgCtlmax : Nat) : System where
  queue := newque msgCtlmnb
  lock := none
  stage := fun _ => .idle
  frame := fun _ => ⟨.any, 0, 0, .null⟩
  running := fun _ => true
  signalPending := fun _ => false
  msgCtlmax := msgCtlmax
  loaded := 0
  allocated := []
  sent := []
  received := []
  removed := []
  rejected := []

namespace System

def setStage (system : System) (task : Task) (stage : Stage) : System :=
  { system with stage := update system.stage task stage }

def setSlot (system : System) (task : Task) (slot : Slot) : System :=
  { system with
    frame := update system.frame task { system.frame task with rMsg := slot } }

def wakeUpProcess (system : System) (task : Task) : System :=
  { system with running := update system.running task true }

/-- `ss_wakeup` over `q_senders`. -/
def ssWakeup (system : System) : System :=
  { system with running := fun task =>
      if task ∈ system.queue.qSenders then true else system.running task }

/-- The error exits of `sys_msgsnd`: the message is freed. -/
def reject (system : System) (task : Task) (msg : Msg) : System :=
  { system with
    allocated := system.allocated.erase msg
    rejected := system.rejected ++ [msg] }.setStage task .idle

/-- One turn of the loop of `sys_msgsnd`, the lock held at its start. -/
def sendTurn (system : System) (task : Task) (call : SendCall) : System :=
  if system.queue.hasRoom call.msg then
    { system with lock := some task }.setStage task
      (.locked (.pipelined call.msg system.queue.qReceivers))
  else if call.ipcNowait then system.reject task call.msg
  else
    { system with
      queue := { system.queue with qSenders := system.queue.qSenders ++ [task] }
      running := update system.running task false }.setStage task (.sendAsleep call)

/-- `sys_msgsnd` back from `schedule`. -/
def sendResume (system : System) (task : Task) (call : SendCall) : System :=
  if system.queue.deleted then system.reject task call.msg
  else
    let unlinked := { system with
      queue := { system.queue with qSenders := system.queue.qSenders.erase task } }
    if system.signalPending task then unlinked.reject task call.msg
    else unlinked.sendTurn task call

/-- The end of `sys_msgsnd` when no receiver took the message. -/
def enqueue (system : System) (task : Task) (msg : Msg) : System :=
  { system with
    queue := { system.queue with
      qMessages := system.queue.qMessages ++ [msg]
      qCbytes := (system.queue.qCbytes + msg.mTs) % 2 ^ 32
      qQnum := (system.queue.qQnum + 1) % 2 ^ 32 }
    lock := none
    sent := system.sent ++ [msg] }.setStage task .idle

/-- One receiver of the walk of `pipelined_send`. -/
def offer (system : System) (task : Task) (msg : Msg) (receiver : Task) (left : List Task) :
    System :=
  let msr := system.frame receiver
  if testmsg msg msr.rMsgtype msr.rMode then
    let unlinked := { system with
      queue := { system.queue with qReceivers := system.queue.qReceivers.erase receiver } }
    if msr.rMaxsize < msg.mTs then
      (unlinked.setSlot receiver .null).setStage task
        (.waking false receiver (.error .e2big) (.pipelined msg left))
    else
      (unlinked.setSlot receiver .null).setStage task
        (.waking false receiver (.message msg) (.leave msg))
  else system.setStage task (.locked (.pipelined msg left))

/-- One turn of the loop of `sys_msgrcv`, the lock held at its start. -/
def recvTurn (system : System) (task : Task) (call : RecvCall) : System :=
  match takeMessage system.queue.qMessages call.msgtyp call.mode call.msgsz
      call.flags.msgNoerror with
  | .taken msg left =>
      { system.ssWakeup with
        queue := { system.queue with
          qMessages := left
          qCbytes := (system.queue.qCbytes + 2 ^ 32 - msg.mTs) % 2 ^ 32
          qQnum := (system.queue.qQnum + 2 ^ 32 - 1) % 2 ^ 32 } }.setStage task (.received msg)
  | .tooBig _ => system.setStage task .idle
  | .nothing =>
      if call.flags.ipcNowait then system.setStage task .idle
      else
        { system with
          queue := { system.queue with qReceivers := system.queue.qReceivers ++ [task] }
          frame := update system.frame task
            ⟨call.mode, call.msgtyp,
              if call.flags.msgNoerror then 2 ^ 31 - 1 else call.msgsz, .error .eagain⟩
          running := update system.running task false }.setStage task (.recvAsleep call)

/-- The lockless part of `sys_msgrcv`: it spins on `NULL`. -/
def recvPoll (system : System) (task : Task) (call : RecvCall) : System :=
  match (system.frame task).rMsg with
  | .null => system
  | .error .eagain => system.setStage task (.recvRelock call)
  | .error _ => system.setStage task .idle
  | .message msg => system.setStage task (.received msg)

/-- The part of `sys_msgrcv` that repeats the test under the lock. -/
def recvLocked (system : System) (task : Task) (call : RecvCall) : System :=
  match (system.frame task).rMsg with
  | .null => system.setStage task .fault
  | .error .eagain =>
      let unlinked := { system with
        queue := { system.queue with qReceivers := system.queue.qReceivers.erase task } }
      if system.signalPending task then unlinked.setStage task .idle
      else unlinked.recvTurn task call
  | .error _ => system.setStage task .idle
  | .message msg => system.setStage task (.received msg)

/-- The end of `sys_msgrcv`: the message is copied out and freed. -/
def deliver (system : System) (task : Task) (msg : Msg) : System :=
  { system with
    allocated := system.allocated.erase msg
    received := system.received ++ [(task, msg)] }.setStage task .idle

/-- `sys_msgctl(IPC_SET)` up to `expunge_all`. -/
def ipcSet (system : System) (task : Task) (qbytes : Nat) : System :=
  { system with queue := { system.queue with qQbytes := qbytes }, lock := some task }.setStage task
    (.locked (.expunge .eagain system.queue.qReceivers))

/-- What follows `expunge_all`: `IPC_SET` wakes the senders; `freeque` also takes them
off their list, removes the identifier and goes on to free the messages. -/
def expunged (system : System) (task : Task) (res : Errno) : System :=
  if res = .eidrm then
    { system.ssWakeup with
      queue := { system.queue with qSenders := [], deleted := true }
      lock := none }.setStage task (.freeing system.queue.qMessages)
  else { system.ssWakeup with lock := none }.setStage task .idle

def freeMsg (system : System) (task : Task) (msg : Msg) (left : List Msg) : System :=
  { system with
    allocated := system.allocated.erase msg
    removed := system.removed ++ [msg] }.setStage task (.freeing left)

/-- What a task does with the lock in its hands. -/
def inSection (system : System) (task : Task) : Section → System
  | .pipelined msg [] => system.enqueue task msg
  | .pipelined msg (receiver :: left) => system.offer task msg receiver left
  | .leave msg => { system with lock := none, sent := system.sent ++ [msg] }.setStage task .idle
  | .expunge res [] => system.expunged task res
  | .expunge res (receiver :: left) =>
      (system.setSlot receiver .null).setStage task
        (.waking false receiver (.error res) (.expunge res left))

/-- One step of a task. A step that needs the lock is not possible while another
task has it, nor is a step of a task that sleeps. -/
def advance (system : System) (task : Task) : Option System :=
  let awake := system.running task || system.signalPending task
  match system.stage task with
  | .idle | .fault => none
  | .sendEnter call =>
      if system.lock.isSome then none
      else if system.queue.deleted then some (system.reject task call.msg)
      else some (system.sendTurn task call)
  | .sendAsleep call =>
      if awake && system.lock.isNone then some (system.sendResume task call) else none
  | .recvEnter call =>
      if system.lock.isSome then none
      else if system.queue.deleted then some (system.setStage task .idle)
      else some (system.recvTurn task call)
  | .recvAsleep call => if awake then some (system.recvPoll task call) else none
  | .recvRelock call => if system.lock.isSome then none else some (system.recvLocked task call)
  | .received msg => some (system.deliver task msg)
  | .setEnter qbytes =>
      if system.lock.isSome then none
      else if system.queue.deleted then some (system.setStage task .idle)
      else some (system.ipcSet task qbytes)
  | .rmidEnter =>
      if system.lock.isSome then none
      else if system.queue.deleted then some (system.setStage task .idle)
      else some ({ system with lock := some task }.setStage task
        (.locked (.expunge .eidrm system.queue.qReceivers)))
  | .locked place => some (system.inSection task place)
  | .waking false receiver value place =>
      some ((system.wakeUpProcess receiver).setStage task (.waking true receiver value place))
  | .waking true receiver value place =>
      some ((system.setSlot receiver value).setStage task (.locked place))
  | .freeing [] => some (system.setStage task .idle)
  | .freeing (msg :: left) => some (system.freeMsg task msg left)

/-- `sys_msgsnd` up to `msg_lock`. `load_msg` fails when the memory is used up, and
there are less than 2^32 bytes of it. -/
def msgsnd (system : System) (task : Task) (mtype : Int) (msgsz : Nat) (ipcNowait : Bool) :
    System :=
  let msg : Msg := ⟨system.loaded, mtype, msgsz⟩
  if system.msgCtlmax < msgsz ∨ 2 ^ 31 ≤ msgsz ∨ mtype < 1 then system
  else if 2 ^ 32 ≤ ((msg :: system.allocated).map Msg.footprint).sum then system
  else
    { system with
      loaded := system.loaded + 1
      allocated := system.allocated ++ [msg] }.setStage task (.sendEnter ⟨msg, ipcNowait⟩)

end System

/-- A task enters a system call, gets or handles a signal, or goes on. -/
inductive Op where
  | msgsnd (task : Task) (mtype : Int) (msgsz : Nat) (ipcNowait : Bool)
  | msgrcv (task : Task) (msgsz : Nat) (msgtyp : Int) (flags : RecvFlags)
  | ipcSet (task : Task) (qbytes : Nat)
  | ipcRmid (task : Task)
  | signal (task : Task)
  | handleSignal (task : Task)
  | advance (task : Task)
deriving DecidableEq

def step (system : System) : Op → Option System
  | .msgsnd task mtype msgsz ipcNowait =>
      if system.stage task = .idle then some (system.msgsnd task mtype msgsz ipcNowait) else none
  | .msgrcv task msgsz msgtyp flags =>
      if system.stage task = .idle then
        let converted := convertMode msgtyp flags.msgExcept
        some (system.setStage task (.recvEnter ⟨msgsz, converted.1, converted.2, flags⟩))
      else none
  | .ipcSet task qbytes =>
      if system.stage task = .idle then some (system.setStage task (.setEnter qbytes)) else none
  | .ipcRmid task =>
      if system.stage task = .idle then some (system.setStage task .rmidEnter) else none
  | .signal task =>
      some { system.wakeUpProcess task with
        signalPending := update system.signalPending task true }
  | .handleSignal task =>
      if system.stage task = .idle then
        some { system with signalPending := update system.signalPending task false }
      else none
  | .advance task => system.advance task

end MagxKernel.SysvMsg
