import Mathlib.Logic.Function.Basic

namespace MagxKernel.SysvSem

abbrev semvmx : Int := 32767
abbrev semaem : Int := semvmx
abbrev semopm : Nat := 32

abbrev eintr : Int := 4
abbrev e2big : Int := 7
abbrev eagain : Int := 11
abbrev einval : Int := 22
abbrev efbig : Int := 27
abbrev erange : Int := 34

/-- `struct sembuf`; the two flags are the bits of `sem_flg` that are read. -/
structure Sembuf where
  semNum : Nat
  semOp : Int16
  ipcNowait : Bool := false
  semUndo : Bool := false
deriving DecidableEq

structure Sem where
  semval : Int
  sempid : Int

/-- Names the `sem_undo` that one undo list keeps for this set. -/
abbrev UndoId := Nat

structure SemQueue where
  sleeper : Nat
  undo : Option UndoId
  pid : Int
  sops : List Sembuf
deriving DecidableEq

/-- A semaphore set with the adjustment arrays of its undo structures and the
`status` field that every sleeper reads when it wakes up. -/
structure SemArray where
  semNsems : Nat
  semBase : Nat → Sem
  semPending : List SemQueue
  undo : List UndoId
  semadj : UndoId → Nat → Int16
  status : Nat → Int

namespace SemArray

def semval (sma : SemArray) (num : Nat) : Int := (sma.semBase num).semval

def setSemval (sma : SemArray) (num : Nat) (value : Int) : SemArray :=
  { sma with semBase :=
      Function.update sma.semBase num { sma.semBase num with semval := value } }

def setSempid (sma : SemArray) (num : Nat) (pid : Int) : SemArray :=
  { sma with semBase :=
      Function.update sma.semBase num { sma.semBase num with sempid := pid } }

def setSemadj (sma : SemArray) (un : UndoId) (num : Nat) (adjust : Int16) : SemArray :=
  { sma with semadj :=
      Function.update sma.semadj un (Function.update (sma.semadj un) num adjust) }

end SemArray

/-- The `undo` label of `try_atomic_semop`: take back the finished operations,
last one first. -/
def undoOps : List Sembuf → SemArray → SemArray
  | [], sma => sma
  | sop :: finished, sma =>
    undoOps finished (sma.setSemval sop.semNum (sma.semval sop.semNum - sop.semOp.toInt))

/-- One operation in the closing loop of `try_atomic_semop`; `semadj` is stored
in a `short`. -/
def commitOp (un : Option UndoId) (pid : Int) (sma : SemArray) (sop : Sembuf) : SemArray :=
  let named := sma.setSempid sop.semNum pid
  match un with
  | some u =>
    if sop.semUndo then
      named.setSemadj u sop.semNum
        (Int16.ofInt ((named.semadj u sop.semNum).toInt - sop.semOp.toInt))
    else named
  | none => named

/-- The closing loop, last operation first. -/
def commitOps (un : Option UndoId) (pid : Int) (finished : List Sembuf) (sma : SemArray) :
    SemArray :=
  finished.foldl (commitOp un pid) sma

/-- The result at the `would_block` label. -/
def wouldBlock (sop : Sembuf) : Int := if sop.ipcNowait then -eagain else 1

/-- `SEM_UNDO` is refused when the adjustment would leave its range. -/
def undoOutOfRange (sma : SemArray) (un : Option UndoId) (sop : Sembuf) : Bool :=
  match un with
  | some u =>
    let undo := (sma.semadj u sop.semNum).toInt - sop.semOp.toInt
    sop.semUndo && (decide (undo < -semaem - 1) || decide (semaem < undo))
  | none => false

/-- The checks that `try_atomic_semop` makes before it applies one operation,
with the result of the label they jump to. -/
def opError (sma : SemArray) (un : Option UndoId) (sop : Sembuf) : Option Int :=
  let result := sma.semval sop.semNum + sop.semOp.toInt
  if sop.semOp = 0 ∧ sma.semval sop.semNum ≠ 0 then some (wouldBlock sop)
  else if result < 0 then some (wouldBlock sop)
  else if semvmx < result then some (-erange)
  else if undoOutOfRange sma un sop then some (-erange)
  else none

/-- The forward loop of `try_atomic_semop`; `finished` holds the operations
already applied, last one first. -/
def tryLoop (un : Option UndoId) (pid : Int) :
    (sops finished : List Sembuf) → SemArray → Int × SemArray
  | [], finished, sma => (0, commitOps un pid finished sma)
  | sop :: sops, finished, sma =>
    match opError sma un sop with
    | some error => (error, undoOps finished sma)
    | none => tryLoop un pid sops (sop :: finished)
        (sma.setSemval sop.semNum (sma.semval sop.semNum + sop.semOp.toInt))

/-- `try_atomic_semop`: 0 when done, 1 when the caller must sleep, else an error. -/
def tryAtomicSemop (sma : SemArray) (sops : List Sembuf) (un : Option UndoId) (pid : Int) :
    Int × SemArray :=
  tryLoop un pid sops [] sma

def attempt (sma : SemArray) (q : SemQueue) : Int × SemArray :=
  tryAtomicSemop sma q.sops q.undo q.pid

/-- `update_queue` is done with an entry: its sleeper gets the result as status. -/
def complete (sma : SemArray) (q : SemQueue) : SemArray :=
  let (error, next) := attempt sma q
  { next with status := Function.update next.status q.sleeper error }

/-- The loop of `update_queue`: the entries that stay queued and the new set. -/
def updateLoop : List SemQueue → SemArray → List SemQueue × SemArray
  | [], sma => ([], sma)
  | q :: queue, sma =>
    if (attempt sma q).1 ≤ 0 then updateLoop queue (complete sma q)
    else
      let (kept, final) := updateLoop queue (attempt sma q).2
      (q :: kept, final)

/-- `update_queue` -/
def updateQueue (sma : SemArray) : SemArray :=
  let (kept, final) := updateLoop sma.semPending sma
  { final with semPending := kept }

/-- `find_undo` allocates a zeroed structure on first use. -/
def findUndo (sma : SemArray) (u : UndoId) : SemArray :=
  if u ∈ sma.undo then sma
  else { sma with undo := u :: sma.undo, semadj := Function.update sma.semadj u fun _ => 0 }

/-- `un` in `sys_semtimedop`: `NULL` unless some operation has `SEM_UNDO`. -/
def semopUndo (sma : SemArray) (undoList : UndoId) (sops : List Sembuf) :
    Option UndoId × SemArray :=
  if sops.any (·.semUndo) then (some undoList, findUndo sma undoList) else (none, sma)

def maxNum (sops : List Sembuf) : Nat := (sops.map (·.semNum)).foldl max 0

def alters (sops : List Sembuf) : Bool := sops.any fun sop => decide (sop.semOp ≠ 0)

/-- The first critical section of `sys_semtimedop`: the returned error, or none
when the caller goes to sleep. An operation that cannot complete is queued, at
the tail when it alters the set and else at the head. -/
def semtimedop (sma : SemArray) (task : Nat) (undoList : UndoId) (pid : Int)
    (sops : List Sembuf) : Option Int × SemArray :=
  if sops.length < 1 then (some (-einval), sma)
  else if semopm < sops.length then (some (-e2big), sma)
  else
    let (un, sma) := semopUndo sma undoList sops
    if sma.semNsems ≤ maxNum sops then (some (-efbig), sma)
    else
      let (error, next) := tryAtomicSemop sma sops un pid
      if error ≤ 0 then (some error, if alters sops then updateQueue next else next)
      else
        let queue : SemQueue := ⟨task, un, pid, sops⟩
        (none, { next with
          semPending :=
            if alters sops then next.semPending ++ [queue] else queue :: next.semPending
          status := Function.update next.status task (-eintr) })

/-- A sleeper that a signal or its timeout woke up leaves the queue. -/
def interrupt (sma : SemArray) (task : Nat) : SemArray :=
  { sma with semPending := sma.semPending.eraseP (·.sleeper == task) }

/-- Zero one semaphore's entry of every undo structure on the set. -/
def clearAdjust (sma : SemArray) (nums : List Nat) : SemArray :=
  { sma with semadj := fun un num =>
      if un ∈ sma.undo ∧ num ∈ nums then 0 else sma.semadj un num }

/-- The assignments of `SETVAL`. -/
def setvalAssign (sma : SemArray) (semnum : Nat) (value pid : Int) : SemArray :=
  ((clearAdjust sma [semnum]).setSemval semnum value).setSempid semnum pid

/-- `semctl(SETVAL)` -/
def semctlSetval (sma : SemArray) (semnum : Nat) (value pid : Int) : Int × SemArray :=
  if sma.semNsems ≤ semnum then (-einval, sma)
  else if semvmx < value ∨ value < 0 then (-erange, sma)
  else (0, updateQueue (setvalAssign sma semnum value pid))

/-- The assignments of `SETALL`. -/
def setallAssign (sma : SemArray) (semIo : Nat → Nat) : SemArray :=
  clearAdjust
    { sma with semBase := fun num =>
        if num < sma.semNsems then { sma.semBase num with semval := semIo num }
        else sma.semBase num }
    (List.range sma.semNsems)

/-- `semctl(SETALL)` -/
def semctlSetall (sma : SemArray) (semIo : Nat → Nat) : Int × SemArray :=
  if ∃ num < sma.semNsems, semvmx < semIo num then (-erange, sma)
  else (0, updateQueue (setallAssign sma semIo))

/-- One semaphore in the loop of `exit_sem`: the value is capped at both ends. -/
def exitAdjust (u : UndoId) (pid : Int) (sma : SemArray) (num : Nat) : SemArray :=
  if sma.semadj u num ≠ 0 then
    let value := sma.semval num + (sma.semadj u num).toInt
    let floored := if value < 0 then 0 else value
    let capped := if semvmx < floored then semvmx else floored
    (sma.setSemval num capped).setSempid num pid
  else sma

/-- The adjustments `exit_sem` performs for one undo structure of the set. -/
def exitAssign (sma : SemArray) (u : UndoId) (pid : Int) : SemArray :=
  (List.range sma.semNsems).foldl (exitAdjust u pid) { sma with undo := sma.undo.erase u }

/-- `exit_sem` for the last task of an undo list, on one set. -/
def exitSem (sma : SemArray) (u : UndoId) (pid : Int) : SemArray :=
  if u ∈ sma.undo then updateQueue (exitAssign sma u pid) else sma

/-- The set that `newary` creates. -/
def newary (nsems : Nat) : SemArray where
  semNsems := nsems
  semBase := fun _ => ⟨0, 0⟩
  semPending := []
  undo := []
  semadj := fun _ _ => 0
  status := fun _ => 0

inductive Op where
  | semop (task : Nat) (undoList : UndoId) (pid : Int) (sops : List Sembuf)
  | interrupt (task : Nat)
  | setval (semnum : Nat) (value pid : Int)
  | setall (semIo : Nat → Nat)
  | exit (u : UndoId) (pid : Int)

def step (sma : SemArray) : Op → SemArray
  | .semop task undoList pid sops => (semtimedop sma task undoList pid sops).2
  | .interrupt task => interrupt sma task
  | .setval semnum value pid => (semctlSetval sma semnum value pid).2
  | .setall semIo => (semctlSetall sma semIo).2
  | .exit u pid => exitSem sma u pid

end MagxKernel.SysvSem
