import MagxKernel.SysvMsg.Delivery

namespace MagxKernel.SysvMsg

open Function List

/-- The message and those on the queue stay within `q_qbytes`. -/
def Fits (queue : MsgQueue) (msg : Msg) : Prop :=
  msg.mTs + (queue.qMessages.map Msg.mTs).sum ≤ queue.qQbytes ∧
    1 + queue.qMessages.length ≤ queue.qQbytes

/-- The messages of a queue, its counters and its limit. -/
def MsgQueue.counted (queue : MsgQueue) : List Msg × Nat × Nat × Nat :=
  (queue.qMessages, queue.qCbytes, queue.qQnum, queue.qQbytes)

/-- The message is one the receiver sleeps for. -/
def System.Selects (system : System) (receiver : Task) (msg : Msg) : Prop :=
  testmsg msg (system.frame receiver).rMsgtype (system.frame receiver).rMode = true

/-- The counters, and who sleeps with good reason. -/
structure Balanced (system : System) : Prop where
  count : system.queue.qQnum = system.queue.qMessages.length
  bytes : system.queue.qCbytes = (system.queue.qMessages.map Msg.mTs).sum
  selectors : ∀ receiver ∈ system.queue.qReceivers, ∀ msg ∈ system.queue.qMessages,
    ¬ system.Selects receiver msg
  offered : ∀ task msg left, (system.stage task).position = some (.pipelined msg left) →
    ∀ receiver ∈ system.queue.qReceivers, receiver ∉ left → ¬ system.Selects receiver msg
  senders : (∀ task left, (system.stage task).position ≠ some (.expunge .eagain left)) →
    ∀ sender ∈ system.queue.qSenders, system.running sender = false →
      ∀ call, system.stage sender = .sendAsleep call → ¬ Fits system.queue call.msg

theorem initial_balanced (msgCtlmnb msgCtlmax : Nat) : Balanced (initial msgCtlmnb msgCtlmax) where
  count := rfl
  bytes := rfl
  selectors := forall_mem_nil _
  offered := fun _ _ _ there => absurd there.symm (Option.some_ne_none _)
  senders := fun _ _ inside => absurd inside not_mem_nil

theorem sum_footprint (list : List Msg) :
    (list.map Msg.footprint).sum = 24 * list.length + (list.map Msg.mTs).sum := by
  induction list with
  | nil => rfl
  | cons msg rest ih =>
    simp only [map_cons, sum_cons, length_cons, ih, Msg.footprint]
    omega

section Memory

variable {system : System} {place : Msg → Option Place} {task : Task} {msg : Msg}

/-- Messages that are all in memory, each once, have less than 2^32 bytes together. -/
theorem Stored.sum_lt (stored : Stored system place) {list : List Msg} (distinct : list.Nodup)
    (inMemory : ∀ msg ∈ list, msg ∈ system.allocated) :
    (list.map Msg.footprint).sum < 2 ^ 32 := by
  obtain ⟨listed, same, sublist⟩ := subperm_of_subset distinct inMemory
  have equal : (listed.map Msg.footprint).sum = (list.map Msg.footprint).sum :=
    (same.map Msg.footprint).sum_eq
  have bound := (sublist.map Msg.footprint).sum_le_sum fun _ _ => Nat.zero_le _
  have := stored.fits
  omega

section

variable (accounted : Accounted system place) (exists_ : system.queue.deleted = false)
  (mine : system.holding task = some (.sending, msg))

include accounted exists_ mine

/-- The queue and a message that is being sent fit in the memory. -/
theorem Accounted.sum_lt :
    msg.mTs + (system.queue.qMessages.map Msg.mTs).sum < 2 ^ 32 ∧
      1 + system.queue.qMessages.length < 2 ^ 32 := by
  have was := (accounted.located.held msg .sending task).mp mine
  have bound := accounted.stored.sum_lt
    (nodup_cons.mpr ⟨accounted.absent exists_ was, accounted.recorded.queued⟩)
    (fun other inside => by
      rw [accounted.stored.allocated]
      cases mem_cons.mp inside with
      | inl here => exact ⟨_, here ▸ was, rfl⟩
      | inr queued => exact ⟨_, accounted.queued_allocated exists_ queued, rfl⟩)
  rw [sum_footprint] at bound
  simp only [length_cons, map_cons, sum_cons] at bound
  omega

/-- The test of `sys_msgsnd` on unsigned longs is exact. -/
theorem hasRoom_iff (balanced : Balanced system) :
    system.queue.hasRoom msg = true ↔ Fits system.queue msg := by
  have bound := accounted.sum_lt exists_ mine
  unfold MsgQueue.hasRoom Fits
  rw [decide_eq_true_iff, balanced.count, balanced.bytes, Nat.mod_eq_of_lt bound.1,
    Nat.mod_eq_of_lt bound.2]

end

end Memory

namespace Balanced

variable {system after : System} {place : Msg → Option Place} {task : Task} {stage : Stage}

section

variable (balanced : Balanced system) {old : Stage} (was : system.stage task = old)
  (stages : after.stage = update system.stage task stage) (awake : ∀ call, stage ≠ .sendAsleep call)
  (sets : ∀ left, old.position = some (.expunge .eagain left) →
    ∃ left', stage.position = some (.expunge .eagain left'))

include balanced was stages awake sets

/-- A sender that sleeps on still had no room when the task went on. -/
theorem asleep_full
    (quiet : ∀ other left, (after.stage other).position ≠ some (.expunge .eagain left))
    {sender : Task} (inside : sender ∈ system.queue.qSenders)
    (stopped : system.running sender = false) {call : SendCall}
    (asleep : after.stage sender = .sendAsleep call) : ¬ Fits system.queue call.msg := by
  refine balanced.senders (fun other left there => ?_) sender inside stopped call ?_
  · by_cases here : other = task
    · obtain ⟨left', now⟩ := sets left (was ▸ here ▸ there)
      exact quiet task left' (by rw [stages, update_self, now])
    · exact quiet other left (by rw [stages, update_of_ne here, there])
  · rw [stages, update_apply] at asleep
    split at asleep
    · exact absurd asleep (awake call)
    · exact asleep

/-- A task goes on; the messages stay, and nobody else comes or goes to sleep. -/
theorem goOn (selects : ∀ receiver msg, after.Selects receiver msg ↔ system.Selects receiver msg)
    (counted : after.queue.counted = system.queue.counted)
    (receivers : ∀ receiver ∈ after.queue.qReceivers, receiver ∈ system.queue.qReceivers)
    (senders : ∀ sender ∈ after.queue.qSenders, sender ∈ system.queue.qSenders)
    (running : ∀ sender, after.running sender = false → system.running sender = false)
    (offers : ∀ msg left, stage.position = some (.pipelined msg left) →
      ∀ receiver ∈ after.queue.qReceivers, receiver ∉ left → ¬ system.Selects receiver msg) :
    Balanced after := by
  simp only [MsgQueue.counted, Prod.mk.injEq] at counted
  obtain ⟨messages, qCbytes, qQnum, qQbytes⟩ := counted
  constructor
  · rw [qQnum, messages]
    exact balanced.count
  · rw [qCbytes, messages]
    exact balanced.bytes
  · intro receiver inside msg queued
    rw [selects]
    exact balanced.selectors receiver (receivers receiver inside) msg (messages ▸ queued)
  · intro other msg left there receiver inside past
    rw [selects]
    rw [stages, update_apply] at there
    split at there
    · exact offers msg left there receiver inside past
    · exact balanced.offered other msg left there receiver (receivers receiver inside) past
  · intro quiet sender inside stopped call asleep
    have full := balanced.asleep_full was stages awake sets quiet (senders sender inside)
      (running sender stopped) asleep
    unfold Fits at full ⊢
    rwa [messages, qQbytes]

end

theorem setSlot_selects {receiver other : Task} {value : Slot} {msg : Msg} :
    (system.setSlot receiver value).Selects other msg ↔ system.Selects other msg := by
  unfold System.Selects System.setSlot
  dsimp only
  rw [update_apply]
  split
  · rename_i here
    rw [here]
  · rfl

section

variable (balanced : Balanced system)

include balanced

section

variable (accounted : Accounted system place) (exists_ : system.queue.deleted = false)

include accounted exists_

theorem take {msg : Msg} {left : List Msg} (inQueue : msg ∈ system.queue.qMessages)
    (isLeft : left = system.queue.qMessages.erase msg) :
    Balanced ({ system.ssWakeup with
      queue := { system.queue with
        qMessages := left
        qCbytes := (system.queue.qCbytes + 2 ^ 32 - msg.mTs) % 2 ^ 32
        qQnum := (system.queue.qQnum + 2 ^ 32 - 1) % 2 ^ 32 } }.setStage task (.received msg)) := by
  have perm := perm_cons_erase inQueue
  have length : system.queue.qMessages.length = left.length + 1 := by
    rw [isLeft, perm.length_eq, length_cons]
  have sum : (system.queue.qMessages.map Msg.mTs).sum = msg.mTs + (left.map Msg.mTs).sum := by
    rw [isLeft, (perm.map Msg.mTs).sum_eq, map_cons, sum_cons]
  have bound := accounted.stored.sum_lt accounted.recorded.queued fun other queued => by
    rw [accounted.stored.allocated]
    exact ⟨_, accounted.queued_allocated exists_ queued, rfl⟩
  rw [sum_footprint] at bound
  have fewer : ∀ other ∈ left, other ∈ system.queue.qMessages := fun other inside =>
    mem_of_mem_erase (isLeft ▸ inside)
  constructor
  · change (system.queue.qQnum + 2 ^ 32 - 1) % 2 ^ 32 = left.length
    rw [balanced.count]
    omega
  · change (system.queue.qCbytes + 2 ^ 32 - msg.mTs) % 2 ^ 32 = (left.map Msg.mTs).sum
    rw [balanced.bytes]
    omega
  · exact fun receiver inside other queued =>
      balanced.selectors receiver inside other (fewer other queued)
  · intro other sending rest there
    rw [setStage_stage] at there
    split at there
    · cases there
    · exact balanced.offered other sending rest there
  · -- every sleeping sender has just been woken
    intro _ sender inside stopped
    have woken : true = false := (if_pos inside).symm.trans stopped
    cases woken

theorem enqueue {msg : Msg} (held : system.stage task = .locked (.pipelined msg [])) :
    Balanced (system.enqueue task msg) := by
  have mine : system.holding task = some (.sending, msg) := holding_of_stage held
  have bound := accounted.sum_lt exists_ mine
  have refused : ∀ receiver ∈ system.queue.qReceivers, ¬ system.Selects receiver msg :=
    fun receiver inside => balanced.offered task msg [] (by rw [held]; rfl) receiver inside
      not_mem_nil
  have stages : (system.enqueue task msg).stage = update system.stage task .idle := rfl
  constructor
  · change (system.queue.qQnum + 1) % 2 ^ 32 = (system.queue.qMessages ++ [msg]).length
    rw [balanced.count, length_append, length_singleton]
    omega
  · change (system.queue.qCbytes + msg.mTs) % 2 ^ 32 =
      ((system.queue.qMessages ++ [msg]).map Msg.mTs).sum
    rw [balanced.bytes, map_append, sum_append, map_singleton, sum_singleton]
    omega
  · intro receiver inside other queued
    cases mem_append.mp queued with
    | inl older => exact balanced.selectors receiver inside other older
    | inr new => exact mem_singleton.mp new ▸ refused receiver inside
  · intro other sending left there
    rw [stages, update_apply] at there
    split at there
    · cases there
    · exact balanced.offered other sending left there
  · intro quiet sender inside stopped call asleep
    have full := balanced.asleep_full held stages nofun nofun quiet inside stopped asleep
    -- the queue has only grown
    intro fits
    apply full
    have bytes : call.msg.mTs + ((system.queue.qMessages ++ [msg]).map Msg.mTs).sum ≤
      system.queue.qQbytes := fits.1
    have count : 1 + (system.queue.qMessages ++ [msg]).length ≤ system.queue.qQbytes := fits.2
    rw [map_append, sum_append] at bytes
    rw [length_append] at count
    exact ⟨by omega, by omega⟩

theorem sleepSender (free : ∀ other there, (system.stage other).position ≠ some there)
    {call : SendCall} (entered : system.stage task = .sendEnter call)
    (full : system.queue.hasRoom call.msg = false) :
    Balanced ({ system with
      queue := { system.queue with qSenders := system.queue.qSenders ++ [task] }
      running := update system.running task false }.setStage task (.sendAsleep call)) := by
  have tooBig : ¬ Fits system.queue call.msg := by
    have mine : system.holding task = some (.sending, call.msg) := holding_of_stage entered
    rw [← hasRoom_iff accounted exists_ mine balanced, full]
    exact Bool.noConfusion
  refine { balanced with offered := ?_, senders := ?_ }
  · intro other msg left there
    rw [setStage_stage] at there
    split at there
    · cases there
    · exact absurd there (free other _)
  · intro _ sender inside stopped other asleep
    rw [setStage_stage] at asleep
    split at asleep
    · rw [← Stage.sendAsleep.inj asleep]
      exact tooBig
    · rename_i elsewhere
      have older : sender ∈ system.queue.qSenders := (mem_append.mp inside).resolve_right
        fun here => elsewhere (mem_singleton.mp here)
      have wasStopped : system.running sender = false :=
        (update_of_ne elsewhere _ _).symm.trans stopped
      exact balanced.senders (fun other left => free other _) sender older wasStopped other asleep

end

theorem sleepReceiver (sound : Disciplined system) (free : system.lock = none) {call : RecvCall}
    {rMaxsize : Nat}
    (unwanted : ∀ msg ∈ system.queue.qMessages, testmsg msg call.msgtyp call.mode = false) :
    Balanced ({ system with
      queue := { system.queue with qReceivers := system.queue.qReceivers ++ [task] }
      frame := update system.frame task
        ⟨call.mode, call.msgtyp, rMaxsize, .error .eagain⟩
      running := update system.running task false }.setStage task
        (.recvAsleep call)) := by
  constructor
  · exact balanced.count
  · exact balanced.bytes
  · intro receiver inside msg queued
    unfold System.Selects
    rw [setStage_frame]
    dsimp only
    rw [update_apply]
    split
    · rw [unwanted msg queued]
      exact Bool.noConfusion
    · rename_i elsewhere
      have older : receiver ∈ system.queue.qReceivers := (mem_append.mp inside).resolve_right
        fun here => elsewhere (mem_singleton.mp here)
      exact balanced.selectors receiver older msg queued
  · intro other msg left there
    rw [setStage_stage] at there
    split at there
    · cases there
    · exact (sound.nowhere free there).elim
  · intro _ sender inside stopped call' asleep
    rw [setStage_stage] at asleep
    split at asleep
    · cases asleep
    rename_i elsewhere
    have wasStopped : system.running sender = false :=
      (update_of_ne elsewhere _ _).symm.trans stopped
    exact balanced.senders (fun other left there => (sound.nowhere free there).elim) sender
      inside wasStopped call' asleep

/-- Senders that have all been woken, or are on no list, are no obstacle. -/
theorem woken (stages : after.stage = update system.stage task stage)
    (frame : after.frame = system.frame) (messages : after.queue.qMessages = system.queue.qMessages)
    (qCbytes : after.queue.qCbytes = system.queue.qCbytes)
    (qQnum : after.queue.qQnum = system.queue.qQnum)
    (receivers : after.queue.qReceivers = system.queue.qReceivers)
    (now : ∀ msg left, stage.position ≠ some (.pipelined msg left))
    (awake : (∀ left, stage.position ≠ some (.expunge .eagain left)) →
      ∀ sender ∈ after.queue.qSenders, after.running sender = true) : Balanced after := by
  have selects : ∀ receiver msg, after.Selects receiver msg ↔ system.Selects receiver msg :=
    fun _ _ => by unfold System.Selects; rw [frame]
  constructor
  · rw [qQnum, messages]
    exact balanced.count
  · rw [qCbytes, messages]
    exact balanced.bytes
  · intro receiver inside msg queued
    rw [selects]
    exact balanced.selectors receiver (receivers ▸ inside) msg (messages ▸ queued)
  · intro other msg left there receiver inside past
    rw [selects]
    rw [stages, update_apply] at there
    split at there
    · exact absurd there (now msg left)
    · exact balanced.offered other msg left there receiver (receivers ▸ inside) past
  · intro quiet sender inside stopped
    have runs := awake (fun left there => quiet task left (by
      rw [stages, update_self, there])) sender inside
    rw [stopped] at runs
    cases runs

/-- A task outside every critical section goes on outside. -/
theorem quietly {old : Stage} (was : system.stage task = old) (before : old.position = none)
    (stages : after.stage = update system.stage task stage)
    (kept : (after.queue, after.frame, after.running) =
      (system.queue, system.frame, system.running))
    (now : stage.position = none) (awake : ∀ call, stage ≠ .sendAsleep call) : Balanced after := by
  simp only [Prod.mk.injEq] at kept
  obtain ⟨queue, frame, running⟩ := kept
  refine balanced.goOn was stages awake (fun left there => ?_)
    (fun _ _ => by unfold System.Selects; rw [frame]) (by rw [queue])
    (fun _ => by rw [queue]; exact id) (fun _ => by rw [queue]; exact id)
    (fun _ => by rw [running]; exact id) (fun msg left there => ?_)
  · rw [before] at there
    cases there
  · rw [now] at there
    cases there

theorem transition (sound : Disciplined system) (accounted : Accounted system place)
    (moved : Transition task system after) :
    Balanced after := by
  cases moved with
  | stay => exact balanced
  | enter stage idle entry =>
    rcases entry with ⟨_, rfl⟩ | ⟨_, rfl⟩ | rfl <;>
      exact balanced.quietly idle rfl rfl rfl rfl nofun
  | load msg ipcNowait was fresh room | again call was slot | deliver msg was
  | freeMsg msg left was =>
    exact balanced.quietly was rfl rfl rfl rfl nofun
  | flags running signalPending wakes =>
    exact { balanced with
      senders := fun quiet sender inside stopped =>
        balanced.senders quiet sender inside (wakes sender stopped) }
  | reject call sends =>
    rcases sends with entered | ⟨asleep, _⟩
    · exact balanced.quietly entered rfl rfl rfl rfl nofun
    · exact balanced.quietly asleep rfl rfl rfl rfl nofun
  | finish done =>
    have before : (system.stage task).position = none := by
      cases done with
      | receive call entered => rw [entered]; rfl
      | set qbytes entered | rmid entered | freed entered => rw [entered]; rfl
      | error err waits proper slot => exact Stage.position_waiting waits
    exact balanced.quietly rfl before rfl rfl rfl nofun
  | pick msg waits slot =>
    exact balanced.quietly rfl (Stage.position_waiting waits) rfl rfl rfl nofun
  | unlinkSender call asleep free =>
    exact balanced.goOn asleep rfl nofun nofun (fun _ _ => Iff.rfl) rfl (fun _ => id)
      (fun _ => mem_of_mem_erase) (fun _ => id) nofun
  | unlinkReceiver call relock slot free =>
    exact balanced.goOn relock rfl nofun nofun (fun _ _ => Iff.rfl) rfl
      (fun _ => mem_of_mem_erase) (fun _ => id) (fun _ => id) nofun
  | sendStart call entered free exists_ room =>
    refine balanced.goOn entered rfl nofun nofun (fun _ _ => Iff.rfl) rfl (fun _ => id)
      (fun _ => id) (fun _ => id) (fun msg left there => ?_)
    obtain ⟨rfl, rfl⟩ := Section.pipelined.inj (Option.some.inj there)
    exact fun _ => absurd
  | sleepSender call entered free exists_ full =>
    exact balanced.sleepSender accounted exists_ (fun _ _ => sound.nowhere free)
      entered full
  | take call msg left entered free exists_ found =>
    obtain ⟨inQueue, isLeft⟩ := takeMessage_taken found
    exact balanced.take accounted exists_ inQueue isLeft
  | sleepReceiver call rMaxsize entered free exists_ found =>
    exact balanced.sleepReceiver sound free (takeMessage_nothing found)
  | ipcSet qbytes entered free exists_ =>
    refine balanced.woken rfl rfl rfl rfl rfl rfl nofun (fun quiet => ?_)
    exact absurd rfl (quiet system.queue.qReceivers)
  | ipcRmid was free exists_ | leave msg was =>
    exact balanced.goOn was rfl nofun nofun (fun _ _ => Iff.rfl) rfl (fun _ => id) (fun _ => id)
      (fun _ => id) nofun
  | enqueue msg held =>
    exact balanced.enqueue accounted (sound.exists_of_held (congrArg Stage.position held)) held
  | skip msg receiver left held mismatch =>
    refine balanced.goOn held rfl nofun nofun (fun _ _ => Iff.rfl) rfl (fun _ => id) (fun _ => id)
      (fun _ => id) (fun other rest there listed inside past => ?_)
    obtain ⟨rfl, rfl⟩ := Section.pipelined.inj (Option.some.inj there)
    by_cases here : listed = receiver
    · rw [here]
      exact Bool.eq_false_iff.mp mismatch
    · exact balanced.offered task msg (receiver :: left) (by rw [held]; rfl) listed inside
        fun next => (mem_cons.mp next).elim here past
  | offer msg receiver left value there held way =>
    have position : (system.stage task).position = some (.pipelined msg (receiver :: left)) := by
      rw [held]; rfl
    refine balanced.goOn held rfl nofun nofun (fun _ _ => setSlot_selects) rfl
      (fun _ => mem_of_mem_erase) (fun _ => id) (fun _ => id)
      (fun other rest at_ listed inside past => ?_)
    rcases way with ⟨rfl, rfl⟩ | ⟨rfl, rfl⟩
    · obtain ⟨rfl, rfl⟩ := Section.pipelined.inj (Option.some.inj at_)
      have kept := sound.distinct.mem_erase_iff.mp inside
      exact balanced.offered task msg (receiver :: left) position listed kept.2
        fun next => (mem_cons.mp next).elim kept.1 past
    · exact Section.noConfusion (Option.some.inj at_)
  | expunge res receiver left held =>
    refine balanced.goOn held rfl nofun (fun rest there => ?_) (fun _ _ => setSlot_selects) rfl
      (fun _ => id) (fun _ => id) (fun _ => id) nofun
    obtain ⟨rfl, _⟩ := Section.expunge.inj (Option.some.inj there)
    exact ⟨left, rfl⟩
  | expunged res held =>
    unfold System.expunged
    split
    · exact balanced.woken rfl rfl rfl rfl rfl rfl
        nofun
        (fun _ _ inside => absurd inside not_mem_nil)
    · exact balanced.woken rfl rfl rfl rfl rfl rfl
        nofun
        (fun _ sender inside => if_pos inside)
  | wake receiver value there held =>
    refine balanced.goOn held rfl nofun (fun left at_ => ⟨left, at_⟩) (fun _ _ => Iff.rfl) rfl
      (fun _ => id) (fun _ => id) (fun sender stopped => ?_)
      (fun msg left at_ => balanced.offered task msg left (by rw [held]; exact at_))
    have updated : update system.running receiver true sender = false := stopped
    rw [update_apply] at updated
    split at updated
    · cases updated
    · exact updated
  | write receiver value there held =>
    exact balanced.goOn held rfl nofun (fun left at_ => ⟨left, at_⟩) (fun _ _ => setSlot_selects)
      rfl (fun _ => id) (fun _ => id) (fun _ => id)
      (fun msg left at_ => balanced.offered task msg left (by rw [held]; exact at_))

theorem step (sound : Sound system) {op : Op} (stepped : SysvMsg.step system op = some after) :
    Balanced after := by
  obtain ⟨task, middle, first, second⟩ := step_moves sound.disciplined stepped
  obtain ⟨place, accounted⟩ := sound.accounted
  have middleSound := sound.transition first
  obtain ⟨place', accounted'⟩ := middleSound.accounted
  exact (balanced.transition sound.disciplined accounted first).transition
    middleSound.disciplined accounted' second

end

end Balanced

/-- Whenever the lock of the queue is free, the counters are those of the queued
messages, no message waits that a sleeping receiver wants, and no sender sleeps,
unwoken, whose message would fit. -/
theorem queue_consistent_when_unlocked (msgCtlmnb msgCtlmax : Nat) (ops : List Op)
    (final : System) (executed : Runs.run step (initial msgCtlmnb msgCtlmax) ops = some final)
    (free : final.lock = none) :
    final.queue.qQnum = final.queue.qMessages.length ∧
      final.queue.qCbytes = (final.queue.qMessages.map Msg.mTs).sum ∧
      (∀ receiver ∈ final.queue.qReceivers, final.slot receiver = .error .eagain →
        ∀ msg ∈ final.queue.qMessages, ¬ final.Selects receiver msg) ∧
      ∀ sender ∈ final.queue.qSenders, final.running sender = false →
        ∃ call, final.stage sender = .sendAsleep call ∧ ¬ Fits final.queue call.msg := by
  obtain ⟨sound, balanced⟩ :=
    @Runs.run_invariant _ _ step (fun _ _ => True) (fun system => Sound system ∧ Balanced system)
      (fun _ _ _ sound _ stepped => ⟨sound.1.step stepped, sound.2.step sound.1 stepped⟩)
      ops _ final ⟨initial_sound msgCtlmnb msgCtlmax, initial_balanced msgCtlmnb msgCtlmax⟩
      (Runs.along_of_forall (fun _ _ => trivial) ops _) executed
  refine ⟨balanced.count, balanced.bytes, fun receiver inside _ =>
    balanced.selectors receiver inside, fun sender inside stopped => ?_⟩
  obtain ⟨call, asleep⟩ := sound.disciplined.senders sender inside
  exact ⟨call, asleep, balanced.senders
    (fun _ _ there => (sound.disciplined.nowhere free there).elim) sender inside stopped call
    asleep⟩

/-- A message fills the queue, a second sender sleeps, and a receiver sleeps for
another type. -/
def fullQueue : List Op :=
  [.msgsnd 1 5 8 false, .advance 1, .advance 1, .msgsnd 2 6 8 false, .advance 2,
   .msgrcv 3 64 7 ⟨false, false, false⟩, .advance 3]

theorem fullQueue_runs : (Runs.run step (initial 10 100) fullQueue).isSome = true := by decide

theorem queue_consistent_when_unlocked_fullQueue :
    ∃ final, Runs.run step (initial 10 100) fullQueue = some final ∧
      final.queue.qMessages = [⟨0, 5, 8⟩] ∧ final.queue.qSenders = [2] ∧
      final.queue.qReceivers = [3] ∧ final.lock = none ∧ final.queue.qQnum = 1 ∧
      final.queue.qCbytes = 8 ∧ ¬ final.Selects 3 ⟨0, 5, 8⟩ ∧
      ∃ call, final.stage 2 = .sendAsleep call ∧ ¬ Fits final.queue call.msg := by
  have executed := (Option.some_get fullQueue_runs).symm
  have consistent := queue_consistent_when_unlocked 10 100 fullQueue _ executed (by decide)
  exact ⟨_, executed, by decide, by decide, by decide, by decide, consistent.1, consistent.2.1,
    consistent.2.2.1 3 (by decide) (by decide) ⟨0, 5, 8⟩ (by decide),
    consistent.2.2.2 2 (by decide) (by decide)⟩

end MagxKernel.SysvMsg
