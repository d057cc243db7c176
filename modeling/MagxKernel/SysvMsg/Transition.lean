import MagxKernel.SysvMsg.Discipline

namespace MagxKernel.SysvMsg

open Function List Option

/-- A call that ends without a message and without one in its hands. -/
inductive Done (system : System) (task : Task) : Prop
  | receive (call : RecvCall) (entered : system.stage task = .recvEnter call)
  | set (qbytes : Nat) (entered : system.stage task = .setEnter qbytes)
  | rmid (entered : system.stage task = .rmidEnter)
  | freed (entered : system.stage task = .freeing [])
  | error (err : Errno) (waits : (system.stage task).waiting = true) (proper : err ≠ .eagain)
      (slot : system.slot task = .error err)

/-- What a task can do at one point of its call. A step of the program is at most
two of these: a task that takes itself off a list goes on as if it had just entered. -/
inductive Transition (task : Task) (system : System) : System → Prop
  | stay : Transition task system system
  | enter (stage : Stage) (idle : system.stage task = .idle)
      (entry : (∃ call, stage = .recvEnter call) ∨ (∃ qbytes, stage = .setEnter qbytes) ∨
        stage = .rmidEnter) : Transition task system (system.setStage task stage)
  | load (msg : Msg) (ipcNowait : Bool) (idle : system.stage task = .idle)
      (fresh : msg.ident = system.loaded)
      (room : ((msg :: system.allocated).map Msg.footprint).sum < 2 ^ 32) :
      Transition task system ({ system with
        loaded := system.loaded + 1
        allocated := system.allocated ++ [msg] }.setStage task (.sendEnter ⟨msg, ipcNowait⟩))
  | flags (running signalPending : Task → Bool)
      (wakes : ∀ other, running other = false → system.running other = false) :
      Transition task system { system with running := running, signalPending := signalPending }
  | reject (call : SendCall)
      (sends : system.stage task = .sendEnter call ∨
        system.stage task = .sendAsleep call ∧ system.queue.deleted = true) :
      Transition task system (system.reject task call.msg)
  | finish (done : Done system task) : Transition task system (system.setStage task .idle)
  | again (call : RecvCall) (asleep : system.stage task = .recvAsleep call)
      (slot : system.slot task = .error .eagain) :
      Transition task system (system.setStage task (.recvRelock call))
  | pick (msg : Msg) (waits : (system.stage task).waiting = true)
      (slot : system.slot task = .message msg) :
      Transition task system (system.setStage task (.received msg))
  | unlinkSender (call : SendCall) (asleep : system.stage task = .sendAsleep call)
      (free : system.lock = none) :
      Transition task system ({ system with
        queue := { system.queue with qSenders := system.queue.qSenders.erase task } }.setStage task
          (.sendEnter call))
  | unlinkReceiver (call : RecvCall) (relock : system.stage task = .recvRelock call)
      (slot : system.slot task = .error .eagain) (free : system.lock = none) :
      Transition task system ({ system with
        queue := { system.queue with qReceivers := system.queue.qReceivers.erase task } }.setStage
          task (.recvEnter call))
  | sendStart (call : SendCall) (entered : system.stage task = .sendEnter call)
      (free : system.lock = none) (exists_ : system.queue.deleted = false)
      (room : system.queue.hasRoom call.msg = true) :
      Transition task system ({ system with lock := some task }.setStage task
        (.locked (.pipelined call.msg system.queue.qReceivers)))
  | sleepSender (call : SendCall) (entered : system.stage task = .sendEnter call)
      (free : system.lock = none) (exists_ : system.queue.deleted = false)
      (full : system.queue.hasRoom call.msg = false) :
      Transition task system ({ system with
        queue := { system.queue with qSenders := system.queue.qSenders ++ [task] }
        running := update system.running task false }.setStage task (.sendAsleep call))
  | take (call : RecvCall) (msg : Msg) (left : List Msg)
      (entered : system.stage task = .recvEnter call)
      (free : system.lock = none) (exists_ : system.queue.deleted = false)
      (found : takeMessage system.queue.qMessages call.msgtyp call.mode call.msgsz
        call.flags.msgNoerror = .taken msg left) :
      Transition task system ({ system.ssWakeup with
        queue := { system.queue with
          qMessages := left
          qCbytes := (system.queue.qCbytes + 2 ^ 32 - msg.mTs) % 2 ^ 32
          qQnum := (system.queue.qQnum + 2 ^ 32 - 1) % 2 ^ 32 } }.setStage task (.received msg))
  | sleepReceiver (call : RecvCall) (rMaxsize : Nat)
      (entered : system.stage task = .recvEnter call)
      (free : system.lock = none) (exists_ : system.queue.deleted = false)
      (found : takeMessage system.queue.qMessages call.msgtyp call.mode call.msgsz
        call.flags.msgNoerror = .nothing) :
      Transition task system ({ system with
        queue := { system.queue with qReceivers := system.queue.qReceivers ++ [task] }
        frame := update system.frame task
          ⟨call.mode, call.msgtyp, rMaxsize, .error .eagain⟩
        running := update system.running task false }.setStage task (.recvAsleep call))
  | deliver (msg : Msg) (received : system.stage task = .received msg) :
      Transition task system (system.deliver task msg)
  | ipcSet (qbytes : Nat) (entered : system.stage task = .setEnter qbytes)
      (free : system.lock = none) (exists_ : system.queue.deleted = false) :
      Transition task system (system.ipcSet task qbytes)
  | ipcRmid (entered : system.stage task = .rmidEnter)
      (free : system.lock = none) (exists_ : system.queue.deleted = false) :
      Transition task system ({ system with lock := some task }.setStage task
        (.locked (.expunge .eidrm system.queue.qReceivers)))
  | enqueue (msg : Msg) (held : system.stage task = .locked (.pipelined msg [])) :
      Transition task system (system.enqueue task msg)
  | skip (msg : Msg) (receiver : Task) (left : List Task)
      (held : system.stage task = .locked (.pipelined msg (receiver :: left)))
      (mismatch : testmsg msg (system.frame receiver).rMsgtype (system.frame receiver).rMode =
        false) :
      Transition task system (system.setStage task (.locked (.pipelined msg left)))
  | offer (msg : Msg) (receiver : Task) (left : List Task) (value : Slot) (place : Section)
      (held : system.stage task = .locked (.pipelined msg (receiver :: left)))
      (way : value = .error .e2big ∧ place = .pipelined msg left ∨
        value = .message msg ∧ place = .leave msg) :
      Transition task system (({ system with
        queue := { system.queue with
          qReceivers := system.queue.qReceivers.erase receiver } }.setSlot receiver
            .null).setStage task (.waking false receiver value place))
  | leave (msg : Msg) (held : system.stage task = .locked (.leave msg)) :
      Transition task system
        ({ system with lock := none, sent := system.sent ++ [msg] }.setStage task .idle)
  | expunge (res : Errno) (receiver : Task) (left : List Task)
      (held : system.stage task = .locked (.expunge res (receiver :: left))) :
      Transition task system ((system.setSlot receiver .null).setStage task
        (.waking false receiver (.error res) (.expunge res left)))
  | expunged (res : Errno) (held : system.stage task = .locked (.expunge res [])) :
      Transition task system (system.expunged task res)
  | wake (receiver : Task) (value : Slot) (place : Section)
      (held : system.stage task = .waking false receiver value place) :
      Transition task system
        ((system.wakeUpProcess receiver).setStage task (.waking true receiver value place))
  | write (receiver : Task) (value : Slot) (place : Section)
      (held : system.stage task = .waking true receiver value place) :
      Transition task system ((system.setSlot receiver value).setStage task (.locked place))
  | freeMsg (msg : Msg) (left : List Msg) (freeing : system.stage task = .freeing (msg :: left)) :
      Transition task system (system.freeMsg task msg left)

/-- The task is on no list and in no section. -/
def Stage.free : Stage → Bool
  | .sendAsleep _ | .recvAsleep _ | .recvRelock _ | .locked _ | .waking _ _ _ _ => false
  | _ => true

namespace Disciplined

variable {system after : System} {task : Task}

section

variable (sound : Disciplined system)

include sound

/-- A task that was in no list and no section enters or ends a call. -/
theorem moveFree {old stage : Stage} (was : system.stage task = old) (wasFree : old.free = true)
    (now : stage.position = none) (notWaiting : stage.waiting = false) :
    Disciplined (system.setStage task stage) := by
  have before : old.position = none ∧ old.waiting = false := by
    cases old <;> first | exact ⟨rfl, rfl⟩ | exact Bool.noConfusion wasFree
  refine sound.setStage (was ▸ before.1) now (fun waits => ?_) (fun _ inside => ?_)
    (fun _ waits => ?_) (fun inside => ?_)
  · rw [notWaiting] at waits
    cases waits
  · exact sound.listed_idle (was ▸ before.2) inside
  · rw [was, before.2] at waits
    cases waits
  · obtain ⟨call, asleep⟩ := sound.senders task inside
    rw [← was, asleep] at wasFree
    cases wasFree

/-- A receiver leaves its call with what its slot holds. -/
theorem leaveCall {stage : Stage} (waits : (system.stage task).waiting = true)
    (full : system.slot task ≠ .null) (final : system.slot task ≠ .error .eagain)
    (now : stage.position = none) (notWaiting : stage.waiting = false) :
    Disciplined (system.setStage task stage) := by
  refine sound.setStage (Stage.position_waiting waits) now (fun still => ?_) (fun _ inside => ?_)
    (fun _ _ => full) (fun inside => ?_)
  · rw [notWaiting] at still
    cases still
  · exact (sound.listed task inside).resolve_right fun listed =>
      listed.2.elim final full
  · obtain ⟨call, asleep⟩ := sound.senders task inside
    rw [asleep] at waits
    cases waits

theorem off_receivers (free : system.lock = none) (exists_ : system.queue.deleted = false)
    (notWaiting : (system.stage task).waiting = false) : task ∉ system.queue.qReceivers := by
  intro inside
  obtain ⟨waits, _⟩ :=
    (sound.listed task inside).resolve_left (sound.not_expelled free exists_ inside)
  rw [notWaiting] at waits
  cases waits

theorem finish (done : Done system task) : Disciplined (system.setStage task .idle) := by
  cases done with
  | receive call entered | set qbytes entered | rmid entered | freed entered =>
    exact sound.moveFree entered rfl rfl rfl
  | error err waits proper slot =>
    refine sound.leaveCall waits ?_ ?_ rfl rfl
    · rw [slot]
      exact nofun
    · rw [slot]
      exact fun same => proper (Slot.error.inj same)

/-- The receiver that `pipelined_send` or `expunge_all` comes to. -/
theorem offer {msg : Msg} {receiver : Task} {left : List Task} {value : Slot} {place : Section}
    (held : system.stage task = .locked (.pipelined msg (receiver :: left)))
    (way : value = .error .e2big ∧ place = .pipelined msg left ∨
      value = .message msg ∧ place = .leave msg) :
    Disciplined (({ system with
      queue := { system.queue with
        qReceivers := system.queue.qReceivers.erase receiver } }.setSlot receiver
          .null).setStage task (.waking false receiver value place)) := by
  have sublist := sound.left task _ (congrArg Stage.position held)
  have all : (receiver :: left).Nodup := sublist.nodup sound.distinct
  have past : receiver ∉ left := (nodup_cons.mp all).1
  have off : receiver ∉ system.queue.qReceivers.erase receiver := fun inside =>
    (sound.distinct.mem_erase_iff.mp inside).1 rfl
  have fewer : left.Sublist (system.queue.qReceivers.erase receiver) := by
    have erased := sublist.erase receiver
    rwa [show (Section.pipelined msg (receiver :: left)).left = receiver :: left from rfl,
      erase_cons_head] at erased
  have kept : ∀ other ∈ system.queue.qReceivers, other ≠ receiver →
      other ∈ system.queue.qReceivers.erase receiver := fun other inside elsewhere =>
    sound.distinct.mem_erase_iff.mpr ⟨elsewhere, inside⟩
  cases way with
  | inl tooBig =>
    obtain ⟨rfl, rfl⟩ := tooBig
    exact sound.startWaking erase_sublist kept held mem_cons_self fewer past nofun nofun
      (.tooBig msg left off)
  | inr hand =>
    obtain ⟨rfl, rfl⟩ := hand
    exact sound.startWaking erase_sublist kept held mem_cons_self (nil_sublist _)
      not_mem_nil nofun nofun (.hand msg off)

theorem expungeNext {res : Errno} {receiver : Task} {left : List Task}
    (held : system.stage task = .locked (.expunge res (receiver :: left))) :
    Disciplined ((system.setSlot receiver .null).setStage task
      (.waking false receiver (.error res) (.expunge res left))) := by
  have sublist := sound.left task _ (congrArg Stage.position held)
  have all : (receiver :: left).Nodup := sublist.nodup sound.distinct
  exact sound.startWaking (List.Sublist.refl _) (fun _ inside _ => inside) held mem_cons_self
    ((sublist_cons_self receiver left).trans sublist) (nodup_cons.mp all).1
    (fun _ _ same => by cases same; rfl) (fun _ _ same => by cases same; exact ⟨left, rfl⟩)
    (.expunge res left (sublist.subset mem_cons_self))

/-- Every transition keeps the discipline. -/
theorem transition (moved : Transition task system after) : Disciplined after := by
  cases moved with
  | stay => exact sound
  | enter stage idle entry =>
    rcases entry with ⟨_, rfl⟩ | ⟨_, rfl⟩ | rfl <;> exact sound.moveFree idle rfl rfl rfl
  | load msg ipcNowait idle fresh room =>
    have moved : Disciplined (system.setStage task (.sendEnter ⟨msg, ipcNowait⟩)) :=
      sound.moveFree idle rfl rfl rfl
    exact { moved with }
  | flags running signalPending wakes => exact { sound with }
  | reject call sends =>
    have off : task ∉ system.queue.qSenders := by
      cases sends with
      | inl entered => exact sound.off_senders entered nofun
      | inr deleted =>
        rw [sound.emptied deleted.2]
        exact not_mem_nil
    have before : (system.stage task).position = none ∧ (system.stage task).waiting = false := by
      rcases sends with entered | ⟨asleep, _⟩
      · rw [entered]; exact ⟨rfl, rfl⟩
      · rw [asleep]; exact ⟨rfl, rfl⟩
    have moved : Disciplined (system.setStage task .idle) := by
      refine sound.setStage before.1 rfl nofun (fun _ => sound.listed_idle before.2)
        (fun _ waits => ?_) (fun inside => absurd inside off)
      rw [before.2] at waits
      cases waits
    exact { moved with }
  | finish done => exact sound.finish done
  | again call asleep slot =>
    exact sound.setStage (by rw [asleep]; rfl) rfl (fun _ => by rw [asleep]; rfl)
      nofun nofun
      (fun inside => absurd inside (sound.off_senders asleep nofun))
  | pick msg waits slot =>
    refine sound.leaveCall waits ?_ ?_ rfl rfl <;> rw [slot] <;> exact nofun
  | unlinkSender call asleep free => exact sound.unlinkSender asleep
  | unlinkReceiver call relock slot free => exact sound.unlinkReceiver free relock
  | sendStart call entered free exists_ room =>
    exact sound.acquire free exists_ system.queue.qQbytes rfl
      nofun (by rw [entered]; rfl)
      (sound.off_senders entered nofun)
  | sleepSender call entered free exists_ full =>
    exact sound.sleepSender call exists_ (by rw [entered]; rfl) (by rw [entered]; rfl)
      (sound.off_senders entered nofun)
  | take call msg left entered free exists_ found =>
    have moved : Disciplined (system.setStage task (.received msg)) :=
      sound.moveFree entered rfl rfl rfl
    exact { moved with }
  | sleepReceiver call rMaxsize entered free exists_ found =>
    exact sound.sleepReceiver free exists_ call _ rfl
      (sound.off_receivers free exists_ (by rw [entered]; rfl))
      (sound.off_senders entered nofun)
  | deliver msg received =>
    have moved : Disciplined (system.setStage task .idle) :=
      sound.moveFree received rfl rfl rfl
    exact { moved with }
  | ipcSet qbytes entered free exists_ =>
    exact sound.acquire free exists_ qbytes rfl
      (fun _ _ same => by cases same; exact nofun) (by rw [entered]; rfl)
      (sound.off_senders entered nofun)
  | ipcRmid entered free exists_ =>
    exact sound.acquire free exists_ system.queue.qQbytes rfl
      (fun _ _ same => by cases same; exact nofun) (by rw [entered]; rfl)
      (sound.off_senders entered nofun)
  | enqueue msg held =>
    have exists_ := sound.exists_of_held (congrArg Stage.position held)
    refine sound.release held rfl rfl rfl rfl ?_ rfl rfl rfl ?_
    · change system.queue.deleted = true ↔ _
      simp [exists_]
    · change system.queue.qSenders = if system.queue.deleted then [] else system.queue.qSenders
      simp [exists_]
  | skip msg receiver left held mismatch =>
    have position := congrArg Stage.position held
    have sublist := sound.left task _ position
    obtain ⟨waits, again⟩ := sound.next_waits held mem_cons_self
    refine sound.setWaiter (List.Sublist.refl _) (fun _ inside _ => inside) position waits
      (fun _ => setStage_stage) (slot_same again) rfl rfl rfl
      ((sublist_cons_self receiver left).trans sublist)
      (nodup_cons.mp (sublist.nodup sound.distinct)).1 nofun nofun ?_ nofun nofun
      (fun _ => .inr (.inl rfl)) (fun _ => sublist.subset mem_cons_self) nofun
    simp [held]
  | offer msg receiver left value place held way => exact sound.offer held way
  | leave msg held =>
    have exists_ := sound.exists_of_held (congrArg Stage.position held)
    refine sound.release held rfl rfl rfl rfl ?_ rfl rfl rfl ?_ <;> simp [exists_]
  | expunge res receiver left held => exact sound.expungeNext held
  | expunged res held =>
    have exists_ := sound.exists_of_held (congrArg Stage.position held)
    unfold System.expunged
    split
    · rename_i isEidrm
      subst isEidrm
      exact sound.release held rfl rfl rfl rfl ⟨fun _ => ⟨[], rfl⟩, fun _ => rfl⟩ rfl rfl rfl rfl
    · rename_i other
      refine sound.release held rfl rfl rfl rfl ?_ rfl rfl rfl ?_
      · change system.queue.deleted = true ↔ _
        simp [exists_, other]
      · change system.queue.qSenders = if system.queue.deleted then [] else system.queue.qSenders
        simp [exists_]
  | wake receiver value place held =>
    have position := congrArg Stage.position held
    obtain ⟨waits, isNull, past, wakes⟩ := sound.waking _ _ _ _ _ held
    refine sound.setWaiter (List.Sublist.refl _) (fun _ inside _ => inside) position waits
      (fun _ => setStage_stage) (slot_same isNull) rfl rfl rfl (sound.left task place position)
      past (fun res left is => ⟨left, is, fun _ _ => Iff.rfl⟩) (fun res left is => ⟨left, is⟩) ?_ ?_
      (fun _ => ⟨_, _, _, rfl⟩) (fun _ => .inr (.inr rfl)) nofun (fun _ _ => .inr rfl)
    · intro awake other slot there at_
      rw [held] at at_
      exact (Stage.waking.inj at_).2.1.symm
    · intro awake other slot there at_
      obtain ⟨rfl, rfl, rfl, rfl⟩ := Stage.waking.inj at_
      exact ⟨rfl, rfl, rfl, wakes⟩
  | write receiver value place held => exact sound.finishWaking held
  | freeMsg msg left freeing =>
    have moved : Disciplined (system.setStage task (.freeing left)) :=
      sound.moveFree freeing rfl rfl rfl
    exact { moved with }

end

end Disciplined

section Inversion

variable {system after : System} {task : Task} {call : RecvCall} (stage : Stage)

/-- One transition, or two when the task first takes itself off a list. -/
def Moves (task : Task) (system after : System) : Prop :=
  ∃ middle, Transition task system middle ∧ Transition task middle after

theorem Transition.moves (moved : Transition task system after) : Moves task system after :=
  ⟨after, moved, .stay⟩

theorem sendTurn_transition {call : SendCall} (entered : system.stage task = .sendEnter call)
    (free : system.lock = none) (exists_ : system.queue.deleted = false) :
    Transition task system (system.sendTurn task call) := by
  unfold System.sendTurn
  split
  · rename_i room
    exact .sendStart call entered free exists_ room
  · rename_i full
    split
    · exact .reject call (.inl entered)
    · exact .sleepSender call entered free exists_ (Bool.eq_false_iff.mpr full)

theorem recvTurn_transition (entered : system.stage task = .recvEnter call)
    (free : system.lock = none) (exists_ : system.queue.deleted = false) :
    Transition task system (system.recvTurn task call) := by
  unfold System.recvTurn
  split
  · rename_i msg left found
    exact .take call msg left entered free exists_ found
  · exact .finish (.receive call entered)
  · rename_i found
    split
    · exact .finish (.receive call entered)
    · exact .sleepReceiver call _ entered free exists_ found

/-- What a turn of a loop does does not depend on the stage the task is in. -/
theorem setStage_sendTurn (call : SendCall) :
    (system.setStage task stage).sendTurn task call = system.sendTurn task call := by
  simp [System.sendTurn, System.setStage, System.reject]

theorem setStage_reject (msg : Msg) :
    (system.setStage task stage).reject task msg = system.reject task msg := by
  simp [System.setStage, System.reject]

theorem setStage_setStage (first second : Stage) :
    (system.setStage task first).setStage task second = system.setStage task second := by
  simp [System.setStage]

theorem setStage_recvTurn (call : RecvCall) :
    (system.setStage task stage).recvTurn task call = system.recvTurn task call := by
  unfold System.recvTurn
  rw [setStage_queue]
  cases takeMessage system.queue.qMessages call.msgtyp call.mode call.msgsz
      call.flags.msgNoerror with
  | taken msg left =>
    exact @setStage_setStage { system.ssWakeup with queue := { system.queue with
      qMessages := left
      qCbytes := (system.queue.qCbytes + 2 ^ 32 - msg.mTs) % 2 ^ 32
      qQnum := (system.queue.qQnum + 2 ^ 32 - 1) % 2 ^ 32 } } task stage _
  | tooBig msg => exact setStage_setStage stage _
  | nothing => simp only [System.setStage, update_idem]

theorem sendResume_moves {call : SendCall} (asleep : system.stage task = .sendAsleep call)
    (free : system.lock = none) : Moves task system (system.sendResume task call) := by
  unfold System.sendResume
  split
  · rename_i deleted
    exact Transition.moves (.reject call (.inr ⟨asleep, deleted⟩))
  · rename_i exists_
    refine ⟨_, .unlinkSender call asleep free, ?_⟩
    split
    · rw [← setStage_reject (.sendEnter call)]
      exact .reject call (.inl setStage_self)
    · rw [← setStage_sendTurn (.sendEnter call)]
      exact sendTurn_transition setStage_self free (Bool.eq_false_iff.mpr exists_)

theorem recvPoll_moves (asleep : system.stage task = .recvAsleep call) :
    Moves task system (system.recvPoll task call) := by
  have waits : (system.stage task).waiting = true := by rw [asleep]; rfl
  unfold System.recvPoll
  split
  · exact Transition.moves .stay
  · rename_i slot
    exact Transition.moves (.again call asleep slot)
  · rename_i err proper slot
    exact Transition.moves (.finish (.error err waits (fun same => proper (same ▸ rfl)) slot))
  · rename_i msg slot
    exact Transition.moves (.pick msg waits slot)

theorem recvLocked_moves (sound : Disciplined system)
    (relock : system.stage task = .recvRelock call) (free : system.lock = none) :
    Moves task system (system.recvLocked task call) := by
  have waits : (system.stage task).waiting = true := by rw [relock]; rfl
  unfold System.recvLocked
  split
  · rename_i slot
    exact absurd slot (sound.not_null free waits)
  · rename_i slot
    -- the slot still says -EAGAIN, so the queue has not been removed
    have exists_ : system.queue.deleted = false := by
      apply Bool.eq_false_iff.mpr
      intro deleted
      have eidrm := sound.gone deleted task (sound.again task waits slot)
      rw [show system.slot task = .error .eagain from slot] at eidrm
      exact absurd eidrm (by decide)
    refine ⟨_, .unlinkReceiver call relock slot free, ?_⟩
    split
    · rw [← @setStage_setStage _ task (.recvEnter call) .idle]
      exact .finish (.receive call setStage_self)
    · rw [← setStage_recvTurn (.recvEnter call)]
      exact recvTurn_transition setStage_self free exists_
  · rename_i err proper slot
    exact Transition.moves (.finish (.error err waits (fun same => proper (same ▸ rfl)) slot))
  · rename_i msg slot
    exact Transition.moves (.pick msg waits slot)

theorem inSection_transition {place : Section} (held : system.stage task = .locked place) :
    Transition task system (system.inSection task place) := by
  unfold System.inSection
  split
  · exact .enqueue _ held
  · rename_i msg receiver left
    unfold System.offer
    dsimp only
    split
    · split
      · exact .offer msg receiver left _ _ held (.inl ⟨rfl, rfl⟩)
      · exact .offer msg receiver left _ _ held (.inr ⟨rfl, rfl⟩)
    · rename_i mismatch
      exact .skip msg receiver left held (Bool.eq_false_iff.mpr mismatch)
  · exact .leave _ held
  · exact .expunged _ held
  · exact .expunge _ _ _ held

theorem advance_moves (sound : Disciplined system) (stepped : system.advance task = some after) :
    Moves task system after := by
  have freeLock : ∀ {result : Option System},
      (if system.lock.isSome = true then none else result) = some after →
        system.lock = none ∧ result = some after := by
    intro result taken
    simpa using ite_none_left_eq_some.mp taken
  have whenFree : ∀ {gone there : System},
      (if system.lock.isSome = true then none
        else if system.queue.deleted = true then some gone else some there) = some after →
      Transition task system gone →
      (system.lock = none → system.queue.deleted = false → Transition task system there) →
        Moves task system after := by
    intro gone there stepped refused allowed
    obtain ⟨free, stepped⟩ := freeLock stepped
    split at stepped
    · cases stepped
      exact refused.moves
    · rename_i exists_
      cases stepped
      exact (allowed free (Bool.eq_false_iff.mpr exists_)).moves
  unfold System.advance at stepped
  split at stepped
  · cases stepped
  · cases stepped
  · rename_i call entered
    exact whenFree stepped (.reject call (.inl entered)) (sendTurn_transition entered)
  · rename_i call asleep
    obtain ⟨runs, rfl⟩ := ite_some_none_eq_some.mp stepped
    rw [Bool.and_eq_true, isNone_iff_eq_none] at runs
    exact sendResume_moves asleep runs.2
  · rename_i call entered
    exact whenFree stepped (.finish (.receive call entered)) (recvTurn_transition entered)
  · rename_i call asleep
    obtain ⟨_, rfl⟩ := ite_some_none_eq_some.mp stepped
    exact recvPoll_moves asleep
  · rename_i call relock
    obtain ⟨free, stepped⟩ := freeLock stepped
    cases stepped
    exact recvLocked_moves sound relock free
  · rename_i msg received
    cases stepped
    exact Transition.moves (.deliver msg received)
  · rename_i qbytes entered
    exact whenFree stepped (.finish (.set qbytes entered)) (.ipcSet qbytes entered)
  · rename_i entered
    exact whenFree stepped (.finish (.rmid entered)) (.ipcRmid entered)
  · rename_i place held
    cases stepped
    exact (inSection_transition held).moves
  · rename_i receiver value place held
    cases stepped
    exact Transition.moves (.wake receiver value place held)
  · rename_i receiver value place held
    cases stepped
    exact Transition.moves (.write receiver value place held)
  · rename_i freed
    cases stepped
    exact Transition.moves (.finish (.freed freed))
  · rename_i msg left freeing
    cases stepped
    exact Transition.moves (.freeMsg msg left freeing)

theorem msgsnd_transition (idle : system.stage task = .idle) (mtype : Int) (msgsz : Nat)
    (ipcNowait : Bool) : Transition task system (system.msgsnd task mtype msgsz ipcNowait) := by
  unfold System.msgsnd
  dsimp only
  split
  · exact .stay
  · split
    · exact .stay
    · rename_i room
      exact .load ⟨system.loaded, mtype, msgsz⟩ ipcNowait idle rfl (Nat.lt_of_not_le room)

/-- All that a step of the system can do. -/
theorem step_moves (sound : Disciplined system) {op : Op} (stepped : step system op = some after) :
    ∃ task, Moves task system after := by
  have whenIdle : ∀ {task : Task} {result : System},
      (if system.stage task = .idle then some result else none) = some after →
        system.stage task = .idle ∧ result = after := ite_some_none_eq_some.mp
  cases op with
  | msgsnd task mtype msgsz ipcNowait =>
    obtain ⟨idle, rfl⟩ := whenIdle stepped
    exact ⟨task, (msgsnd_transition idle mtype msgsz ipcNowait).moves⟩
  | msgrcv task msgsz msgtyp flags =>
    obtain ⟨idle, rfl⟩ := whenIdle stepped
    exact ⟨task, Transition.moves (.enter _ idle (.inl ⟨_, rfl⟩))⟩
  | ipcSet task qbytes =>
    obtain ⟨idle, rfl⟩ := whenIdle stepped
    exact ⟨task, Transition.moves (.enter _ idle (.inr (.inl ⟨_, rfl⟩)))⟩
  | ipcRmid task =>
    obtain ⟨idle, rfl⟩ := whenIdle stepped
    exact ⟨task, Transition.moves (.enter _ idle (.inr (.inr rfl)))⟩
  | signal task =>
    cases stepped
    refine ⟨task, Transition.moves (.flags _ _ fun other stopped => ?_)⟩
    change update system.running task true other = false at stopped
    rw [update_apply] at stopped
    split at stopped
    · cases stopped
    · exact stopped
  | handleSignal task =>
    obtain ⟨idle, rfl⟩ := whenIdle stepped
    exact ⟨task, Transition.moves (.flags _ _ fun _ stopped => stopped)⟩
  | advance task => exact ⟨task, advance_moves sound stepped⟩

end Inversion

end MagxKernel.SysvMsg
