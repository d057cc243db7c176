import Mathlib.Algebra.Order.BigOperators.Group.List
import Mathlib.Algebra.Order.Group.Nat
import MagxKernel.SysvMsg.Transition

namespace MagxKernel.SysvMsg

open List Option

open Function (update update_idem update_comm update_self update_of_ne update_apply update_eq_self)

/-- In what capacity a task has a message. -/
inductive Role where
  /-- `sys_msgsnd` still has it -/
  | sending
  /-- it is in the `r_msg` of a receiver -/
  | slot
  /-- `sys_msgrcv` is about to copy it out -/
  | hand
deriving DecidableEq

/-- Where a message can be. -/
inductive Place where
  | held (role : Role) (task : Task)
  | queued
  | delivered (task : Task)
  | removed
  | rejected
deriving DecidableEq

/-- The message a task has, given its stage and its slot. -/
def Stage.holding (slot : Slot) : Stage → Option (Role × Msg)
  | .sendEnter call | .sendAsleep call => some (.sending, call.msg)
  | .locked (.pipelined msg _) => some (.sending, msg)
  | .locked _ => none
  | .waking _ _ (.message msg) _ => some (.sending, msg)
  | .waking _ _ _ (.pipelined msg _) => some (.sending, msg)
  | .waking _ _ _ _ => none
  | .recvAsleep _ | .recvRelock _ =>
      match slot with
      | .message msg => some (.slot, msg)
      | .null | .error _ => none
  | .received msg => some (.hand, msg)
  | .idle | .recvEnter _ | .fault | .setEnter _ | .rmidEnter | .freeing _ => none

def System.holding (system : System) (task : Task) : Option (Role × Msg) :=
  (system.stage task).holding (system.slot task)

/-- The message is in this place. -/
def System.At (system : System) (msg : Msg) : Place → Prop
  | .held role task => system.holding task = some (role, msg)
  | .queued => msg ∈ system.queue.qMessages ∧ msg ∉ system.removed
  | .delivered task => (task, msg) ∈ system.received
  | .removed => msg ∈ system.removed
  | .rejected => msg ∈ system.rejected

/-- The places of a message whose `sys_msgsnd` has succeeded. -/
def Place.sent : Place → Bool
  | .held .sending _ | .rejected => false
  | .held .slot _ | .held .hand _ | .queued | .delivered _ | .removed => true

/-- The places of a message that takes up memory. -/
def Place.live : Place → Bool
  | .held _ _ | .queued => true
  | .delivered _ | .removed | .rejected => false

/-- Which task has what, against a map that gives every message one place. -/
def Holds (holding : Task → Option (Role × Msg)) (place : Msg → Option Place) : Prop :=
  ∀ msg role task, holding task = some (role, msg) ↔ place msg = some (.held role task)

/-- A map that gives every message one place describes the system. -/
structure Located (system : System) (place : Msg → Option Place) : Prop where
  held : Holds system.holding place
  queued : ∀ msg, msg ∈ system.queue.qMessages ∧ msg ∉ system.removed ↔
    place msg = some .queued
  delivered : ∀ msg task, (task, msg) ∈ system.received ↔ place msg = some (.delivered task)
  removed : ∀ msg, msg ∈ system.removed ↔ place msg = some .removed
  rejected : ∀ msg, msg ∈ system.rejected ↔ place msg = some .rejected

/-- The memory of the messages. -/
structure Stored (system : System) (place : Msg → Option Place) : Prop where
  known : ∀ msg there, place msg = some there → msg.ident < system.loaded
  allocated : ∀ msg, msg ∈ system.allocated ↔ ∃ there, place msg = some there ∧ there.live = true
  distinct : system.allocated.Nodup
  fits : (system.allocated.map Msg.footprint).sum < 2 ^ 32

/-- No message is on a list twice, and what a call reports is true. -/
structure Recorded (system : System) (place : Msg → Option Place) : Prop where
  queued : system.queue.qMessages.Nodup
  delivered : (system.received.map Prod.snd).Nodup
  sent : ∀ msg ∈ system.sent, ∃ there, place msg = some there ∧ there.sent = true
  leaving : ∀ task msg, system.stage task = .locked (.leave msg) →
    ∃ there, place msg = some there ∧ there.sent = true
  kept : system.queue.deleted = false → system.removed = []
  freeing : ∀ task left, system.stage task = .freeing left → system.queue.deleted = true ∧
    left.Nodup ∧ ∀ msg ∈ left, msg ∈ system.queue.qMessages ∧ msg ∉ system.removed
  freer : ∀ task other left left', system.stage task = .freeing left →
    system.stage other = .freeing left' → task = other

/-- What the system keeps about messages, apart from who holds them. -/
structure Records where
  qMessages : List Msg
  deleted : Bool
  sent : List Msg
  received : List (Task × Msg)
  removed : List Msg
  rejected : List Msg
  loaded : Nat
  allocated : List Msg

def System.records (system : System) : Records :=
  ⟨system.queue.qMessages, system.queue.deleted, system.sent, system.received, system.removed,
    system.rejected, system.loaded, system.allocated⟩

/-- The stage is neither the end of a hand-over nor of a removal. -/
def Stage.plain : Stage → Bool
  | .locked (.leave _) | .freeing _ => false
  | _ => true

theorem Located.at_iff {system : System} {place : Msg → Option Place}
    (located : Located system place) (msg : Msg) (there : Place) :
    system.At msg there ↔ place msg = some there := by
  cases there with
  | held role task => exact located.held msg role task
  | queued => exact located.queued msg
  | delivered task => exact located.delivered msg task
  | removed => exact located.removed msg
  | rejected => exact located.rejected msg

section Holding

variable {system : System} {task receiver : Task}

theorem holding_of_stage {stage : Stage} (here : system.stage task = stage) :
    system.holding task = stage.holding (system.slot task) :=
  congrArg (Stage.holding (system.slot task)) here

theorem holding_setStage (stage : Stage) :
    (system.setStage task stage).holding =
      update system.holding task (stage.holding (system.slot task)) := by
  funext other
  unfold System.holding
  rw [setStage_stage, update_apply, setStage_slot]
  split
  · rename_i here
    rw [here]
  · rfl

theorem holding_setSlot (value : Slot) :
    (system.setSlot receiver value).holding =
      update system.holding receiver ((system.stage receiver).holding value) := by
  funext other
  unfold System.holding
  rw [setSlot_stage, update_apply, setSlot_slot]
  split
  · rename_i here
    rw [here]
  · rfl

theorem Stage.holding_waiting {stage : Stage} (waits : stage.waiting = true) {slot : Slot}
    (empty : ∀ msg, slot ≠ .message msg) : stage.holding slot = none := by
  cases stage with
  | recvAsleep call | recvRelock call =>
    cases slot with
    | message msg => exact absurd rfl (empty msg)
    | null | error err => rfl
  | _ => exact Bool.noConfusion waits

theorem Stage.holding_message {stage : Stage} (waits : stage.waiting = true) (msg : Msg) :
    stage.holding (.message msg) = some (.slot, msg) := by
  cases stage with
  | recvAsleep call | recvRelock call => rfl
  | _ => exact Bool.noConfusion waits

end Holding

section Move

variable {holding : Task → Option (Role × Msg)} {place : Msg → Option Place} {msg : Msg}
  {task : Task}

theorem update_place {dst : Option Place} {other : Msg} {there : Place} :
    update place msg dst other = some there ↔
      other = msg ∧ dst = some there ∨ other ≠ msg ∧ place other = some there := by
  by_cases here : other = msg <;> simp [here]

/-- One task lets go of a message or gets it. -/
theorem Holds.move (holds : Holds holding place) (new : Option Role) (dst : Option Place)
    (old : ∀ role other, holding task = some (role, other) → other = msg)
    (src : ∀ role holder, place msg = some (.held role holder) → holder = task)
    (target : ∀ role holder, dst = some (.held role holder) ↔ holder = task ∧ new = some role) :
    Holds (update holding task (new.map fun role => (role, msg)))
      (update place msg dst) := by
  intro other role holder
  rw [update_place, update_apply, target]
  split
  · rename_i here
    subst here
    constructor
    · intro now
      obtain ⟨role', isNew, pair⟩ := map_eq_some_iff.mp now
      obtain ⟨rfl, rfl⟩ := Prod.mk.inj pair
      exact .inl ⟨rfl, rfl, isNew⟩
    · intro now
      cases now with
      | inl here =>
        rw [here.2.2, here.1]
        rfl
      | inr elsewhere =>
        have was := (holds other role holder).mpr elsewhere.2
        exact absurd (old role other was) elsewhere.1
  · rename_i elsewhere
    rw [holds other role holder]
    constructor
    · intro was
      refine .inr ⟨fun same => ?_, was⟩
      rw [same] at was
      exact elsewhere (src role holder was)
    · intro now
      cases now with
      | inl here => exact absurd here.2.1 elsewhere
      | inr other => exact other.2

theorem Holds.release (holds : Holds holding place) {role : Role} {dst : Option Place}
    (mine : holding task = some (role, msg))
    (away : ∀ role holder, dst ≠ some (.held role holder)) :
    Holds (update holding task none) (update place msg dst) := by
  have was := (holds msg role task).mp mine
  exact holds.move none dst (by simp [mine]) (by simp [was]) (by simp [away])

theorem Holds.letGo {system : System} (holds : Holds system.holding place) {role : Role}
    {dst : Place} (mine : system.holding task = some (role, msg))
    (away : ∀ role holder, dst ≠ .held role holder) :
    Holds (system.setStage task .idle).holding (update place msg (some dst)) := by
  rw [holding_setStage]
  exact holds.release mine fun role holder same => away role holder (Option.some.inj same)

theorem Holds.gain (holds : Holds holding place) (role : Role)
    (mine : ∀ role other, holding task = some (role, other) → other = msg)
    (src : ∀ role holder, place msg = some (.held role holder) → holder = task) :
    Holds (update holding task (some (role, msg)))
      (update place msg (some (.held role task))) := by
  apply holds.move (some role) _ mine src
  simp [and_comm, eq_comm]

end Move

section Stored

variable {system after : System} {place : Msg → Option Place} {msg : Msg} {src dst : Place}

theorem Stored.relocate (stored : Stored system place) (was : place msg = some src) (other : Msg)
    (there : Place) (now : update place msg (some dst) other = some there) :
    other.ident < system.loaded := by
  rcases update_place.mp now with ⟨rfl, _⟩ | ⟨_, old⟩
  · exact stored.known other src was
  · exact stored.known other there old

theorem Stored.keep (stored : Stored system place) (was : place msg = some src)
    (wasLive : src.live = true) (isLive : dst.live = true)
    (loaded : after.loaded = system.loaded) (allocated : after.allocated = system.allocated) :
    Stored after (update place msg (some dst)) where
  known := loaded ▸ stored.relocate was
  allocated := by
    intro other
    rw [allocated, stored.allocated]
    simp only [update_place]
    by_cases here : other = msg
    · subst here
      constructor
      · exact fun _ => ⟨dst, .inl ⟨rfl, rfl⟩, isLive⟩
      · exact fun _ => ⟨src, was, wasLive⟩
    · simp [here]
  distinct := allocated ▸ stored.distinct
  fits := allocated ▸ stored.fits

theorem sum_erase_lt {list : List Msg} {bound : Nat}
    (small : (list.map Msg.footprint).sum < bound) :
    ((list.erase msg).map Msg.footprint).sum < bound := by
  have sublist : ((list.erase msg).map Msg.footprint).Sublist (list.map Msg.footprint) :=
    (erase_sublist (l := list)).map Msg.footprint
  exact Nat.lt_of_le_of_lt (sublist.sum_le_sum fun _ _ => Nat.zero_le _) small

section

variable (stored : Stored system place)

include stored

theorem Stored.free (was : place msg = some src) (isDead : dst.live = false)
    (loaded : after.loaded = system.loaded)
    (allocated : after.allocated = system.allocated.erase msg) :
    Stored after (update place msg (some dst)) where
  known := loaded ▸ stored.relocate was
  allocated := by
    intro other
    rw [allocated, stored.distinct.mem_erase_iff, stored.allocated]
    by_cases here : other = msg
    · subst here
      simp [isDead]
    · simp [here]
  distinct := allocated ▸ stored.distinct.erase msg
  fits := allocated ▸ sum_erase_lt stored.fits

theorem Stored.unknown (fresh : msg.ident = system.loaded) : place msg = none := by
  by_contra somewhere
  obtain ⟨there, at_⟩ := ne_none_iff_exists'.mp somewhere
  have := stored.known msg there at_
  omega

theorem Stored.load (fresh : msg.ident = system.loaded)
    (room : ((msg :: system.allocated).map Msg.footprint).sum < 2 ^ 32) (isLive : dst.live = true)
    (loaded : after.loaded = system.loaded + 1)
    (allocated : after.allocated = system.allocated ++ [msg]) :
    Stored after (update place msg (some dst)) where
  known := by
    intro other there now
    rcases update_place.mp now with ⟨rfl, _⟩ | ⟨_, old⟩
    · omega
    · have := stored.known other there old
      omega
  allocated := by
    intro other
    rw [allocated, mem_append, mem_singleton, stored.allocated]
    by_cases here : other = msg <;> simp [here, isLive]
  distinct := by
    rw [allocated]
    refine nodup_append_comm.mpr (nodup_cons.mpr ⟨fun inside => ?_, stored.distinct⟩)
    obtain ⟨there, at_, _⟩ := (stored.allocated msg).mp inside
    rw [stored.unknown fresh] at at_
    cases at_
  fits := by
    rw [allocated, map_append, sum_append]
    rw [map_cons, sum_cons] at room
    simp only [map_cons, map_nil, sum_cons, sum_nil]
    omega

theorem Stored.congr (loaded : after.loaded = system.loaded)
    (allocated : after.allocated = system.allocated) : Stored after place where
  known := loaded ▸ stored.known
  allocated := allocated ▸ stored.allocated
  distinct := allocated ▸ stored.distinct
  fits := allocated ▸ stored.fits

end

end Stored

section Recorded

variable {system after : System} {place : Msg → Option Place} {msg : Msg} {dst : Place}
  {task : Task} {stage : Stage}

/-- A message that counts as sent goes on to places of messages that are sent. -/
theorem sent_update
    (onward : ∀ there, place msg = some there → there.sent = true → dst.sent = true) {other : Msg}
    (sent : ∃ there, place other = some there ∧ there.sent = true) :
    ∃ there, update place msg (some dst) other = some there ∧ there.sent = true := by
  obtain ⟨there, at_, isSent⟩ := sent
  simp only [update_place]
  by_cases here : other = msg
  · subst here
    exact ⟨dst, .inl ⟨rfl, rfl⟩, onward there at_ isSent⟩
  · exact ⟨there, .inr ⟨here, at_⟩, isSent⟩

/-- A task in another stage than the new one was in it before. -/
theorem stage_before {other : Task} {stage' : Stage}
    (now : update system.stage task stage other = stage') (differs : stage' ≠ stage) :
    system.stage other = stage' := by
  rw [update_apply] at now
  split at now
  · exact absurd now.symm differs
  · exact now

/-- The task goes to a stage that is neither the end of a hand-over nor of a removal. -/
theorem Recorded.stages (recorded : Recorded system place)
    (stages : after.stage = update system.stage task stage)
    (plain : stage.plain = true)
    (records : after.records = system.records) :
    Recorded after place := by
  have older : ∀ other stage', after.stage other = stage' → stage' ≠ stage →
      system.stage other = stage' := fun _ _ now => stage_before (stages ▸ now)
  simp only [System.records, Records.mk.injEq] at records
  obtain ⟨messages, deleted, sent, received, removed, -, -, -⟩ := records
  have notLeave : ∀ msg, .locked (.leave msg) ≠ stage := fun _ same => by
    rw [← same] at plain
    cases plain
  have notFreeing : ∀ left, .freeing left ≠ stage := fun _ same => by
    rw [← same] at plain
    cases plain
  constructor
  · rw [messages]
    exact recorded.queued
  · rw [received]
    exact recorded.delivered
  · rw [sent]
    exact recorded.sent
  · exact fun other msg now => recorded.leaving other msg (older other _ now (notLeave msg))
  · rw [deleted, removed]
    exact recorded.kept
  · intro other left now
    rw [deleted, messages, removed]
    exact recorded.freeing other left (older other _ now (notFreeing left))
  · intro one other left left' now now'
    exact recorded.freer one other left left' (older one _ now (notFreeing left))
      (older other _ now' (notFreeing left'))

section

variable (onward : ∀ there, place msg = some there → there.sent = true → dst.sent = true)

include onward

/-- The same when a message changes its place. -/
theorem Recorded.relocate (recorded : Recorded system place) :
    Recorded system (update place msg (some dst)) :=
  { recorded with
    sent := fun other inside => sent_update onward (recorded.sent other inside)
    leaving := fun other leaving at_ => sent_update onward (recorded.leaving other leaving at_) }

theorem Recorded.goes (recorded : Recorded system place) (plain : stage.plain = true) :
    Recorded (system.setStage task stage) (update place msg (some dst)) :=
  (recorded.relocate onward).stages rfl plain rfl

end

end Recorded

/-- Every message has exactly one place, and the memory and the records agree. -/
structure Accounted (system : System) (place : Msg → Option Place) : Prop where
  located : Located system place
  stored : Stored system place
  recorded : Recorded system place

namespace Accounted

variable {system after : System} {place : Msg → Option Place} {msg : Msg} {task : Task}
  {stage : Stage}

theorem initial (msgCtlmnb msgCtlmax : Nat) :
    Accounted (SysvMsg.initial msgCtlmnb msgCtlmax) fun _ => none where
  located :=
    { held := fun _ _ _ => by simp [System.holding, SysvMsg.initial, Stage.holding]
      queued := fun _ => by simp [SysvMsg.initial, newque]
      delivered := fun _ _ => by simp [SysvMsg.initial]
      removed := fun _ => by simp [SysvMsg.initial]
      rejected := fun _ => by simp [SysvMsg.initial] }
  stored :=
    { known := fun _ _ there => absurd there.symm (some_ne_none _)
      allocated := fun _ => by simp [SysvMsg.initial]
      distinct := nodup_nil
      fits := by simp [SysvMsg.initial] }
  recorded :=
    { queued := nodup_nil
      delivered := nodup_nil
      sent := forall_mem_nil _
      leaving := fun _ _ => Stage.noConfusion
      kept := fun _ => rfl
      freeing := fun _ _ => Stage.noConfusion
      freer := fun _ _ _ _ at_ => Stage.noConfusion at_ }

section

variable (accounted : Accounted system place)

include accounted

/-- One message goes to another place, and the lists follow it. -/
theorem relocated {src : Option Place} {dst : Place} (was : place msg = src)
    (held : Holds after.holding (update place msg (some dst)))
    (lists : ∀ other spot, (∀ role holder, spot ≠ .held role holder) → (after.At other spot ↔
      other = msg ∧ dst = spot ∨ ¬(other = msg ∧ src = some spot) ∧ system.At other spot)) :
    Located after (update place msg (some dst)) := by
  have all : ∀ other spot, (∀ role holder, spot ≠ .held role holder) →
      (after.At other spot ↔ update place msg (some dst) other = some spot) := by
    intro other spot listed
    rw [lists other spot listed, accounted.located.at_iff, update_place, ← was]
    by_cases here : other = msg <;> simp [here]
  exact ⟨held, fun other => all other .queued nofun,
    fun other holder => all other (.delivered holder) nofun,
    fun other => all other .removed nofun, fun other => all other .rejected nofun⟩

/-- A task goes on and no message changes its place. -/
theorem still (stages : after.stage = update system.stage task stage)
    (plain : stage.plain = true) (holding : after.holding = system.holding)
    (records : after.records = system.records) : Accounted after place := by
  have recorded := accounted.recorded.stages stages plain records
  simp only [System.records, Records.mk.injEq] at records
  obtain ⟨messages, -, -, received, removed, rejected, loaded, allocated⟩ := records
  refine ⟨?_, accounted.stored.congr loaded allocated, recorded⟩
  exact
    { held := holding ▸ accounted.located.held
      queued := by rw [messages, removed]; exact accounted.located.queued
      delivered := received ▸ accounted.located.delivered
      removed := removed ▸ accounted.located.removed
      rejected := rejected ▸ accounted.located.rejected }

theorem load (ipcNowait : Bool) (idle : system.stage task = .idle)
    (fresh : msg.ident = system.loaded)
    (room : ((msg :: system.allocated).map Msg.footprint).sum < 2 ^ 32) :
    Accounted ({ system with
      loaded := system.loaded + 1
      allocated := system.allocated ++ [msg] }.setStage task (.sendEnter ⟨msg, ipcNowait⟩))
      (update place msg (some (.held .sending task))) := by
  have unknown := accounted.stored.unknown fresh
  have nothing : system.holding task = none := holding_of_stage idle
  refine ⟨?_, ?_, ?_⟩
  · apply accounted.relocated unknown
    · rw [holding_setStage]
      exact accounted.located.held.gain .sending (by simp [nothing]) (by simp [unknown])
    · intro other spot listed
      cases spot <;> simp_all [System.At, System.setStage]
  · exact accounted.stored.load fresh room rfl rfl rfl
  · have staged : Recorded (system.setStage task (.sendEnter ⟨msg, ipcNowait⟩))
        (update place msg (some (.held .sending task))) :=
      accounted.recorded.goes (by simp [unknown]) rfl
    exact { staged with }

theorem reject (mine : system.holding task = some (.sending, msg)) :
    Accounted (system.reject task msg) (update place msg (some .rejected)) := by
  have was := (accounted.located.held msg .sending task).mp mine
  refine ⟨?_, ?_, ?_⟩
  · apply accounted.relocated was
    · exact accounted.located.held.letGo mine nofun
    · intro other spot listed
      cases spot <;> simp_all [System.At, System.reject, System.setStage, or_comm]
  · exact accounted.stored.free was rfl rfl rfl
  · have staged : Recorded (system.setStage task .idle)
        (update place msg (some .rejected)) :=
      accounted.recorded.goes (by simp [was, Place.sent]) rfl
    exact { staged with }

theorem pick (mine : system.holding task = some (.slot, msg)) :
    Accounted (system.setStage task (.received msg))
      (update place msg (some (.held .hand task))) := by
  have was := (accounted.located.held msg .slot task).mp mine
  refine ⟨?_, ?_, ?_⟩
  · apply accounted.relocated was
    · rw [holding_setStage]
      exact accounted.located.held.gain .hand (by simp [mine]) (by simp [was])
    · intro other spot listed
      cases spot <;> simp_all [System.At, System.setStage]
  · exact accounted.stored.keep was rfl rfl rfl rfl
  · exact accounted.recorded.goes (fun _ _ _ => rfl) rfl

theorem deliver (mine : system.holding task = some (.hand, msg)) :
    Accounted (system.deliver task msg) (update place msg (some (.delivered task))) := by
  have was := (accounted.located.held msg .hand task).mp mine
  refine ⟨?_, ?_, ?_⟩
  · apply accounted.relocated was
    · exact accounted.located.held.letGo mine nofun
    · intro other spot listed
      cases spot <;> simp_all [System.At, System.deliver, System.setStage, or_comm, eq_comm,
        and_comm]
  · exact accounted.stored.free was rfl rfl rfl
  · have staged : Recorded (system.setStage task .idle)
        (update place msg (some (.delivered task))) :=
      accounted.recorded.goes (fun _ _ _ => rfl) rfl
    refine { staged with delivered := ?_ }
    change ((system.received ++ [(task, msg)]).map Prod.snd).Nodup
    rw [map_append]
    refine nodup_append_comm.mpr
      (nodup_cons.mpr ⟨fun inside => ?_, accounted.recorded.delivered⟩)
    obtain ⟨pair, received, same⟩ := mem_map.mp inside
    have at_ := (accounted.located.delivered pair.2 pair.1).mp received
    rw [same, was] at at_
    cases at_

section

variable (exists_ : system.queue.deleted = false)

include exists_

theorem queued_allocated (inQueue : msg ∈ system.queue.qMessages) : place msg = some .queued := by
  refine (accounted.located.queued msg).mp ⟨inQueue, ?_⟩
  rw [accounted.recorded.kept exists_]
  exact not_mem_nil

theorem absent {role : Role} (was : place msg = some (.held role task)) :
    msg ∉ system.queue.qMessages := by
  intro inside
  have queued := accounted.queued_allocated exists_ inside
  rw [was] at queued
  cases queued

theorem take {call : RecvCall} {left : List Msg} {qCbytes qQnum : Nat}
    (entered : system.stage task = .recvEnter call) (inQueue : msg ∈ system.queue.qMessages)
    (isLeft : left = system.queue.qMessages.erase msg) :
    Accounted ({ system.ssWakeup with
      queue := { system.queue with
        qMessages := left, qCbytes := qCbytes, qQnum := qQnum } }.setStage task (.received msg))
      (update place msg (some (.held .hand task))) := by
  have was := accounted.queued_allocated exists_ inQueue
  have nothing : system.holding task = none := holding_of_stage entered
  refine ⟨?_, ?_, ?_⟩
  · apply accounted.relocated was
    · rw [holding_setStage]
      exact accounted.located.held.gain .hand (by simp [nothing]) (by simp [was])
    · intro other spot listed
      cases spot <;> simp_all [System.At, System.setStage, System.ssWakeup, and_assoc,
        accounted.recorded.queued.mem_erase_iff]
  · exact accounted.stored.keep was rfl rfl rfl rfl
  · have staged : Recorded (system.setStage task (.received msg))
        (update place msg (some (.held .hand task))) :=
      accounted.recorded.goes (fun _ _ _ => rfl) rfl
    refine
      { staged with
        queued := ?_
        freeing := fun other rest at_ =>
          absurd (staged.freeing other rest at_).1 (Bool.eq_false_iff.mp exists_) }
    rw [show left = system.queue.qMessages.erase msg from isLeft]
    exact accounted.recorded.queued.erase msg

/-- The message no receiver took is put on the queue. -/
theorem enqueue (held : system.stage task = .locked (.pipelined msg [])) :
    Accounted (system.enqueue task msg) (update place msg (some .queued)) := by
  have mine : system.holding task = some (.sending, msg) := holding_of_stage held
  have was := (accounted.located.held msg .sending task).mp mine
  have kept := accounted.recorded.kept exists_
  refine ⟨?_, ?_, ?_⟩
  · apply accounted.relocated was
    · exact accounted.located.held.letGo mine nofun
    · intro other spot listed
      cases spot <;> simp_all [System.At, System.enqueue, System.setStage, or_comm]
  · exact accounted.stored.keep was rfl rfl rfl rfl
  · have staged : Recorded (system.setStage task .idle)
        (update place msg (some .queued)) :=
      accounted.recorded.goes (fun _ _ _ => rfl) rfl
    refine
      { staged with
        queued := ?_
        sent := forall_mem_append.mpr
          ⟨staged.sent, forall_mem_singleton.mpr ⟨.queued, update_self .., rfl⟩⟩
        freeing := fun other rest at_ =>
          absurd (staged.freeing other rest at_).1 (Bool.eq_false_iff.mp exists_) }
    exact nodup_append_comm.mpr
      (nodup_cons.mpr ⟨accounted.absent exists_ was, accounted.recorded.queued⟩)

end

/-- The message is written to the slot of a receiver. -/
theorem hand {receiver : Task} {awake : Bool}
    (held : system.stage task = .waking awake receiver (.message msg) (.leave msg))
    (waits : (system.stage receiver).waiting = true) (empty : system.slot receiver = .null) :
    Accounted ((system.setSlot receiver (.message msg)).setStage task (.locked (.leave msg)))
      (update place msg (some (.held .slot receiver))) := by
  have mine : system.holding task = some (.sending, msg) := holding_of_stage held
  have was := (accounted.located.held msg .sending task).mp mine
  have apart : receiver ≠ task :=
    waiter_ne (congrArg Stage.position held) waits
  have nothing : system.holding receiver = none :=
    Stage.holding_waiting waits fun _ => by rw [empty]; exact nofun
  refine ⟨?_, ?_, ?_⟩
  · apply accounted.relocated was
    · rw [holding_setStage, holding_setSlot, Stage.holding_message waits msg, update_comm apart]
      -- for a moment neither has it
      have released : Holds (update system.holding task none) (update place msg none) :=
        accounted.located.held.release mine nofun
      have idem : update (update place msg none) msg
          (some (.held .slot receiver)) = update place msg (some (.held .slot receiver)) :=
        update_idem ..
      rw [← idem]
      exact released.gain .slot (by simp [apart, nothing]) (by simp)
    · intro other spot listed
      cases spot <;> simp_all [System.At, System.setStage, System.setSlot]
  · exact accounted.stored.keep was rfl rfl rfl rfl
  · have relocated : Recorded system (update place msg (some (.held .slot receiver))) :=
      accounted.recorded.relocate fun _ _ _ => rfl
    refine
      { relocated with
        leaving := fun other leaving at_ => ?_
        freeing := fun other rest at_ =>
          relocated.freeing other rest (stage_before at_ (by simp))
        freer := fun one other rest rest' at_ at_' =>
          relocated.freer one other rest rest' (stage_before at_ (by simp))
            (stage_before at_' (by simp)) }
    rw [setStage_stage] at at_
    split at at_
    · obtain rfl := Section.leave.inj (Stage.locked.inj at_)
      exact ⟨.held .slot receiver, update_self .., rfl⟩
    · exact relocated.leaving other leaving at_

/-- `freeque` frees a message that is still on the list of the removed queue. -/
theorem freeMsg {left : List Msg} (freeing : system.stage task = .freeing (msg :: left)) :
    Accounted (system.freeMsg task msg left) (update place msg (some .removed)) := by
  obtain ⟨gone, distinct, pending⟩ := accounted.recorded.freeing task _ freeing
  have was : place msg = some .queued :=
    (accounted.located.queued msg).mp (pending msg mem_cons_self)
  have nothing : system.holding task = none := holding_of_stage freeing
  refine ⟨?_, ?_, ?_⟩
  · apply accounted.relocated was
    · change Holds (system.setStage task (.freeing left)).holding _
      rw [holding_setStage]
      exact accounted.located.held.move none (some .removed) (by simp [nothing]) (by simp [was])
        (by simp)
    · intro other spot listed
      cases spot <;> simp_all [System.At, System.freeMsg, System.setStage, or_comm, and_left_comm]
  · exact accounted.stored.free was rfl rfl rfl
  · have relocated : Recorded system (update place msg (some .removed)) :=
      accounted.recorded.relocate fun _ _ _ => rfl
    have stageOf : ∀ other, (system.freeMsg task msg left).stage other =
        if other = task then .freeing left else system.stage other := fun other =>
      update_apply ..
    have isTask : ∀ other rest, (system.freeMsg task msg left).stage other = .freeing rest →
        other = task := by
      intro other rest at_
      by_contra elsewhere
      rw [stageOf, if_neg elsewhere] at at_
      exact elsewhere (accounted.recorded.freer other task rest _ at_ freeing)
    refine
      { relocated with
        leaving := fun other leaving at_ => ?_
        kept := fun exists_ => ?_
        freeing := fun other rest at_ => ?_
        freer := fun one other rest rest' at_ at_' => ?_ }
    · exact relocated.leaving other leaving (stage_before at_ (by simp))
    · rw [show system.queue.deleted = false from exists_] at gone
      cases gone
    · have here := isTask other rest at_
      rw [stageOf, if_pos here] at at_
      cases at_
      have split := nodup_cons.mp distinct
      refine ⟨gone, split.2, fun other inside => ?_⟩
      have pendingOther := pending other (mem_cons_of_mem msg inside)
      refine ⟨pendingOther.1, fun removed => ?_⟩
      cases mem_append.mp removed with
      | inl older => exact pendingOther.2 older
      | inr new => exact split.1 (mem_singleton.mp new ▸ inside)
    · rw [isTask one rest at_, isTask other rest' at_']

section

variable {old : Stage} (was : system.stage task = old)
  (stages : after.stage = update system.stage task stage)
  (same : stage.holding (after.slot task) = old.holding (system.slot task))
  (plain : stage.plain = true) (records : after.records = system.records)

include was stages same plain records

theorem goOn (others : ∀ other, other ≠ task →
      (system.stage other).holding (after.slot other) = system.holding other) :
    Accounted after place := by
  refine accounted.still stages plain (funext fun other => ?_) records
  rw [System.holding, stages, update_apply]
  split
  · rename_i here
    rw [here, holding_of_stage was]
    exact same
  · rename_i elsewhere
    exact others other elsewhere

/-- The holder of the lock writes to a slot that held no message. -/
theorem writeSlot {receiver : Task} {value : Slot} (waits : (system.stage receiver).waiting = true)
    (empty : ∀ msg, system.slot receiver ≠ .message msg)
    (frame : after.frame = (system.setSlot receiver value).frame)
    (isEmpty : ∀ msg, value ≠ .message msg) : Accounted after place := by
  refine accounted.goOn was stages same plain records fun other _ => ?_
  rw [show after.slot other = _ from congrArg (fun frame => (frame other).rMsg) frame,
    show ((system.setSlot receiver value).frame other).rMsg = _ from setSlot_slot]
  split
  · rename_i here
    rw [here, System.holding, Stage.holding_waiting waits isEmpty,
      Stage.holding_waiting waits empty]
  · rfl

end

/-- The end of `expunge_all` for a removal. -/
theorem removeQueue (exists_ : system.queue.deleted = false)
    (held : system.stage task = .locked (.expunge .eidrm [])) :
    Accounted (system.expunged task .eidrm) place := by
  have kept := accounted.recorded.kept exists_
  have nobody : ∀ other left, ¬ system.stage other = .freeing left := fun other left at_ =>
    absurd (accounted.recorded.freeing other left at_).1 (Bool.eq_false_iff.mp exists_)
  have stageOf : ∀ other, (system.expunged task .eidrm).stage other =
      if other = task then .freeing system.queue.qMessages else system.stage other := fun other =>
    update_apply ..
  have isTask : ∀ other left, (system.expunged task .eidrm).stage other = .freeing left →
      other = task ∧ left = system.queue.qMessages := by
    intro other left at_
    rw [stageOf] at at_
    split at at_
    · rename_i here
      exact ⟨here, (Stage.freeing.inj at_).symm⟩
    · exact absurd at_ (nobody other left)
  refine ⟨?_, accounted.stored.congr rfl rfl, ?_⟩
  · refine { accounted.located with held := ?_ }
    change Holds (system.setStage task (.freeing system.queue.qMessages)).holding place
    have nothing : system.holding task = none := holding_of_stage held
    rw [holding_setStage, show Stage.holding (system.slot task)
      (.freeing system.queue.qMessages) = system.holding task from nothing.symm,
      update_eq_self]
    exact accounted.located.held
  · refine
      { accounted.recorded with
        leaving := fun other msg at_ => ?_
        kept := Bool.noConfusion
        freeing := fun other left at_ => ?_
        freer := fun one other left left' at_ at_' => ?_ }
    · exact accounted.recorded.leaving other msg (stage_before at_ nofun)
    · obtain ⟨_, rfl⟩ := isTask other left at_
      refine ⟨rfl, accounted.recorded.queued, fun msg inside => ⟨inside, ?_⟩⟩
      change msg ∉ system.removed
      rw [kept]
      exact not_mem_nil
    · rw [(isTask one left at_).1, (isTask other left' at_').1]

theorem leaveCall (held : system.stage task = .locked (.leave msg)) :
    Accounted ({ system with lock := none, sent := system.sent ++ [msg] }.setStage task .idle)
      place := by
  have isSent := accounted.recorded.leaving task msg held
  have staged : Accounted (system.setStage task .idle) place :=
    accounted.goOn held rfl rfl rfl rfl fun _ _ => rfl
  refine ⟨{ staged.located with }, { staged.stored with }, { staged.recorded with sent := ?_ }⟩
  exact forall_mem_append.mpr ⟨accounted.recorded.sent, forall_mem_singleton.mpr isSent⟩

/-- Every transition leaves each message in one place. -/
theorem transition (sound : Disciplined system) (moved : Transition task system after) :
    ∃ place', Accounted after place' := by
  cases moved with
  | stay => exact ⟨place, accounted⟩
  | enter stage idle entry =>
    rcases entry with ⟨_, rfl⟩ | ⟨_, rfl⟩ | rfl <;>
      exact ⟨place, accounted.goOn idle rfl rfl rfl rfl fun _ _ => rfl⟩
  | load msg ipcNowait idle fresh room => exact ⟨_, accounted.load ipcNowait idle fresh room⟩
  | flags running signalPending wakes =>
    exact ⟨place, ⟨{ accounted.located with }, { accounted.stored with },
      { accounted.recorded with }⟩⟩
  | reject call sends =>
    refine ⟨_, accounted.reject ?_⟩
    rcases sends with entered | ⟨asleep, _⟩
    · exact holding_of_stage entered
    · exact holding_of_stage asleep
  | finish done =>
    cases done with
    | receive call entered | set qbytes entered | rmid entered | freed entered =>
      exact ⟨place, accounted.goOn entered rfl rfl rfl rfl fun _ _ => rfl⟩
    | error err waits proper slot =>
      refine ⟨place, accounted.goOn rfl rfl ?_ rfl rfl fun _ _ => rfl⟩
      rw [Stage.holding_waiting waits fun _ => by rw [slot]; exact nofun]
      rfl
  | again call was slot | unlinkSender call was free | sendStart call was free exists_ room
  | sleepSender call was free exists_ full | ipcSet qbytes was free exists_
  | ipcRmid was free exists_ | skip msg receiver left was mismatch =>
    exact ⟨place, accounted.goOn was rfl rfl rfl rfl fun _ _ => rfl⟩
  | pick msg waits slot =>
    refine ⟨_, accounted.pick ?_⟩
    unfold System.holding
    rw [slot]
    exact Stage.holding_message waits msg
  | unlinkReceiver call relock slot free =>
    refine ⟨place, accounted.goOn relock rfl ?_ rfl rfl fun _ _ => rfl⟩
    rw [slot]
    rfl
  | take call msg left entered free exists_ found =>
    obtain ⟨inQueue, isLeft⟩ := takeMessage_taken found
    exact ⟨_, accounted.take exists_ entered inQueue isLeft⟩
  | sleepReceiver call rMaxsize entered free exists_ found =>
    refine ⟨place, accounted.goOn entered rfl ?_ rfl rfl fun other elsewhere => ?_⟩
    · simp [System.slot, Stage.holding]
    · simp [System.slot, System.holding, elsewhere]
  | deliver msg received =>
    exact ⟨_, accounted.deliver (holding_of_stage received)⟩
  | enqueue msg held =>
    exact ⟨_, accounted.enqueue (sound.exists_of_held (congrArg Stage.position held)) held⟩
  | offer msg receiver left value there held way =>
    obtain ⟨waits, slot⟩ := sound.next_waits held mem_cons_self
    refine ⟨place, accounted.writeSlot held rfl ?_ rfl rfl waits (fun _ => ?_) rfl nofun⟩
    · rcases way with ⟨rfl, rfl⟩ | ⟨rfl, rfl⟩ <;> rfl
    · rw [slot]
      exact nofun
  | leave msg held => exact ⟨place, accounted.leaveCall held⟩
  | expunge res receiver left held =>
    obtain ⟨waits, slot⟩ := sound.next_waits held mem_cons_self
    refine ⟨place, accounted.writeSlot held rfl rfl rfl rfl waits (fun _ => ?_) rfl nofun⟩
    rw [slot]
    exact nofun
  | expunged res held =>
    have exists_ := sound.exists_of_held (congrArg Stage.position held)
    by_cases isEidrm : res = .eidrm
    · subst isEidrm
      exact ⟨place, accounted.removeQueue exists_ held⟩
    · unfold System.expunged
      rw [if_neg isEidrm]
      exact ⟨place, accounted.goOn held rfl rfl rfl rfl fun _ _ => rfl⟩
  | wake receiver value there held =>
    refine ⟨place, accounted.goOn held rfl ?_ rfl rfl fun _ _ => rfl⟩
    cases value <;> cases there <;> rfl
  | write receiver value there held =>
    obtain ⟨waits, empty, past, wakes⟩ := sound.waking _ _ _ _ _ held
    have wasEmpty : ∀ msg, system.slot receiver ≠ .message msg := fun _ => by
      rw [empty]
      exact nofun
    cases wakes with
    | hand msg off => exact ⟨_, accounted.hand held waits empty⟩
    | tooBig msg left off | expunge res left on =>
      exact ⟨place, accounted.writeSlot held rfl rfl rfl rfl waits wasEmpty rfl nofun⟩
  | freeMsg msg left freeing => exact ⟨_, accounted.freeMsg freeing⟩

end

end Accounted

section Run

variable {system after : System} {task : Task}

theorem Transition.stages (moved : Transition task system after) :
    after.stage = system.stage ∨
      ∃ stage, stage ≠ .fault ∧ after.stage = update system.stage task stage := by
  cases moved with
  | stay | flags running signalPending wakes => exact .inl rfl
  | enter stage idle entry =>
    refine .inr ⟨stage, ?_, rfl⟩
    rcases entry with ⟨_, rfl⟩ | ⟨_, rfl⟩ | rfl <;> exact nofun
  | expunged res held =>
    unfold System.expunged
    split <;> exact .inr ⟨_, Stage.noConfusion, rfl⟩
  | _ => exact .inr ⟨_, Stage.noConfusion, rfl⟩

/-- The invariant of the message queue. -/
structure Sound (system : System) : Prop where
  disciplined : Disciplined system
  accounted : ∃ place, Accounted system place
  running : ∀ task, system.stage task ≠ .fault

theorem Sound.transition (sound : Sound system) (moved : Transition task system after) :
    Sound after := by
  obtain ⟨place, accounted⟩ := sound.accounted
  refine ⟨sound.disciplined.transition moved, accounted.transition sound.disciplined moved,
    fun other => ?_⟩
  rcases moved.stages with same | ⟨stage, proper, update⟩
  · rw [same]
    exact sound.running other
  · rw [update, update_apply]
    split
    · exact proper
    · exact sound.running other

theorem initial_sound (msgCtlmnb msgCtlmax : Nat) : Sound (initial msgCtlmnb msgCtlmax) :=
  ⟨initial_disciplined msgCtlmnb msgCtlmax, ⟨_, Accounted.initial msgCtlmnb msgCtlmax⟩,
    nofun⟩

theorem Sound.step (sound : Sound system) {op : Op}
    (stepped : SysvMsg.step system op = some after) : Sound after := by
  obtain ⟨task, middle, first, second⟩ := step_moves sound.disciplined stepped
  exact (sound.transition first).transition second

theorem run_sound {msgCtlmnb msgCtlmax : Nat} {ops : List Op} {final : System}
    (executed : Runs.run step (initial msgCtlmnb msgCtlmax) ops = some final) : Sound final :=
  Runs.run_invariant (fun _ _ _ sound _ => sound.step) ops _ final
    (initial_sound msgCtlmnb msgCtlmax)
    (Runs.along_of_forall (fun _ _ => trivial) ops _) executed

/-- In every state of every run a message whose `sys_msgsnd` has returned 0 is in
exactly one place: on the queue, with one receiver, or freed with the queue. No
message is delivered twice, the memory in use is that of the messages still on their
way, and no task follows a `NULL` pointer. -/
theorem sent_in_one_place (msgCtlmnb msgCtlmax : Nat) (ops : List Op) (final : System)
    (executed : Runs.run step (initial msgCtlmnb msgCtlmax) ops = some final) :
    (∀ msg ∈ final.sent, ∃ there, final.At msg there ∧ there.sent = true ∧
        ∀ other, final.At msg other → other = there) ∧
      (final.received.map Prod.snd).Nodup ∧
      (∀ msg, msg ∈ final.allocated ↔ ∃ there, final.At msg there ∧ there.live = true) ∧
      ∀ task, final.stage task ≠ .fault := by
  have sound := run_sound executed
  obtain ⟨place, accounted⟩ := sound.accounted
  have at_iff := accounted.located.at_iff
  refine ⟨fun msg inside => ?_, accounted.recorded.delivered, fun msg => ?_, sound.running⟩
  · obtain ⟨there, at_, isSent⟩ := accounted.recorded.sent msg inside
    refine ⟨there, (at_iff msg there).mpr at_, isSent, fun other elsewhere => ?_⟩
    exact Option.some.inj (((at_iff msg other).mp elsewhere).symm.trans at_)
  · rw [accounted.stored.allocated]
    simp only [at_iff]

/-- A receiver sleeps; a sender hands it a message while a signal wakes it and
`IPC_SET` waits for the lock. -/
def contendedHandover : List Op :=
  [.msgrcv 1 64 0 ⟨false, false, false⟩, .advance 1, .ipcSet 3 100, .msgsnd 2 1 4 false,
   .advance 2, .advance 2, .signal 1, .advance 1, .advance 2, .advance 2, .advance 1, .advance 2,
   .advance 3, .advance 3, .advance 1]

theorem contendedHandover_runs :
    (Runs.run step (initial 100 100) contendedHandover).isSome = true := by decide

theorem sent_in_one_place_contendedHandover :
    ∃ final, Runs.run step (initial 100 100) contendedHandover = some final ∧
      final.sent = [⟨0, 1, 4⟩] ∧ final.received = [(1, ⟨0, 1, 4⟩)] ∧
      ∀ msg ∈ final.sent, ∃ there, final.At msg there ∧ there.sent = true ∧
        ∀ other, final.At msg other → other = there :=
  ⟨_, (some_get contendedHandover_runs).symm, by decide, by decide,
    (sent_in_one_place 100 100 contendedHandover _ (some_get contendedHandover_runs).symm).1⟩

end Run

end MagxKernel.SysvMsg
