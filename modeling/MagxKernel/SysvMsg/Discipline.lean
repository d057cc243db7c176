import Mathlib.Data.List.Nodup
import MagxKernel.SysvMsg.Queue

namespace MagxKernel.SysvMsg

open List
open Function (update update_self update_of_ne update_apply)

/-- The critical section a task is in. Only the holder of the lock is in one. -/
def Stage.position : Stage → Option Section
  | .locked place => some place
  | .waking _ _ _ place => some place
  | .idle | .sendEnter _ | .sendAsleep _ | .recvEnter _ | .recvAsleep _ | .recvRelock _
  | .received _ | .fault | .setEnter _ | .rmidEnter | .freeing _ => none

/-- The task has put itself on `q_receivers` and has not left the call yet. -/
def Stage.waiting : Stage → Bool
  | .recvAsleep _ | .recvRelock _ => true
  | .idle | .sendEnter _ | .sendAsleep _ | .recvEnter _ | .received _ | .fault | .setEnter _
  | .rmidEnter | .locked _ | .waking _ _ _ _ | .freeing _ => false

theorem Stage.position_waiting {stage : Stage} (waits : stage.waiting = true) :
    stage.position = none := by
  cases stage <;> first | rfl | exact Bool.noConfusion waits

/-- The receivers a walk has not come to yet. -/
def Section.left : Section → List Task
  | .pipelined _ left => left
  | .leave _ => []
  | .expunge _ left => left

def System.slot (system : System) (task : Task) : Slot := (system.frame task).rMsg

/-- What is written to a slot, by where the writer goes on. -/
inductive Wakes (receivers : List Task) (receiver : Task) : Slot → Section → Prop
  | hand (msg : Msg) (off : receiver ∉ receivers) :
      Wakes receivers receiver (.message msg) (.leave msg)
  | tooBig (msg : Msg) (left : List Task) (off : receiver ∉ receivers) :
      Wakes receivers receiver (.error .e2big) (.pipelined msg left)
  | expunge (res : Errno) (left : List Task) (on : receiver ∈ receivers) :
      Wakes receivers receiver (.error res) (.expunge res left)

/-- The lock protects the lists, and only its holder writes to slots of others. -/
structure Disciplined (system : System) : Prop where
  lock : ∀ task, (system.stage task).position.isSome = true ↔ system.lock = some task
  live : system.queue.deleted = true → system.lock = none
  distinct : system.queue.qReceivers.Nodup
  listed : ∀ receiver ∈ system.queue.qReceivers, system.slot receiver = .error .eidrm ∨
    ((system.stage receiver).waiting = true ∧
      (system.slot receiver = .error .eagain ∨ system.slot receiver = .null))
  expelled : ∀ receiver ∈ system.queue.qReceivers, system.slot receiver = .error .eidrm →
    system.queue.deleted = true ∨
      ∃ task left, (system.stage task).position = some (.expunge .eidrm left)
  left : ∀ task place, (system.stage task).position = some place →
    place.left.Sublist system.queue.qReceivers
  expunge : ∀ task res left, (system.stage task).position = some (.expunge res left) →
    res ≠ .e2big ∧ ∀ receiver ∈ left, system.slot receiver ≠ .error .eidrm
  waking : ∀ task awake receiver value place,
    system.stage task = .waking awake receiver value place →
      (system.stage receiver).waiting = true ∧ system.slot receiver = .null ∧
        receiver ∉ place.left ∧ Wakes system.queue.qReceivers receiver value place
  null : ∀ receiver, (system.stage receiver).waiting = true → system.slot receiver = .null →
    ∃ task awake value place, system.stage task = .waking awake receiver value place
  again : ∀ receiver, (system.stage receiver).waiting = true →
    system.slot receiver = .error .eagain → receiver ∈ system.queue.qReceivers
  expelling : ∀ task left, (system.stage task).position = some (.expunge .eidrm left) →
    ∀ receiver ∈ system.queue.qReceivers, receiver ∉ left →
      system.slot receiver = .error .eidrm ∨ system.slot receiver = .null
  gone : system.queue.deleted = true →
    ∀ receiver ∈ system.queue.qReceivers, system.slot receiver = .error .eidrm
  emptied : system.queue.deleted = true → system.queue.qSenders = []
  senders : ∀ sender ∈ system.queue.qSenders, ∃ call, system.stage sender = .sendAsleep call
  sendersDistinct : system.queue.qSenders.Nodup

variable {place : Section}

section

variable {system : System} (distinct : system.queue.qReceivers.Nodup)
  (listed : ∀ receiver ∈ system.queue.qReceivers, system.slot receiver = .error .eidrm ∨
    ((system.stage receiver).waiting = true ∧
      (system.slot receiver = .error .eagain ∨ system.slot receiver = .null)))
  (again : ∀ receiver, (system.stage receiver).waiting = true →
    system.slot receiver = .error .eagain → receiver ∈ system.queue.qReceivers)
  (senders : ∀ sender ∈ system.queue.qSenders, ∃ call, system.stage sender = .sendAsleep call)
  (sendersDistinct : system.queue.qSenders.Nodup)

include distinct listed again senders sendersDistinct

theorem Disciplined.unlocked
    (nowhere : ∀ task, (system.stage task).position = none) (free : system.lock = none)
    (expelled : ∀ receiver ∈ system.queue.qReceivers, system.slot receiver = .error .eidrm →
      system.queue.deleted = true)
    (full : ∀ receiver, (system.stage receiver).waiting = true → system.slot receiver ≠ .null)
    (gone : system.queue.deleted = true →
      ∀ receiver ∈ system.queue.qReceivers, system.slot receiver = .error .eidrm)
    (emptied : system.queue.deleted = true → system.queue.qSenders = []) : Disciplined system where
  lock := fun task => by simp [nowhere, free]
  live := fun _ => free
  distinct := distinct
  listed := listed
  expelled := fun receiver inside eidrm => .inl (expelled receiver inside eidrm)
  left := fun task _ there => by simp [nowhere task] at there
  expunge := fun task _ _ there => by simp [nowhere task] at there
  waking := fun task _ _ _ _ there => by
    have none := nowhere task
    rw [there] at none
    cases none
  null := fun receiver waits isNull => absurd isNull (full receiver waits)
  again := again
  expelling := fun task _ there => by simp [nowhere task] at there
  gone := gone
  emptied := emptied
  senders := senders
  sendersDistinct := sendersDistinct

theorem Disciplined.heldBy {task : Task} (held : (system.stage task).position = some place)
    (alone : ∀ other, other ≠ task → (system.stage other).position = none)
    (owner : system.lock = some task) (exists_ : system.queue.deleted = false)
    (dying : ∀ receiver ∈ system.queue.qReceivers, system.slot receiver = .error .eidrm →
      ∃ left, place = .expunge .eidrm left) (left : place.left.Sublist system.queue.qReceivers)
    (expunge : ∀ res left, place = .expunge res left →
      res ≠ .e2big ∧ ∀ receiver ∈ left, system.slot receiver ≠ .error .eidrm)
    (waking : ∀ awake receiver value there,
      system.stage task = .waking awake receiver value there →
        (system.stage receiver).waiting = true ∧ system.slot receiver = .null ∧
          receiver ∉ there.left ∧ Wakes system.queue.qReceivers receiver value there)
    (waker : ∀ receiver, (system.stage receiver).waiting = true → system.slot receiver = .null →
      ∃ awake value there, system.stage task = .waking awake receiver value there)
    (expelling : ∀ left, place = .expunge .eidrm left →
      ∀ receiver ∈ system.queue.qReceivers, receiver ∉ left →
        system.slot receiver = .error .eidrm ∨ system.slot receiver = .null) :
    Disciplined system := by
  have here : ∀ {other there}, (system.stage other).position = some there →
      other = task ∧ place = there := by
    intro other there at_
    obtain rfl : other = task := by
      by_contra elsewhere
      rw [alone other elsewhere] at at_
      cases at_
    exact ⟨rfl, Option.some.inj (held.symm.trans at_)⟩
  have stays : ∀ {goal : Prop}, system.queue.deleted = true → goal := by
    intro goal deleted
    rw [exists_] at deleted
    cases deleted
  refine ⟨fun other => ⟨fun inside => ?_, fun locked => ?_⟩, stays, distinct, listed,
    fun receiver inside eidrm => .inr ?_, fun other there at_ => (here at_).2 ▸ left,
    fun other res left at_ => expunge res left (here at_).2,
    fun other awake receiver value there at_ => ?_, fun receiver waits isNull =>
      ⟨task, waker receiver waits isNull⟩, again,
    fun other left at_ => expelling left (here at_).2, stays, stays, senders, sendersDistinct⟩
  · obtain ⟨there, at_⟩ := Option.isSome_iff_exists.mp inside
    rw [(here at_).1]
    exact owner
  · rw [← Option.some.inj (owner.symm.trans locked), held]
    rfl
  · obtain ⟨left, is⟩ := dying receiver inside eidrm
    exact ⟨task, left, is ▸ held⟩
  · have same := (here (congrArg Stage.position at_)).1
    exact waking awake receiver value there (same ▸ at_)

end

theorem initial_disciplined (msgCtlmnb msgCtlmax : Nat) :
    Disciplined (initial msgCtlmnb msgCtlmax) :=
  .unlocked nodup_nil nofun nofun nofun nodup_nil (fun _ => rfl) rfl nofun nofun nofun
    fun _ => rfl

variable {after : System}

section Frame

variable {system : System} {task receiver : Task} {stage : Stage} {slot : Slot}

@[simp] theorem setStage_self : (system.setStage task stage).stage task = stage :=
  update_self ..

theorem setStage_of_ne (other : receiver ≠ task) :
    (system.setStage task stage).stage receiver = system.stage receiver :=
  update_of_ne other ..

theorem setStage_stage :
    (system.setStage task stage).stage receiver =
      if receiver = task then stage else system.stage receiver := update_apply ..

@[simp] theorem setStage_slot : (system.setStage task stage).slot receiver = system.slot receiver :=
  rfl

@[simp] theorem setStage_queue : (system.setStage task stage).queue = system.queue := rfl

@[simp] theorem setStage_frame : (system.setStage task stage).frame = system.frame := rfl

@[simp] theorem setSlot_stage : (system.setSlot task slot).stage = system.stage := rfl

theorem setSlot_slot :
    (system.setSlot task slot).slot receiver =
      if receiver = task then slot else system.slot receiver := by
  unfold System.slot System.setSlot
  dsimp only
  rw [update_apply]
  split <;> rfl

theorem slot_same (was : system.slot task = slot) (other : Task) :
    system.slot other = if other = task then slot else system.slot other := by
  by_cases same : other = task <;> simp [same, was]

theorem waited (stops : stage.waiting = false)
    (stages : ∀ other, after.stage other = if other = task then stage else system.stage other)
    (waiting : (after.stage receiver).waiting = true) : (system.stage receiver).waiting = true := by
  rw [stages] at waiting
  split at waiting
  · rw [stops] at waiting
    cases waiting
  · exact waiting

theorem waiting_of_position (inside : stage.position = some place) : stage.waiting = false := by
  apply Bool.eq_false_iff.mpr
  intro waits
  rw [Stage.position_waiting waits] at inside
  cases inside

theorem waiter_ne (held : (system.stage task).position = some place)
    (waits : (system.stage receiver).waiting = true) : receiver ≠ task := by
  rintro rfl
  rw [Stage.position_waiting waits] at held
  cases held

end Frame

namespace Disciplined

variable {system : System} {task : Task} {receiver : Task}

section

variable (sound : Disciplined system)

include sound

theorem position_none (free : system.lock = none) (other : Task) :
    (system.stage other).position = none := by
  have := sound.lock other
  rw [free] at this
  simpa using this

/-- Only receivers that have been expelled are listed and do not wait. -/
theorem listed_idle (idle : (system.stage task).waiting = false)
    (inside : task ∈ system.queue.qReceivers) : system.slot task = .error .eidrm := by
  refine (sound.listed task inside).resolve_right fun waits => ?_
  rw [idle] at waits
  cases waits.1

variable {place : Section} {receiver : Task} {stage : Stage}

theorem nowhere (free : system.lock = none) {other : Task}
    (there : (system.stage other).position = some place) : False := by
  have taken := (sound.lock other).mp (by rw [there]; rfl)
  rw [free] at taken
  exact Option.some_ne_none other taken.symm

theorem setStage (before : (system.stage task).position = none) (after : stage.position = none)
    (waits : stage.waiting = true → (system.stage task).waiting = true)
    (leaves : stage.waiting = false → task ∈ system.queue.qReceivers →
      system.slot task = .error .eidrm)
    (full : stage.waiting = false → (system.stage task).waiting = true → system.slot task ≠ .null)
    (sender : task ∈ system.queue.qSenders → ∃ call, stage = .sendAsleep call) :
    Disciplined (system.setStage task stage) := by
  have positions : ∀ other, ((system.setStage task stage).stage other).position =
      (system.stage other).position := by
    intro other
    rw [setStage_stage]
    split
    · rename_i here
      rw [here, after, before]
    · rfl
  have wakers : ∀ other awake receiver value place,
      (system.setStage task stage).stage other = .waking awake receiver value place ↔
        system.stage other = .waking awake receiver value place := by
    intro other awake receiver value place
    rw [setStage_stage]
    split
    · rename_i here
      constructor
      · intro now
        rw [now] at after
        cases after
      · intro was
        rw [← here, was] at before
        cases before
    · exact Iff.rfl
  have waited : ∀ receiver, ((system.setStage task stage).stage receiver).waiting = true →
      (system.stage receiver).waiting = true := by
    intro receiver waiting
    rw [setStage_stage] at waiting
    split at waiting
    · rename_i here
      exact here ▸ waits waiting
    · exact waiting
  refine
    { sound with
      lock := fun other => ?_
      listed := fun receiver inside => ?_
      expelled := fun receiver inside eidrm => ?_
      left := fun other place there => sound.left other place (positions other ▸ there)
      expunge := fun other res left there => sound.expunge other res left (positions other ▸ there)
      waking := fun other awake receiver value place there => ?_
      null := fun receiver waiting isNull => ?_
      again := fun receiver waiting => sound.again receiver (waited receiver waiting)
      expelling := fun other left there => sound.expelling other left (positions other ▸ there)
      senders := fun other inside => ?_ }
  · rw [positions]
    exact sound.lock other
  · rw [setStage_stage]
    split
    · rename_i here
      subst here
      cases waiting : stage.waiting with
      | false => exact .inl (leaves waiting inside)
      | true => exact (sound.listed receiver inside).imp_right fun listed => ⟨rfl, listed.2⟩
    · exact sound.listed receiver inside
  · exact (sound.expelled receiver inside eidrm).imp_right fun ⟨other, left, there⟩ =>
      ⟨other, left, (positions other).trans there⟩
  · have held := sound.waking other awake receiver value place ((wakers ..).mp there)
    refine ⟨?_, held.2⟩
    rw [setStage_stage]
    split
    · rename_i here
      subst here
      by_contra stops
      exact full (Bool.eq_false_iff.mpr stops) held.1 held.2.1
    · exact held.1
  · obtain ⟨other, awake, value, place, there⟩ :=
      sound.null receiver (waited receiver waiting) isNull
    exact ⟨other, awake, value, place, (wakers ..).mpr there⟩
  · rw [setStage_stage]
    split
    · rename_i here
      exact sender (here ▸ inside)
    · exact sound.senders other inside

/-- With the lock free no slot of a waiting receiver is `NULL`. -/
theorem not_null (free : system.lock = none) (waiting : (system.stage receiver).waiting = true) :
    system.slot receiver ≠ .null := by
  intro isNull
  obtain ⟨other, awake, value, place, there⟩ := sound.null receiver waiting isNull
  exact sound.nowhere free (congrArg Stage.position there)

/-- The holder of the lock is the only task in a critical section. -/
theorem holder_unique {other : Task} {here there : Section}
    (first : (system.stage task).position = some here)
    (second : (system.stage other).position = some there) : other = task := by
  have one := (sound.lock task).mp (by rw [first]; rfl)
  have two := (sound.lock other).mp (by rw [second]; rfl)
  exact Option.some.inj (two.symm.trans one)

theorem exists_of_held {here : Section} (held : (system.stage task).position = some here) :
    system.queue.deleted = false := by
  by_contra deleted
  exact sound.nowhere (sound.live (by simpa using deleted)) held

section

variable (held : (system.stage task).position = some place)

include held

theorem owner : system.lock = some task :=
  (sound.lock task).mp (by rw [held]; rfl)

theorem alone (other : Task) (elsewhere : other ≠ task) : (system.stage other).position = none := by
  by_contra inside
  obtain ⟨there, at_⟩ := Option.ne_none_iff_exists'.mp inside
  exact elsewhere (sound.holder_unique held at_)

/-- Only the holder of the lock sets a slot to `NULL`. -/
theorem waker (waits : (system.stage receiver).waiting = true)
    (isNull : system.slot receiver = .null) :
    ∃ awake value there, system.stage task = .waking awake receiver value there := by
  obtain ⟨other, awake, value, there, was⟩ := sound.null receiver waits isNull
  have same := sound.holder_unique held (congrArg Stage.position was)
  exact ⟨awake, value, there, same ▸ was⟩

/-- Only the holder that removes the queue expels receivers while it exists. -/
theorem dying (inside : receiver ∈ system.queue.qReceivers)
    (eidrm : system.slot receiver = .error .eidrm) : ∃ left, place = .expunge .eidrm left := by
  cases sound.expelled receiver inside eidrm with
  | inl deleted =>
    rw [sound.exists_of_held held] at deleted
    cases deleted
  | inr dying =>
    obtain ⟨other, left, there⟩ := dying
    rw [sound.holder_unique held there, held] at there
    exact ⟨left, Option.some.inj there⟩

end

/-- The sleeping senders sleep on while another task goes on. -/
theorem senders_stay (off : task ∉ system.queue.qSenders)
    (same : after.queue.qSenders = system.queue.qSenders)
    (stages : ∀ other, after.stage other = if other = task then stage else system.stage other) :
    ∀ sender ∈ after.queue.qSenders, ∃ call, after.stage sender = .sendAsleep call := by
  intro sender inside
  rw [same] at inside
  have elsewhere : sender ≠ task := fun here => off (here ▸ inside)
  rw [stages, if_neg elsewhere]
  exact sound.senders sender inside

/-- While the holder is between two receivers no slot of a waiting receiver is `NULL`. -/
theorem not_null_of_locked (held : system.stage task = .locked place)
    (waiting : (system.stage receiver).waiting = true) : system.slot receiver ≠ .null := by
  intro isNull
  obtain ⟨awake, value, there, wakes⟩ := sound.waker (congrArg Stage.position held) waiting isNull
  rw [held] at wakes
  cases wakes

theorem release (held : system.stage task = .locked place)
    (stages : after.stage = update system.stage task stage) (frame : after.frame = system.frame)
    (lock : after.lock = none) (receivers : after.queue.qReceivers = system.queue.qReceivers)
    (deleted : after.queue.deleted = true ↔ ∃ left, place = .expunge .eidrm left)
    (done : place.left = []) (outside : stage.position = none) (notWaiting : stage.waiting = false)
    (senders : after.queue.qSenders = if after.queue.deleted then [] else system.queue.qSenders) :
    Disciplined after := by
  have slots : after.slot = system.slot := by
    funext receiver
    unfold System.slot
    rw [frame]
  have position := congrArg Stage.position held
  have nowhere : ∀ other, (after.stage other).position = none := by
    intro other
    rw [stages, update_apply]
    split
    · exact outside
    · rename_i elsewhere
      exact sound.alone position other elsewhere
  have stageOf : ∀ other, (system.stage other).waiting = true →
      (after.stage other).waiting = true := by
    intro other waits
    rw [stages, update_of_ne (waiter_ne position waits)]
    exact waits
  have waits : ∀ receiver, (after.stage receiver).waiting = true →
      (system.stage receiver).waiting = true := fun receiver waiting =>
    waited notWaiting (fun other => by rw [stages, update_apply]) waiting
  apply Disciplined.unlocked ?_ ?_ ?_ ?_ ?_ nowhere lock
  · rw [receivers, slots]
    exact fun receiver inside eidrm => deleted.mpr (sound.dying position inside eidrm)
  · rw [slots]
    exact fun receiver waiting => sound.not_null_of_locked held (waits receiver waiting)
  · intro isDeleted receiver inside
    rw [receivers] at inside
    rw [slots]
    obtain ⟨left, isExpunge⟩ := deleted.mp isDeleted
    rw [isExpunge] at position done
    have none : receiver ∉ left := by
      rw [show left = [] from done]
      exact not_mem_nil
    refine (sound.expelling task left position receiver inside none).resolve_right fun isNull => ?_
    cases sound.listed receiver inside with
    | inl eidrm => rw [eidrm] at isNull; exact Slot.noConfusion isNull
    | inr waits => exact sound.not_null_of_locked held waits.1 isNull
  · intro isDeleted
    rw [senders, if_pos isDeleted]
  · rw [receivers]
    exact sound.distinct
  · rw [receivers, slots]
    exact fun receiver inside => (sound.listed receiver inside).imp_right fun waits =>
      ⟨stageOf receiver waits.1, waits.2⟩
  · rw [slots, receivers]
    exact fun receiver waiting => sound.again receiver (waits receiver waiting)
  · intro other inside
    rw [senders] at inside
    have older : other ∈ system.queue.qSenders := by
      split at inside
      · cases inside
      · exact inside
    obtain ⟨call, asleep⟩ := sound.senders other older
    have elsewhere : other ≠ task := by
      intro same
      rw [same, held] at asleep
      cases asleep
    exact ⟨call, by rw [stages, update_of_ne elsewhere, asleep]⟩
  · rw [senders]
    split
    · exact nodup_nil
    · exact sound.sendersDistinct

/-- `ss_del`: the sender is where it was before it went to sleep. -/
theorem unlinkSender {call : SendCall} (asleep : system.stage task = .sendAsleep call) :
    Disciplined ({ system with
      queue := { system.queue with qSenders := system.queue.qSenders.erase task } }.setStage task
        (.sendEnter call)) := by
  have unlinked : Disciplined { system with
      queue := { system.queue with qSenders := system.queue.qSenders.erase task } } :=
    { sound with
      emptied := fun deleted => by
        have none := sound.emptied deleted
        rw [none]
        rfl
      senders := fun other inside => sound.senders other (mem_of_mem_erase inside)
      sendersDistinct := sound.sendersDistinct.erase task }
  have notWaiting : (system.stage task).waiting = false := by rw [asleep]; rfl
  refine unlinked.setStage (by change (system.stage task).position = none; rw [asleep]; rfl) rfl
    (Bool.noConfusion) (fun _ => sound.listed_idle notWaiting)
    (fun _ waits => ?_) (fun inside => ?_)
  · rw [show (system.stage task).waiting = true from waits] at notWaiting
    cases notWaiting
  · exact absurd rfl (sound.sendersDistinct.mem_erase_iff.mp inside).1

/-- With the lock free a task puts itself on `q_receivers` or takes itself off. -/
theorem relist (free : system.lock = none) (lock : after.lock = none)
    (stages : ∀ other, after.stage other = if other = task then stage else system.stage other)
    (slots : ∀ other, other ≠ task → after.slot other = system.slot other)
    (deleted : after.queue.deleted = system.queue.deleted)
    (senders : after.queue.qSenders = system.queue.qSenders) (off : task ∉ system.queue.qSenders)
    (others : ∀ other, other ≠ task →
      (other ∈ after.queue.qReceivers ↔ other ∈ system.queue.qReceivers))
    (distinct : after.queue.qReceivers.Nodup) (outside : stage.position = none)
    (waits : stage.waiting = true → task ∈ after.queue.qReceivers)
    (listed : task ∈ after.queue.qReceivers →
      stage.waiting = true ∧ after.slot task = .error .eagain ∧ system.queue.deleted = false) :
    Disciplined after := by
  refine .unlocked distinct (fun receiver inside => ?_) (fun receiver waiting eagain => ?_)
    (sound.senders_stay off senders stages) (senders ▸ sound.sendersDistinct) (fun other => ?_) lock
    (fun receiver inside eidrm => ?_) (fun receiver waiting isNull => ?_)
    (fun gone receiver inside => ?_) (fun gone => ?_)
  · rw [stages]
    by_cases here : receiver = task
    · obtain ⟨waiting, again, _⟩ := listed (here ▸ inside)
      rw [if_pos here, here]
      exact .inr ⟨waiting, .inl again⟩
    · rw [slots receiver here, if_neg here]
      exact sound.listed receiver ((others receiver here).mp inside)
  · rw [stages] at waiting
    split at waiting
    · rename_i here
      exact here ▸ waits waiting
    · rename_i here
      rw [slots receiver here] at eagain
      exact (others receiver here).mpr (sound.again receiver waiting eagain)
  · rw [stages]
    split
    · exact outside
    · exact sound.position_none free other
  · by_cases here : receiver = task
    · rw [here, (listed (here ▸ inside)).2.1] at eidrm
      cases eidrm
    · rw [slots receiver here] at eidrm
      exact deleted.trans ((sound.expelled receiver ((others receiver here).mp inside)
        eidrm).resolve_right fun ⟨_, _, there⟩ => sound.nowhere free there)
  · rw [stages] at waiting
    split at waiting
    · rename_i here
      rw [here, (listed (waits waiting)).2.1] at isNull
      cases isNull
    · rename_i here
      rw [slots receiver here] at isNull
      exact sound.not_null free waiting isNull
  · rw [deleted] at gone
    by_cases here : receiver = task
    · rw [(listed (here ▸ inside)).2.2] at gone
      cases gone
    · rw [slots receiver here]
      exact sound.gone gone receiver ((others receiver here).mp inside)
  · rw [senders]
    exact sound.emptied (deleted ▸ gone)

/-- Only a task asleep in `sys_msgsnd` is on `q_senders`. -/
theorem off_senders {old : Stage} (was : system.stage task = old)
    (awake : ∀ call, old ≠ .sendAsleep call) : task ∉ system.queue.qSenders := by
  intro inside
  obtain ⟨call, asleep⟩ := sound.senders task inside
  exact awake call (was ▸ asleep)

/-- A receiver takes itself off the list, and is where it was before it went to sleep. -/
theorem unlinkReceiver (free : system.lock = none) {call : RecvCall}
    (relock : system.stage task = .recvRelock call) :
    Disciplined ({ system with
      queue := { system.queue with qReceivers := system.queue.qReceivers.erase task } }.setStage
        task (.recvEnter call)) := by
  refine sound.relist free free (fun _ => setStage_stage) (fun _ _ => rfl) rfl rfl
    (sound.off_senders relock nofun) (fun other elsewhere => ?_) (sound.distinct.erase task) rfl
    nofun (fun inside => ?_)
  · exact sound.distinct.mem_erase_iff.trans (and_iff_right elsewhere)
  · exact absurd rfl (sound.distinct.mem_erase_iff.mp inside).1

theorem sleepSender (call : SendCall) (exists_ : system.queue.deleted = false)
    (before : (system.stage task).position = none)
    (notWaiting : (system.stage task).waiting = false) (off : task ∉ system.queue.qSenders) :
    Disciplined ({ system with
      queue := { system.queue with qSenders := system.queue.qSenders ++ [task] }
      running := update system.running task false }.setStage task
        (.sendAsleep call)) := by
  have moved : Disciplined (system.setStage task (.sendAsleep call)) := by
    refine sound.setStage before rfl (Bool.noConfusion)
      (fun _ => sound.listed_idle notWaiting) (fun _ waits => ?_) (fun _ => ⟨call, rfl⟩)
    rw [notWaiting] at waits
    cases waits
  refine
    { moved with
      emptied := fun deleted => ?_
      senders := forall_mem_append.mpr
        ⟨moved.senders, forall_mem_singleton.mpr ⟨call, setStage_self⟩⟩
      sendersDistinct := ?_ }
  · rw [show system.queue.deleted = true from deleted] at exists_
    cases exists_
  · exact nodup_append_comm.mpr (nodup_cons.mpr ⟨off, sound.sendersDistinct⟩)

section

variable (free : system.lock = none) (exists_ : system.queue.deleted = false)

include free exists_

/-- No receiver has been expelled as long as the queue exists and the lock is free. -/
theorem not_expelled (inside : receiver ∈ system.queue.qReceivers) :
    system.slot receiver ≠ .error .eidrm := by
  intro eidrm
  have deleted := (sound.expelled receiver inside eidrm).resolve_right
    fun ⟨_, _, there⟩ => sound.nowhere free there
  rw [exists_] at deleted
  cases deleted

/-- The task takes the free lock and starts a walk over the receivers. -/
theorem acquire (qQbytes : Nat) (all : place.left = system.queue.qReceivers)
    (proper : ∀ res left, place = .expunge res left → res ≠ .e2big)
    (notWaiting : (system.stage task).waiting = false) (off : task ∉ system.queue.qSenders) :
    Disciplined ({ system with
      queue := { system.queue with qQbytes := qQbytes }
      lock := some task }.setStage task (.locked place)) := by
  apply Disciplined.heldBy ?_ ?_ ?_ ?_ ?_ (congrArg Stage.position setStage_self)
  · intro other elsewhere
    rw [setStage_of_ne elsewhere]
    exact sound.position_none free other
  · rfl
  · exact exists_
  · exact fun receiver inside eidrm => absurd eidrm (sound.not_expelled free exists_ inside)
  · exact all ▸ List.Sublist.refl _
  · intro res left is
    refine ⟨proper res left is, fun receiver inside => ?_⟩
    rw [is] at all
    have inReceivers : receiver ∈ system.queue.qReceivers := all ▸ inside
    exact sound.not_expelled free exists_ inReceivers
  · intro awake receiver value there at_
    rw [setStage_self] at at_
    cases at_
  · intro receiver waiting isNull
    exact absurd isNull (sound.not_null free (waited rfl (fun _ => setStage_stage) waiting))
  · intro left is receiver inside past
    rw [is] at all
    have inLeft : receiver ∈ (Section.expunge .eidrm left).left := all ▸ inside
    exact absurd inLeft past
  · exact sound.distinct
  · intro receiver inside
    rw [setStage_stage]
    split
    · rename_i here
      subst here
      exact .inl (sound.listed_idle notWaiting inside)
    · exact sound.listed receiver inside
  · intro receiver waiting
    exact sound.again receiver (waited rfl (fun _ => setStage_stage) waiting)
  · exact sound.senders_stay off rfl fun _ => setStage_stage
  · exact sound.sendersDistinct

/-- A receiver goes to sleep at the end of `q_receivers`. -/
theorem sleepReceiver (call : RecvCall) (msr : Receiver) (again : msr.rMsg = .error .eagain)
    (off : task ∉ system.queue.qReceivers) (notSender : task ∉ system.queue.qSenders) :
    Disciplined ({ system with
      queue := { system.queue with qReceivers := system.queue.qReceivers ++ [task] }
      frame := update system.frame task msr
      running := update system.running task false }.setStage task
        (.recvAsleep call)) := by
  refine sound.relist free free (fun _ => setStage_stage) (fun other elsewhere => ?_) rfl rfl
    notSender (fun other elsewhere => ?_) ?_ rfl (fun _ => mem_append_right _ (by simp))
    (fun _ => ⟨rfl, ?_, exists_⟩)
  · exact congrArg Receiver.rMsg (update_of_ne elsewhere _ system.frame)
  · exact mem_append.trans (or_iff_left (by simpa using elsewhere))
  · exact nodup_append_comm.mpr (nodup_cons.mpr ⟨off, sound.distinct⟩)
  · exact (congrArg Receiver.rMsg (update_self task msr system.frame)).trans again

end

/-- The holder of the lock is no sleeping sender. -/
theorem holder_off (held : (system.stage task).position = some place) :
    task ∉ system.queue.qSenders := by
  intro inside
  obtain ⟨call, asleep⟩ := sound.senders task inside
  rw [asleep] at held
  cases held

variable {place' : Section}

/-- The receiver a walk comes to next is waiting for a message. -/
theorem next_waits (held : system.stage task = .locked place) (next : receiver ∈ place.left) :
    (system.stage receiver).waiting = true ∧ system.slot receiver = .error .eagain := by
  have position := congrArg Stage.position held
  have inside := (sound.left task place position).subset next
  have alive : system.slot receiver ≠ .error .eidrm := by
    intro eidrm
    obtain ⟨left, rfl⟩ := sound.dying position inside eidrm
    exact (sound.expunge task .eidrm left position).2 receiver next eidrm
  obtain ⟨waits, slot⟩ := (sound.listed receiver inside).resolve_left alive
  exact ⟨waits, slot.resolve_right (sound.not_null_of_locked held waits)⟩

section

variable {receivers : List Task} (fewer : receivers.Sublist system.queue.qReceivers)
  (kept : ∀ other ∈ system.queue.qReceivers, other ≠ receiver → other ∈ receivers)

include fewer kept

/-- The holder writes the slot of one waiting receiver and may take it off the list. -/
theorem setWaiter {slot : Slot} (held : (system.stage task).position = some place)
    (waits : (system.stage receiver).waiting = true)
    (stages : ∀ other, after.stage other = if other = task then stage else system.stage other)
    (slots : ∀ other, after.slot other = if other = receiver then slot else system.slot other)
    (queue : after.queue = { system.queue with qReceivers := receivers })
    (lock : after.lock = system.lock) (now : stage.position = some place')
    (left : place'.left.Sublist receivers) (past : receiver ∉ place'.left)
    (was : ∀ res left, place' = .expunge res left → ∃ older, place = .expunge res older ∧
      ∀ other, other ≠ receiver → (other ∈ older ↔ other ∈ left))
    (stays : ∀ res left, place = .expunge res left → ∃ left', place' = .expunge res left')
    (woken : ∀ awake other value there, system.stage task = .waking awake other value there →
      other = receiver)
    (wakes : ∀ awake other value there, stage = .waking awake other value there →
      other = receiver ∧ slot = .null ∧ there = place' ∧ Wakes receivers receiver value there)
    (null : slot = .null → ∃ awake value there, stage = .waking awake receiver value there)
    (self : receiver ∈ receivers → slot = .error .eidrm ∧ (∃ left, place' = .expunge .eidrm left) ∨
      slot = .error .eagain ∨ slot = .null) (again : slot = .error .eagain → receiver ∈ receivers)
    (expelling : ∀ left, place' = .expunge .eidrm left → slot = .error .eidrm ∨ slot = .null) :
    Disciplined after := by
  have apart := waiter_ne held waits
  have stops := waiting_of_position now
  have here : after.stage task = stage := by rw [stages, if_pos rfl]
  apply Disciplined.heldBy ?_ ?_ ?_ ?_ ?_ ((congrArg Stage.position here).trans now)
  · intro other elsewhere
    rw [stages, if_neg elsewhere]
    exact sound.alone held other elsewhere
  · rw [lock]
    exact sound.owner held
  · rw [queue]
    exact sound.exists_of_held held
  · intro other inside eidrm
    rw [queue] at inside
    rw [slots] at eidrm
    split at eidrm
    · rename_i same
      rw [eidrm] at self
      exact ((self (same ▸ inside)).resolve_right (by simp)).2
    · obtain ⟨older, is⟩ := sound.dying held (fewer.subset inside) eidrm
      exact stays .eidrm older is
  · rw [queue]
    exact left
  · intro res newer is
    obtain ⟨older, before, others⟩ := was res newer is
    have expunge := sound.expunge task res older (before ▸ held)
    rw [is] at past
    refine ⟨expunge.1, fun other inside => ?_⟩
    have elsewhere : other ≠ receiver := fun same => past (same ▸ inside)
    rw [slots, if_neg elsewhere]
    exact expunge.2 other ((others other elsewhere).mpr inside)
  · intro awake other value there at_
    obtain ⟨rfl, isNull, rfl, wake⟩ := wakes awake other value there (here ▸ at_)
    rw [stages, if_neg apart, slots, if_pos rfl, queue]
    exact ⟨waits, isNull, past, wake⟩
  · intro other waiting isNull
    rw [here]
    rw [slots] at isNull
    split at isNull
    · rename_i same
      exact same ▸ null isNull
    · rename_i elsewhere
      obtain ⟨awake, value, there, at_⟩ :=
        sound.waker held (waited stops stages waiting) isNull
      exact absurd (woken awake other value there at_) elsewhere
  · intro newer is other inside missing
    rw [queue] at inside
    obtain ⟨older, before, others⟩ := was .eidrm newer is
    rw [slots]
    split
    · exact expelling newer is
    · rename_i elsewhere
      exact sound.expelling task older (before ▸ held) other (fewer.subset inside)
        fun back => missing ((others other elsewhere).mp back)
  · rw [queue]
    exact fewer.nodup sound.distinct
  · intro other inside
    rw [queue] at inside
    rw [slots]
    split
    · rename_i same
      rw [same, stages, if_neg apart]
      exact (self (same ▸ inside)).imp And.left fun slot => ⟨waits, slot⟩
    · refine (sound.listed other (fewer.subset inside)).imp_right fun listed => ?_
      rw [stages, if_neg (waiter_ne held listed.1)]
      exact listed
  · intro other waiting eagain
    rw [queue]
    rw [slots] at eagain
    split at eagain
    · rename_i same
      exact same ▸ again eagain
    · rename_i elsewhere
      exact kept other (sound.again other (waited stops stages waiting) eagain) elsewhere
  · exact sound.senders_stay (sound.holder_off held) (by rw [queue]) stages
  · rw [queue]
    exact sound.sendersDistinct

/-- The holder takes a receiver, perhaps off the list, and sets its slot to `NULL`. -/
theorem startWaking {value : Slot} (held : system.stage task = .locked place)
    (next : receiver ∈ place.left) (left : place'.left.Sublist receivers)
    (past : receiver ∉ place'.left)
    (was : ∀ res left, place' = .expunge res left → place = .expunge res (receiver :: left))
    (stays : ∀ res left, place = .expunge res left → ∃ left', place' = .expunge res left')
    (wakes : Wakes receivers receiver value place') :
    Disciplined (({ system with
      queue := { system.queue with qReceivers := receivers } }.setSlot receiver .null).setStage
        task (.waking false receiver value place')) := by
  refine sound.setWaiter fewer kept (congrArg Stage.position held) (sound.next_waits held next).1
    (fun _ => setStage_stage) (fun _ => setSlot_slot) rfl rfl rfl left past
    (fun res newer is => ⟨_, was res newer is, fun other elsewhere => by simp [elsewhere]⟩) stays
    ?_ ?_ ?_ ?_ ?_ ?_
  · intro awake other value there at_
    rw [held] at at_
    cases at_
  · intro awake other value there at_
    obtain ⟨rfl, rfl, rfl, rfl⟩ := Stage.waking.inj at_
    exact ⟨rfl, rfl, rfl, wakes⟩
  · exact fun _ => ⟨_, _, _, rfl⟩
  · exact fun _ => .inr (.inr rfl)
  · exact nofun
  · exact fun _ _ => .inr rfl

end

end

/-- The holder writes the slot of the receiver it has woken. -/
theorem finishWaking (sound : Disciplined system) {value : Slot}
    (held : system.stage task = .waking true receiver value place) :
    Disciplined ((system.setSlot receiver value).setStage task (.locked place)) := by
  have position := congrArg Stage.position held
  obtain ⟨waits, isNull, past, wakes⟩ := sound.waking _ _ _ _ _ held
  refine sound.setWaiter (List.Sublist.refl _) (fun _ inside _ => inside) position waits
    (fun _ => setStage_stage) (fun _ => setSlot_slot) rfl rfl rfl (sound.left task place position)
    past (fun res left is => ⟨left, is, fun _ _ => Iff.rfl⟩) (fun res left is => ⟨left, is⟩)
    ?_ nofun ?_ ?_ ?_ ?_
  · intro awake other slot there at_
    rw [held] at at_
    exact (Stage.waking.inj at_).2.1.symm
  · cases wakes <;> exact nofun
  · intro inside
    cases wakes with
    | hand msg off | tooBig msg left off => exact absurd inside off
    | expunge res left on =>
      cases res with
      | eagain => exact .inr (.inl rfl)
      | e2big => exact absurd rfl (sound.expunge task .e2big left position).1
      | eidrm => exact .inl ⟨rfl, left, rfl⟩
  · intro eagain
    cases wakes with
    | hand msg off | tooBig msg left off => cases eagain
    | expunge res left on => exact on
  · intro left is
    subst is
    cases wakes with
    | expunge res left on => exact .inl rfl

end Disciplined

end MagxKernel.SysvMsg
