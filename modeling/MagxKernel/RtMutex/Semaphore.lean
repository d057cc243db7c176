import Mathlib.Data.List.Nodup
import MagxKernel.Lib.MachineInt
import MagxKernel.Lib.Runs

namespace MagxKernel.RtSemaphore

open Function List Option
open MachineInt (s32 s32_of_range)

/-- Names a `struct task_struct`. -/
abbrev Task := Nat

/-- `struct semaphore`: an atomic counter and the mutex that blocks. Of the mutex
only the owner and the tasks that sleep in `__down` matter here. -/
structure Semaphore where
  count : Int
  owner : Option Task
  waitList : List Task

/-- What a task does next on the semaphore. -/
inductive Phase where
  /-- outside `rt_down`, `rt_down_trylock` and `rt_up` -/
  | idle
  /-- asleep in `__down` -/
  | blocked
  /-- in `__down_complete`, before the atomic decrement -/
  | acquired
  /-- in `__down_complete`, before `__up_mutex` -/
  | releasing
  /-- in `rt_up`, before `__up_mutex` -/
  | unlocking
deriving DecidableEq

/-- The semaphore, the point each task has reached, and how many operations
returned from a `down` or began an `up`. -/
structure System where
  sem : Semaphore
  phase : Task → Phase
  completedDowns : Nat
  startedUps : Nat

/-- `__sema_init` in the task `current`: with no unit left the mutex is taken. -/
def semaInit (val : Int) (current : Task) : Semaphore :=
  ⟨val, if val = 0 then some current else none, []⟩

def initial (val : Int) (current : Task) : System :=
  ⟨semaInit val current, fun _ => .idle, 0, 0⟩

namespace System

def setPhase (system : System) (task : Task) (phase : Phase) : System :=
  { system with phase := Function.update system.phase task phase }

/-- `__down` gives a free mutex to the task and puts it to sleep on a taken one. -/
def down (system : System) (task : Task) : System :=
  match system.sem.owner with
  | none =>
      { system with sem := { system.sem with owner := some task } }.setPhase task .acquired
  | some _ =>
      { system with sem := { system.sem with waitList := system.sem.waitList ++ [task] } }.setPhase
        task .blocked

def downTrylock (system : System) (task : Task) : System :=
  match system.sem.owner with
  | none =>
      { system with sem := { system.sem with owner := some task } }.setPhase task .acquired
  | some _ => system

/-- The first half of `__down_complete`. -/
def atomicDec (system : System) (task : Task) : System :=
  let count := s32 (system.sem.count - 1)
  let counted := { system with sem := { system.sem with count := count } }
  if 0 < count then counted.setPhase task .releasing
  else { counted with completedDowns := system.completedDowns + 1 }.setPhase task .idle

/-- The first half of `rt_up`. -/
def atomicInc (system : System) (task : Task) : System :=
  let count := s32 (system.sem.count + 1)
  let counted := { system with
    sem := { system.sem with count := count }, startedUps := system.startedUps + 1 }
  if count = 1 then counted.setPhase task .unlocking else counted

/-- `__up_mutex` hands the mutex to one of the sleepers; which one depends on the
priorities. Without an owner it would follow a null pointer. -/
def upMutex (system : System) (chosen : Option Task) : Option System :=
  match system.sem.owner, chosen with
  | none, _ => none
  | some _, none =>
      if system.sem.waitList = [] then
        some { system with sem := { system.sem with owner := none } }
      else none
  | some _, some waiter =>
      if waiter ∈ system.sem.waitList then
        some ({ system with
          sem := { system.sem with
            owner := some waiter
            waitList := system.sem.waitList.erase waiter } }.setPhase waiter .acquired)
      else none

end System

inductive Op where
  | down (task : Task)
  | downTrylock (task : Task)
  | atomicDec (task : Task)
  | atomicInc (task : Task)
  | upMutex (task : Task) (chosen : Option Task)
deriving DecidableEq

/-- One atomic step of a task that has reached it. -/
def step (system : System) : Op → Option System
  | .down task => if system.phase task = .idle then some (system.down task) else none
  | .downTrylock task =>
      if system.phase task = .idle then some (system.downTrylock task) else none
  | .atomicDec task =>
      if system.phase task = .acquired then some (system.atomicDec task) else none
  | .atomicInc task => if system.phase task = .idle then some (system.atomicInc task) else none
  | .upMutex task chosen =>
      match system.phase task with
      | .releasing =>
          { system with completedDowns := system.completedDowns + 1 }.setPhase task .idle
            |>.upMutex chosen
      | .unlocking => (system.setPhase task .idle).upMutex chosen
      | .idle | .blocked | .acquired => none

/-- The task is not between two atomic steps of an operation. -/
def Quiet (phase : Phase) : Prop := phase = .idle ∨ phase = .blocked

/-- Who may touch the counter and the mutex. At most one task is between two steps,
and without one the mutex is free exactly when units are left. -/
inductive Stage (val : Int) (system : System) : Prop
  | free (owner : system.sem.owner = none) (empty : system.sem.waitList = [])
      (quiet : ∀ task, Quiet (system.phase task)) (left : 1 ≤ system.sem.count)
      (balance : system.sem.count = val + system.startedUps - system.completedDowns)
  | acquired (holder : Task) (owner : system.sem.owner = some holder)
      (phase : system.phase holder = .acquired)
      (quiet : ∀ task, task ≠ holder → Quiet (system.phase task)) (left : 1 ≤ system.sem.count)
      (balance : system.sem.count = val + system.startedUps - system.completedDowns)
  | releasing (holder : Task) (owner : system.sem.owner ≠ none)
      (phase : system.phase holder = .releasing)
      (quiet : ∀ task, task ≠ holder → Quiet (system.phase task)) (left : 1 ≤ system.sem.count)
      (balance : system.sem.count = val + system.startedUps - (system.completedDowns + 1))
  | unlocking (waker : Task) (owner : system.sem.owner ≠ none)
      (phase : system.phase waker = .unlocking)
      (quiet : ∀ task, task ≠ waker → Quiet (system.phase task)) (left : 1 ≤ system.sem.count)
      (balance : system.sem.count = val + system.startedUps - system.completedDowns)
  | taken (owner : system.sem.owner ≠ none) (quiet : ∀ task, Quiet (system.phase task))
      (none_ : system.sem.count = 0)
      (balance : system.sem.count = val + system.startedUps - system.completedDowns)

structure Sound (val : Int) (system : System) : Prop where
  stage : Stage val system
  waits : ∀ task ∈ system.sem.waitList, system.phase task = .blocked
  nodup : system.sem.waitList.Nodup
  bounded : system.sem.count < 2 ^ 31

/-- No up starts while the counter has the largest `int`. -/
def HasRoom (system : System) : Op → Prop
  | .atomicInc _ => system.sem.count + 1 < 2 ^ 31
  | .down _ | .downTrylock _ | .atomicDec _ | .upMutex _ _ => True

instance (system : System) : (op : Op) → Decidable (HasRoom system op)
  | .atomicInc _ => inferInstanceAs (Decidable (_ < _))
  | .down _ | .downTrylock _ | .atomicDec _ | .upMutex _ _ => inferInstanceAs (Decidable True)

section Phases

variable {phases : Task → Phase} {holder : Task}

/-- Only the sleepers are in the queue, so other tasks change nothing for it. -/
theorem waits_update {waitList : List Task} (task : Task) (phase : Phase)
    (waits : ∀ waiter ∈ waitList, phases waiter = .blocked) (awake : phases task ≠ .blocked)
    (waiter : Task) (member : waiter ∈ waitList) :
    update phases task phase waiter = .blocked := by
  have apart : waiter ≠ task := by
    rintro rfl
    exact awake (waits waiter member)
  rw [update_of_ne apart]
  exact waits waiter member

section

variable (quiet : ∀ other, other ≠ holder → Quiet (phases other))

include quiet

theorem quiet_other (task : Task) (phase : Phase) (calm : Quiet phase) (other : Task)
    (away : other ≠ holder) : Quiet (update phases task phase other) :=
  (forall_update_iff phases fun other phase => other ≠ holder → Quiet phase).mpr
    ⟨fun _ => calm, fun other _ => quiet other⟩ other away

theorem quiet_holder (phase : Phase) (other : Task) (away : other ≠ holder) :
    Quiet (update phases holder phase other) := by
  rw [update_of_ne away]
  exact quiet other away

theorem quiet_rest (phase : Phase) (calm : Quiet phase) (other : Task) :
    Quiet (update phases holder phase other) :=
  (forall_update_iff phases fun _ => Quiet).mpr ⟨calm, quiet⟩ other

theorem holder_of_busy {task : Task} (busy : ¬Quiet (phases task)) : task = holder :=
  not_not.mp fun away => busy (quiet task away)

end

end Phases

section Steps

variable {val : Int} {system : System} {task : Task}

/-- The task between two steps is the only one, and a unit is left. -/
theorem Stage.of_busy (stage : Stage val system) {reached : Phase}
    (here : system.phase task = reached) (busy : ¬Quiet reached) :
    (∀ other, other ≠ task → Quiet (system.phase other)) ∧ system.sem.owner ≠ none ∧
      1 ≤ system.sem.count ∧ system.sem.count = val + system.startedUps -
        (system.completedDowns + if reached = .releasing then 1 else 0) := by
  subst here
  cases stage with
  | free _ _ quiet | taken _ quiet => exact absurd (quiet task) busy
  | acquired holder owner phase quiet left balance =>
    obtain rfl := holder_of_busy quiet busy
    exact ⟨quiet, by simp [owner], left, by simpa [phase] using balance⟩
  | releasing holder owner phase quiet left balance
  | unlocking waker owner phase quiet left balance =>
    obtain rfl := holder_of_busy quiet busy
    exact ⟨quiet, owner, left, by simpa [phase] using balance⟩

section

variable (sound : Sound val system) (idle : system.phase task = .idle)

include sound idle

theorem grant_sound (free : system.sem.owner = none) :
    Sound val
      ({ system with sem := { system.sem with owner := some task } }.setPhase task .acquired) := by
  cases sound.stage with
  | free _ empty quiet left balance =>
    refine ⟨.acquired task rfl (update_self _ _ _) ?_ left balance, ?_, sound.nodup,
      sound.bounded⟩
    · exact quiet_holder (fun other _ => quiet other) .acquired
    · exact waits_update task _ sound.waits (by simp [idle])
  | acquired _ owner => rw [free] at owner; cases owner
  | releasing _ owner | unlocking _ owner | taken owner => exact absurd free owner

theorem down_sound : Sound val (system.down task) := by
  rw [System.down]
  split
  next free => exact grant_sound sound idle free
  next owner held =>
    have calm : Quiet .blocked := .inr rfl
    have apart : ∀ holder, ¬Quiet (system.phase holder) → holder ≠ task := by
      rintro holder busy rfl
      exact busy (.inl idle)
    refine ⟨?_, ?_, ?_, sound.bounded⟩
    · cases sound.stage with
      | free owner' => rw [held] at owner'; cases owner'
      | acquired holder owner' phase quiet left balance =>
        have away := apart holder (by simp [Quiet, phase])
        exact .acquired holder owner' ((update_of_ne away _ _).trans phase)
          (quiet_other quiet task _ calm) left balance
      | releasing holder owner' phase quiet left balance =>
        have away := apart holder (by simp [Quiet, phase])
        exact .releasing holder owner' ((update_of_ne away _ _).trans phase)
          (quiet_other quiet task _ calm) left balance
      | unlocking waker owner' phase quiet left balance =>
        have away := apart waker (by simp [Quiet, phase])
        exact .unlocking waker owner' ((update_of_ne away _ _).trans phase)
          (quiet_other quiet task _ calm) left balance
      | taken owner' quiet none_ balance =>
        exact .taken owner' (quiet_rest (fun other _ => quiet other) _ calm) none_ balance
    · exact forall_mem_append.mpr ⟨waits_update task _ sound.waits (by simp [idle]),
        forall_mem_singleton.mpr (update_self _ _ _)⟩
    · refine nodup_append_comm.mpr (nodup_cons.mpr ⟨fun old => ?_, sound.nodup⟩)
      rw [sound.waits task old] at idle
      cases idle

theorem downTrylock_sound : Sound val (system.downTrylock task) := by
  rw [System.downTrylock]
  split
  next free => exact grant_sound sound idle free
  next => exact sound

end

theorem atomicDec_sound (sound : Sound val system) (acquired : system.phase task = .acquired) :
    Sound val (system.atomicDec task) := by
  have bounded := sound.bounded
  have waits := fun phase => waits_update task phase sound.waits (by simp [acquired])
  obtain ⟨quiet, owned, left, balance⟩ := sound.stage.of_busy acquired (by simp [Quiet])
  rw [if_neg nofun] at balance
  have next : s32 (system.sem.count - 1) = system.sem.count - 1 :=
    s32_of_range _ (by omega) (by omega)
  have less : system.sem.count - 1 < 2 ^ 31 := by omega
  rw [System.atomicDec, next]
  split
  next more =>
    refine ⟨.releasing task owned (update_self _ _ _) (quiet_holder quiet _) ?_ ?_,
      waits _, sound.nodup, less⟩
    · change 1 ≤ system.sem.count - 1
      omega
    · change system.sem.count - 1 = val + system.startedUps - (system.completedDowns + 1)
      omega
  next last =>
    refine ⟨.taken owned (quiet_rest quiet _ (.inl rfl)) ?_ ?_, waits _, sound.nodup, less⟩
    · change system.sem.count - 1 = 0
      omega
    · change system.sem.count - 1 =
        val + system.startedUps - ((system.completedDowns + 1 : Nat) : Int)
      omega

theorem atomicInc_sound (sound : Sound val system) (idle : system.phase task = .idle)
    (room : system.sem.count + 1 < 2 ^ 31) : Sound val (system.atomicInc task) := by
  have counted : 0 ≤ system.sem.count := by
    cases sound.stage <;> omega
  have next : s32 (system.sem.count + 1) = system.sem.count + 1 :=
    s32_of_range _ (by omega) (by omega)
  have sum : ∀ downs : Int, system.sem.count = val + system.startedUps - downs →
      system.sem.count + 1 = val + ((system.startedUps + 1 : Nat) : Int) - downs := by
    intro downs balance
    omega
  rw [System.atomicInc, next]
  split
  next first =>
    -- nobody holds the mutex for a step: a holder would have left a unit to take
    cases sound.stage with
    | free | acquired | releasing | unlocking => omega
    | taken owner quiet none_ balance =>
      refine ⟨.unlocking task owner (update_self _ _ _)
        (quiet_holder (fun other _ => quiet other) _) ?_ (sum _ balance), ?_, sound.nodup, room⟩
      · change 1 ≤ system.sem.count + 1
        omega
      · exact waits_update task _ sound.waits (by simp [idle])
  next others =>
    have left : 1 ≤ system.sem.count + 1 := by omega
    refine ⟨?_, sound.waits, sound.nodup, room⟩
    cases sound.stage with
    | free owner empty quiet _ balance => exact .free owner empty quiet left (sum _ balance)
    | acquired holder owner phase quiet _ balance =>
      exact .acquired holder owner phase quiet left (sum _ balance)
    | releasing holder owner phase quiet _ balance =>
      exact .releasing holder owner phase quiet left (sum _ balance)
    | unlocking waker owner phase quiet _ balance =>
      exact .unlocking waker owner phase quiet left (sum _ balance)
    | taken _ _ none_ _ => omega

/-- A mutex with units left is handed on or becomes free. -/
theorem upMutex_sound (system next : System) (chosen : Option Task)
    (quiet : ∀ other, Quiet (system.phase other)) (left : 1 ≤ system.sem.count)
    (balance : system.sem.count = val + system.startedUps - system.completedDowns)
    (waits : ∀ waiter ∈ system.sem.waitList, system.phase waiter = .blocked)
    (nodup : system.sem.waitList.Nodup) (bounded : system.sem.count < 2 ^ 31)
    (stepped : system.upMutex chosen = some next) : Sound val next := by
  unfold System.upMutex at stepped
  split at stepped
  next => cases stepped
  next =>
    obtain ⟨empty, rfl⟩ := ite_some_none_eq_some.mp stepped
    exact ⟨.free rfl empty quiet left balance, waits, nodup, bounded⟩
  next waiter _ =>
    obtain ⟨member, rfl⟩ := ite_some_none_eq_some.mp stepped
    refine ⟨.acquired waiter rfl (update_self _ _ _)
      (quiet_holder (fun other _ => quiet other) _) left balance, ?_, nodup.erase waiter,
      bounded⟩
    intro other stays
    have apart : other ≠ waiter := (nodup.mem_erase_iff.mp stays).1
    exact (update_of_ne apart _ _).trans (waits other (mem_of_mem_erase stays))

variable (next : System)

theorem release_sound (chosen : Option Task) (sound : Sound val system)
    (stepped : step system (.upMutex task chosen) = some next) : Sound val next := by
  have calm : Quiet .idle := .inl rfl
  simp only [step] at stepped
  split at stepped
  next releasing =>
    have waits := waits_update task .idle sound.waits (by simp [releasing])
    obtain ⟨quiet, _, left, balance⟩ := sound.stage.of_busy releasing (by simp [Quiet])
    rw [if_pos rfl] at balance
    apply upMutex_sound
      ({ system with completedDowns := system.completedDowns + 1 }.setPhase task .idle) next
      chosen (quiet_rest quiet _ calm) left _ waits sound.nodup sound.bounded stepped
    change system.sem.count =
      val + system.startedUps - ((system.completedDowns + 1 : Nat) : Int)
    omega
  next unlocking =>
    have waits := waits_update task .idle sound.waits (by simp [unlocking])
    obtain ⟨quiet, _, left, balance⟩ := sound.stage.of_busy unlocking (by simp [Quiet])
    exact upMutex_sound (system.setPhase task .idle) next chosen (quiet_rest quiet _ calm) left
      balance waits sound.nodup sound.bounded stepped
  next => cases stepped
  next => cases stepped
  next => cases stepped

theorem step_sound (op : Op) (sound : Sound val system) (room : HasRoom system op)
    (stepped : step system op = some next) : Sound val next := by
  cases op with
  | down task =>
    obtain ⟨idle, rfl⟩ := ite_some_none_eq_some.mp stepped
    exact down_sound sound idle
  | downTrylock task =>
    obtain ⟨idle, rfl⟩ := ite_some_none_eq_some.mp stepped
    exact downTrylock_sound sound idle
  | atomicDec task =>
    obtain ⟨acquired, rfl⟩ := ite_some_none_eq_some.mp stepped
    exact atomicDec_sound sound acquired
  | atomicInc task =>
    obtain ⟨idle, rfl⟩ := ite_some_none_eq_some.mp stepped
    exact atomicInc_sound sound idle room
  | upMutex task chosen => exact release_sound next chosen sound stepped

end Steps

theorem initial_sound (val : Int) (current : Task) (positive : 0 ≤ val) (small : val < 2 ^ 31) :
    Sound val (initial val current) := by
  have quiet : ∀ task, Quiet ((initial val current).phase task) := fun _ => .inl rfl
  refine ⟨?_, forall_mem_nil _, nodup_nil, small⟩
  by_cases zero : val = 0
  · refine .taken ?_ quiet zero ?_
    · simp [initial, semaInit, zero]
    · simp [initial, semaInit]
  · refine .free ?_ rfl quiet ?_ ?_
    · simp [initial, semaInit, zero]
    · change 1 ≤ val
      omega
    · simp [initial, semaInit]

/-- As long as no up overflows the counter: no more downs are completed than there are
units, the counter is never negative, `__up_mutex` finds an owner, and between the
operations the mutex is taken exactly when no unit is left. -/
theorem semaphore_counts_units (val : Int) (current : Task) (positive : 0 ≤ val)
    (small : val < 2 ^ 31) (ops : List Op) (final : System)
    (room : Runs.Along step HasRoom (initial val current) ops)
    (executed : Runs.run step (initial val current) ops = some final) :
    final.completedDowns ≤ val + final.startedUps ∧ 0 ≤ final.sem.count ∧
      (∀ task, final.phase task = .releasing ∨ final.phase task = .unlocking →
        final.sem.owner ≠ none) ∧
      ((∀ task, final.phase task = .idle) → (final.sem.owner ≠ none ↔ final.sem.count = 0)) := by
  have sound : Sound val final :=
    Runs.run_invariant (fun _ op next before room stepped => step_sound next op before room stepped)
      ops _ final (initial_sound val current positive small) room executed
  have idle : ∀ task, ¬Quiet (final.phase task) → ¬∀ task, final.phase task = .idle :=
    fun task busy all => busy (.inl (all task))
  have none_busy : (∀ task, Quiet (final.phase task)) → ∀ task,
      ¬(final.phase task = .releasing ∨ final.phase task = .unlocking) := by
    intro quiet task busy
    rcases quiet task with calm | calm <;> simp [calm] at busy
  cases sound.stage with
  | free owner _ quiet left balance =>
    refine ⟨by omega, by omega, fun task busy => absurd busy (none_busy quiet task), fun _ => ?_⟩
    exact iff_of_false (not_not.mpr owner) (by omega)
  | acquired holder owner phase _ left balance =>
    refine ⟨by omega, by omega, fun _ _ => by simp [owner], fun all => ?_⟩
    exact absurd all (idle holder (by simp [Quiet, phase]))
  | releasing holder owner phase _ left balance | unlocking holder owner phase _ left balance =>
    refine ⟨by omega, by omega, fun _ _ => owner, fun all => ?_⟩
    exact absurd all (idle holder (by simp [Quiet, phase]))
  | taken owner quiet none_ balance =>
    exact ⟨by omega, by omega, fun _ _ => owner, fun _ => iff_of_true owner none_⟩

/-- A down on a semaphore without units sleeps until another task's up hands it the mutex. -/
theorem semaphore_counts_units_handover :
    ∃ final, Runs.run step (initial 0 9)
        [.down 1, .atomicInc 2, .upMutex 2 (some 1), .atomicDec 1] = some final ∧
      final.completedDowns = 1 ∧ final.startedUps = 1 ∧
      (final.completedDowns : Int) ≤ 0 + final.startedUps := by
  have downs : (Runs.run step (initial 0 9)
      [.down 1, .atomicInc 2, .upMutex 2 (some 1), .atomicDec 1]).map
        (fun state => (state.completedDowns, state.startedUps)) = some (1, 1) := by decide +kernel
  obtain ⟨final, executed, downs⟩ := map_eq_some_iff.mp downs
  rw [Prod.mk.injEq] at downs
  exact ⟨final, executed, downs.1, downs.2, (semaphore_counts_units 0 9 (Int.le_refl 0)
    (by decide) _ final (by decide +kernel) executed).1⟩

/-- One up on a semaphore with the largest `int` of units makes the counter negative. -/
theorem fullSemaphore_overflows :
    ∃ final, Runs.run step (initial (2 ^ 31 - 1) 0) [.atomicInc 1] = some final ∧
      ¬0 ≤ final.sem.count := by
  refine ⟨(initial (2 ^ 31 - 1) 0).atomicInc 1, rfl, ?_⟩
  decide +kernel

end MagxKernel.RtSemaphore
