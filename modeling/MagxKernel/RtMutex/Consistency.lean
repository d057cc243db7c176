import MagxKernel.Lib.WaitsFor
import MagxKernel.RtMutex.Links

namespace MagxKernel.RtMutex

open Runs List Function

namespace Op

/-- What callers promise: a task that runs makes the call, and a waiter is a variable
on its stack that no sleeping call uses. -/
def Valid (state : State) : Op → Prop
  | .down task _ waiter _ => Ready state task waiter
  | .downNoTime task _ => task ∉ state.frames.map Frame.task
  | .trylock task _ => task ∉ state.frames.map Frame.task
  | .up task _ => task ∉ state.frames.map Frame.task
  | .age _ prio => maxRtPrio ≤ prio ∧ prio < maxPrio
  | _ => True

/-- A signal or a timeout only finds waiters that have got the lock already. -/
def Patient (state : State) : Op → Prop
  | .signal task => ∀ frame ∈ frameOf state task, frame.patience ≠ .uninterruptible →
      state.task frame.waiter = none
  | .expire task => ∀ frame ∈ frameOf state task, frame.patience = .timed →
      state.task frame.waiter = none
  | _ => True

end Op

section Step

variable {state after : State}

theorem frameOf_eq_some {task : Nat} {frame : Frame} (found : frameOf state task = some frame) :
    frame ∈ state.frames ∧ frame.task = task :=
  ⟨mem_of_find?_eq_some found, by simpa using find?_some found⟩

section

variable (linked : Linked state) {frame : Frame} (member : frame ∈ state.frames)
  (granted : state.task frame.waiter = none)

include linked member granted

theorem Linked.returnFrom : Linked (returnFrom state frame.task) := by
  have other : ∀ p v, state.blockedOn p = some v → p ≠ frame.task := by
    rintro p v blocked rfl
    obtain ⟨own, inside, same, waits⟩ := linked.asleep _ v blocked
    have equal : own = frame := inj_on_of_nodup_map linked.frames inside member same
    have task := (linked.blocked _ v blocked).1
    rw [← waits, equal, granted] at task
    cases task
  refine { linked with asleep := ?_, frames := ?_ }
  · intro p v blocked
    obtain ⟨own, inside, same, waits⟩ := linked.asleep p v blocked
    refine ⟨own, mem_filter.mpr ⟨inside, ?_⟩, same, waits⟩
    rw [same]
    simpa using other p v blocked
  · exact linked.frames.sublist (List.Sublist.map _ filter_sublist)

theorem Linked.giveUp (called : giveUp state frame = some after) : Linked after := by
  unfold RtMutex.giveUp at called
  rw [granted] at called
  cases called
  exact linked.returnFrom member granted

end

theorem Linked.step (linked : Linked state) (op : Op) (valid : op.Valid state)
    (patient : op.Patient state) (stepped : step state op = some after) : Linked after := by
  cases op with
  | down task lock waiter patience => exact linked.down valid patience stepped
  | downNoTime task lock =>
    cases stepped
    exact linked.downTrylock
  | trylock task lock =>
    cases stepped
    exact linked.downTrylock
  | up task lock => exact linked.upMutex stepped
  | resume task =>
    rw [RtMutex.step] at stepped
    split at stepped
    · cases stepped
      exact linked
    rename_i frame found
    obtain ⟨member, rfl⟩ := frameOf_eq_some found
    split at stepped
    · rename_i granted
      cases stepped
      exact linked.returnFrom member granted
    · cases stepped
      exact linked
  | signal task =>
    rw [RtMutex.step] at stepped
    split at stepped
    · cases stepped
      exact linked
    rename_i frame found
    split at stepped
    · cases stepped
      exact linked
    · rename_i interruptible
      exact linked.giveUp (frameOf_eq_some found).1 (patient frame found interruptible) stepped
  | expire task =>
    rw [RtMutex.step] at stepped
    split at stepped
    · cases stepped
      exact linked
    rename_i frame found
    split at stepped
    · rename_i timed
      exact linked.giveUp (frameOf_eq_some found).1 (patient frame found timed) stepped
    · cases stepped
      exact linked
  | age task prio =>
    cases stepped
    exact { linked with }
  | refresh task =>
    cases stepped
    split
    · exact linked
    · exact linked.setPrio _ _

end Step

section Fuel

variable {state after : State} {prio p w lock o : Nat}

/-- How many sleeping calls the walk has not passed yet. -/
def State.pending (state : State) (prio : Nat) : Nat :=
  (state.frames.filter fun frame => prio < state.prio frame.task).length

theorem requeue_rest {rt : Bool} (moved : requeue state w lock o rt = some after) :
    after.prio = state.prio ∧ after.frames = state.frames := by
  unfold requeue unlinkPi at moved
  split at moved
  · split at moved <;> cases moved <;> exact ⟨rfl, rfl⟩
  split at moved
  · split at moved <;> cases moved <;> exact ⟨rfl, rfl⟩
  · cases moved
    exact ⟨rfl, rfl⟩

theorem prio_setPrio_lt {q : Nat} (above : prio < (state.setPrio p prio).prio q) :
    q ≠ p ∧ prio < state.prio q := by
  change prio < update state.prio p prio q at above
  by_cases here : q = p
  · rw [here, update_self] at above
    exact absurd above (Nat.lt_irrefl _)
  · rw [update_of_ne here] at above
    exact ⟨here, above⟩

section

variable (linked : Linked state)

include linked

theorem Linked.pending_requeue_lt (blocked : state.blockedOn p = some w)
    (lower : prio < state.prio p) {lock owner : Nat} {next : State} {rt : Bool}
    (moved : RtMutex.requeue (state.setPrio p prio) w lock owner rt = some next) :
    next.pending prio < state.pending prio := by
  obtain ⟨samePrio, sameFrames⟩ := requeue_rest moved
  unfold State.pending
  rw [samePrio, sameFrames]
  obtain ⟨frame, member, rfl, _⟩ := linked.asleep p w blocked
  apply WaitsFor.length_filter_lt _ member (decide_eq_true lower)
  · apply decide_eq_false
    intro above
    exact (prio_setPrio_lt above).1 rfl
  · intro other above
    exact decide_eq_true (prio_setPrio_lt (of_decide_eq_true above)).2

end

end Fuel

/-- A waiter of a task, linked on the wait list of an owned lock. -/
def State.Waits (state : State) (p w : Nat) : Prop :=
  state.task w = some p ∧ w ∈ state.waitList (state.lock w) ∧ (state.owner (state.lock w)).isSome

/-- Every pointer from a task to a waiter leads to a linked waiter: the task's own one
on `blocked_on`, those for its locks on `pi_waiters`. -/
structure Consistent (state : State) : Prop where
  blockedOn : ∀ p, state.blockedOn p = none ∨ ∃ w, state.blockedOn p = some w ∧ state.Waits p w
  piWaiters : ∀ o, ∀ w ∈ state.piWaiters o, (∃ p, state.Waits p w) ∧
    state.owner (state.lock w) = some o

theorem Linked.consistent {state : State} (linked : Linked state) : Consistent state := by
  constructor
  · intro p
    cases blocked : state.blockedOn p with
    | none => exact .inl rfl
    | some w =>
      obtain ⟨task, waits⟩ := linked.blocked p w blocked
      obtain ⟨o, holds⟩ := linked.owned _ w waits
      exact .inr ⟨w, rfl, task, waits, by rw [holds]; rfl⟩
  · intro o w inside
    obtain ⟨_, waits, holds⟩ := linked.pi o w inside
    obtain ⟨_, p, task, _⟩ := linked.queued _ w waits
    exact ⟨⟨p, task, waits, by rw [holds]; rfl⟩, holds⟩

/-- Tasks with any priorities, of which none holds or waits for a lock. -/
def idle (pid prio : Nat → Nat) (rtPriority : Nat → Option Nat) (effectivePrio : Nat → Nat) :
    State :=
  ⟨pid, prio, rtPriority, effectivePrio, fun _ => none, fun _ => [], fun _ => none, fun _ => [],
    fun _ => none, fun _ => 0, fun _ => .empty, []⟩

theorem idle_linked (pid prio : Nat → Nat) (rtPriority : Nat → Option Nat)
    (effectivePrio : Nat → Nat) : Linked (idle pid prio rtPriority effectivePrio) := by
  constructor <;> simp [idle]

/-- In every run in which signals and timeouts come only after the lock has been
granted, all pointers between tasks and waiters are sound. -/
theorem links_consistent_of_patient (pid prio : Nat → Nat) (rtPriority : Nat → Option Nat)
    (effectivePrio : Nat → Nat) (ops : List Op) (final : State)
    (permitted : Along step (fun state op => op.Valid state ∧ op.Patient state)
      (idle pid prio rtPriority effectivePrio) ops)
    (executed : run step (idle pid prio rtPriority effectivePrio) ops = some final) :
    Consistent final := by
  have linked : Linked final := by
    apply run_invariant _ ops _ final (idle_linked pid prio rtPriority effectivePrio) permitted
      executed
    intro state op next linked allowed stepped
    exact linked.step op allowed.1 allowed.2 stepped
  exact linked.consistent

instance (state : State) (task waiter : Nat) : Decidable (Ready state task waiter) :=
  decidable_of_iff (task ∉ state.frames.map Frame.task ∧ waiter ∉ state.frames.map Frame.waiter)
    ⟨fun both => ⟨both.1, both.2⟩, fun ready => ⟨ready.running, ready.fresh⟩⟩

instance (state : State) : (op : Op) → Decidable (op.Valid state)
  | .down task _ waiter _ => inferInstanceAs (Decidable (Ready state task waiter))
  | .downNoTime task _ | .trylock task _ | .up task _ =>
      inferInstanceAs (Decidable (task ∉ state.frames.map Frame.task))
  | .age _ prio => inferInstanceAs (Decidable (maxRtPrio ≤ prio ∧ prio < maxPrio))
  | .resume _ | .signal _ | .expire _ | .refresh _ => isTrue trivial

instance (state : State) : (op : Op) → Decidable (op.Patient state)
  | .signal task => inferInstanceAs (Decidable (∀ frame ∈ frameOf state task,
      frame.patience ≠ .uninterruptible → state.task frame.waiter = none))
  | .expire task => inferInstanceAs (Decidable (∀ frame ∈ frameOf state task,
      frame.patience = .timed → state.task frame.waiter = none))
  | .down _ _ _ _ | .downNoTime _ _ | .trylock _ _ | .up _ _ | .resume _ | .age _ _ |
    .refresh _ => isTrue trivial

/-- Task 1 is `SCHED_NORMAL`; the others are real-time tasks of the priority 10. -/
def fourTasks : State :=
  idle id (fun p => if p = 1 then 120 else 10) (fun p => if p = 1 then none else some 89)
    fun _ => 120

/-- Task 3 boosts task 1, which waits for task 2; a signal for task 3 comes when it has
got the lock. -/
def chainOfThree : List Op :=
  [.down 2 0 0 .uninterruptible, .down 1 1 0 .uninterruptible, .down 1 0 11 .uninterruptible,
    .down 3 1 13 .interruptible, .up 2 0, .resume 1, .up 1 1, .signal 3, .up 3 1]

theorem links_consistent_of_patient_chainOfThree :
    ∃ final, run step fourTasks chainOfThree = some final ∧ Consistent final :=
  ⟨_, rfl, links_consistent_of_patient id (fun p => if p = 1 then 120 else 10)
    (fun p => if p = 1 then none else some 89) (fun _ => 120) chainOfThree _
    (by decide +kernel) rfl⟩

/-- A signal ends the wait of task 3. -/
def interruptedWait : List Op :=
  [.down 2 0 0 .uninterruptible, .down 3 0 13 .interruptible, .signal 3]

/-- The waiter is gone, but `blocked_on` still leads to it. -/
theorem interruptedWait_dangles :
    Along step (fun state op => op.Valid state) fourTasks interruptedWait ∧
    ∃ final, run step fourTasks interruptedWait = some final ∧ ¬Consistent final := by
  refine ⟨by decide +kernel, _, rfl, ?_⟩
  intro consistent
  rcases consistent.blockedOn 3 with clear | ⟨w, blocked, _, waits, _⟩
  · exact absurd clear (by decide +kernel)
  · obtain rfl : w = 13 := Option.some.inj (blocked.symm.trans (by decide +kernel))
    exact absurd waits (by decide +kernel)

end MagxKernel.RtMutex
