import MagxKernel.RtMutex.Inheritance

namespace MagxKernel.RtMutex

open Runs

/-- No signal and no timeout; a task releases only locks that it owns. -/
def Op.Uninterrupted (state : State) : Op → Prop
  | .signal _ => False
  | .expire _ => False
  | .up task lock => state.owner lock = some task
  | _ => True

section Step

variable {stamp : Nat → Nat} {state : State}

section

variable (sorted : Sorted stamp state)

include sorted

theorem Sorted.downTrylock (boosted : Boosted state) (task lock : Nat) :
    Sorted stamp (downTrylock state task lock) ∧ Boosted (downTrylock state task lock) := by
  unfold RtMutex.downTrylock
  split
  · rename_i free
    have empty := sorted.linked.waitList_eq_nil free
    exact ⟨sorted.setOwner empty (some task), boosted.setOwner empty (some task)⟩
  · exact ⟨sorted, boosted⟩

theorem Sorted.down (boosted : Boosted state) {task waiter : Nat} (ready : Ready state task waiter)
    (latest : ∀ v, stamp v ≤ stamp waiter) (lock : Nat) (patience : Patience) :
    ∃ after, down state task lock waiter patience = some after ∧ Sorted stamp after ∧
      Boosted after := by
  unfold RtMutex.down
  split
  · rename_i free
    have empty := sorted.linked.waitList_eq_nil free
    exact ⟨_, rfl, sorted.setOwner empty (some task), boosted.setOwner empty (some task)⟩
  · rename_i o holds
    exact sorted.block boosted ready holds latest patience

theorem Sorted.returnFrom {frame : Frame} (member : frame ∈ state.frames)
    (granted : state.task frame.waiter = none) :
    Sorted stamp (returnFrom state frame.task) :=
  { sorted with linked := sorted.linked.returnFrom member granted }

/-- A new priority for a task that is not real-time and does not become so. -/
theorem Sorted.refresh (boosted : Boosted state) {p : Nat} (notRt : state.rtTask p = false) :
    Sorted stamp (state.setPrio p (state.effectivePrio p)) ∧
      Boosted (state.setPrio p (state.effectivePrio p)) := by
  have normal : ¬state.prio p < maxRtPrio := of_decide_eq_false notRt
  have still : ∀ q, (state.setPrio p (state.effectivePrio p)).prio q < maxRtPrio ↔
      state.prio q < maxRtPrio := by
    intro q
    by_cases here : q = p
    · rw [here, setPrio_self]
      have above := (sorted.normal p).1
      omega
    · rw [setPrio_of_ne here]
  have same : ∀ v, (state.setPrio p (state.effectivePrio p)).Rt v ↔ state.Rt v := by
    intro v
    unfold State.Rt
    simp only [still]
    rfl
  constructor
  · exact sorted.setPrio_of_same (sorted.normal p).2 fun _ v _ => same v
  · intro lock o holds notIdle v inside q task rt
    have below := (still q).mp rt
    have before := boosted lock o holds notIdle v inside q task below
    have apart : q ≠ p := by
      rintro rfl
      exact normal below
    have other : o ≠ p := by
      rintro rfl
      omega
    rw [setPrio_of_ne apart, setPrio_of_ne other]
    exact before

theorem Sorted.step (boosted : Boosted state) (op : Op) (valid : op.Valid state)
    (uninterrupted : op.Uninterrupted state)
    (latest : ∀ w, (∀ lock, w ∉ state.waitList lock) → ∀ v, stamp v ≤ stamp w) :
    ∃ after, step state op = some after ∧ Sorted stamp after ∧ Boosted after := by
  have linked := sorted.linked
  cases op with
  | down task lock waiter patience =>
    exact sorted.down boosted valid (latest waiter (linked.fresh valid.fresh)) lock patience
  | downNoTime task lock | trylock task lock => exact ⟨_, rfl, sorted.downTrylock boosted task lock⟩
  | up task lock =>
    obtain ⟨after, released, ordered, enough, _⟩ :=
      sorted.upMutex boosted uninterrupted (linked.running valid)
    exact ⟨after, released, ordered, enough⟩
  | resume task =>
    rw [RtMutex.step]
    split
    · exact ⟨state, rfl, sorted, boosted⟩
    rename_i frame found
    obtain ⟨member, rfl⟩ := frameOf_eq_some found
    split
    · rename_i granted
      exact ⟨_, rfl, sorted.returnFrom member granted, boosted⟩
    · exact ⟨state, rfl, sorted, boosted⟩
  | signal task | expire task => exact uninterrupted.elim
  | age task prio =>
    refine ⟨_, rfl, { sorted with linked := ?_, normal := ?_ }, boosted⟩
    · exact linked.step (.age task prio) valid trivial rfl
    · apply (Function.forall_update_iff state.effectivePrio fun _ prio =>
        maxRtPrio ≤ prio ∧ prio ≤ maxPrio).mpr
      exact ⟨⟨valid.1, Nat.le_of_lt valid.2⟩, fun p _ => sorted.normal p⟩
  | refresh task =>
    rw [RtMutex.step]
    cases rt : state.rtTask task with
    | true => exact ⟨state, rfl, sorted, boosted⟩
    | false => exact ⟨_, rfl, sorted.refresh boosted rt⟩

end

end Step

def State.waiting (state : State) (w : Nat) : Bool := w ∈ state.waitList (state.lock w)

def State.rtWaiting (state : State) (w : Nat) : Bool :=
  state.waiting w && (state.task w).any state.rtTask

/-- A run that is watched with a clock: since when a waiter has been in its list, and
since when it has been there with a real-time priority. -/
structure Timed where
  state : State
  clock : Nat
  since : Nat → Nat
  rtSince : Nat → Nat

namespace Timed

def observe (timed : Timed) (next : State) : Timed where
  state := next
  clock := timed.clock + 1
  since := fun w => if next.waiting w && !timed.state.waiting w then timed.clock else timed.since w
  rtSince := fun w =>
    if next.rtWaiting w && !timed.state.rtWaiting w then timed.clock else timed.rtSince w

def step (timed : Timed) (op : Op) : Option Timed :=
  (RtMutex.step timed.state op).map timed.observe

def start (state : State) : Timed := ⟨state, 0, fun _ => 0, fun _ => 0⟩

/-- Who does not wait yet as a real-time task would do so from now on. -/
def stamp (timed : Timed) (w : Nat) : Nat :=
  if timed.state.rtWaiting w then timed.rtSince w else timed.clock

structure Sound (timed : Timed) : Prop where
  sorted : Sorted timed.stamp timed.state
  boosted : Boosted timed.state
  past : ∀ w, timed.rtSince w ≤ timed.clock

end Timed

section Watch

variable {state : State} {timed : Timed} {lock w : Nat}

theorem rtWaiting_iff :
    state.rtWaiting w = true ↔ w ∈ state.waitList (state.lock w) ∧ state.Rt w := by
  unfold State.rtWaiting State.waiting State.Rt State.rtTask
  rw [Bool.and_eq_true, Option.any_eq_true]
  simp

theorem Linked.rtWaiting (linked : Linked state) (inside : w ∈ state.waitList lock) :
    state.rtWaiting w = true ↔ state.Rt w := by
  rw [rtWaiting_iff, (linked.queued lock w inside).1]
  exact and_iff_right inside

theorem Timed.Sound.stamp_le (sound : timed.Sound) (v : Nat) : timed.stamp v ≤ timed.clock := by
  unfold Timed.stamp
  split
  · exact sound.past v
  · exact Nat.le_refl _

/-- The stamps of those who wait as real-time tasks do not change. -/
theorem Timed.stamp_observe {next : State} (waits : next.rtWaiting w = true) :
    (timed.observe next).stamp w = timed.stamp w := by
  unfold Timed.stamp Timed.observe
  dsimp only
  rw [if_pos waits, waits, Bool.true_and]
  cases timed.state.rtWaiting w <;> rfl

theorem Timed.Sound.observe (sound : timed.Sound) {next : State} (sorted : Sorted timed.stamp next)
    (boosted : Boosted next) : (timed.observe next).Sound := by
  have past : ∀ w, (timed.observe next).rtSince w ≤ timed.clock := by
    intro w
    unfold Timed.observe
    dsimp only
    split
    · exact Nat.le_refl _
    · exact sound.past w
  have kept : ∀ lock, ∀ v ∈ next.waitList lock, next.Rt v →
      (timed.observe next).stamp v = timed.stamp v :=
    fun lock v inside rt => Timed.stamp_observe ((sorted.linked.rtWaiting inside).mpr rt)
  refine ⟨{ sorted with front := ?_, late := ?_ }, boosted, ?_⟩
  · intro lock
    apply (sorted.front lock).imp_of_mem
    intro a b inA inB before rt
    obtain ⟨rtA, older⟩ := before rt
    rw [kept lock a inA rtA, kept lock b inB rt]
    exact ⟨rtA, older⟩
  · intro lock w inside notRt v
    have latest : (timed.observe next).stamp w = timed.clock + 1 := by
      apply if_neg
      intro waits
      exact notRt ((sorted.linked.rtWaiting inside).mp waits)
    rw [latest]
    unfold Timed.stamp
    split
    · exact Nat.le_succ_of_le (past v)
    · exact Nat.le_refl _
  · exact fun w => Nat.le_succ_of_le (past w)

theorem Timed.Sound.step (sound : timed.Sound) (op : Op) (valid : op.Valid timed.state)
    (uninterrupted : op.Uninterrupted timed.state) :
    ∃ next, timed.step op = some next ∧ next.Sound := by
  have latest : ∀ w, (∀ lock, w ∉ timed.state.waitList lock) →
      ∀ v, timed.stamp v ≤ timed.stamp w := by
    intro w absent v
    have fresh : timed.stamp w = timed.clock := by
      apply if_neg
      intro waits
      exact absent _ (rtWaiting_iff.mp waits).1
    rw [fresh]
    exact sound.stamp_le v
  obtain ⟨after, stepped, sorted, boosted⟩ :=
    sound.sorted.step sound.boosted op valid uninterrupted latest
  refine ⟨timed.observe after, ?_, sound.observe sorted boosted⟩
  unfold Timed.step
  rw [stepped]
  rfl

theorem idle_sound (pid prio : Nat → Nat) (rtPriority : Nat → Option Nat)
    (effectivePrio : Nat → Nat) (small : ∀ p, prio p ≤ maxPrio)
    (normal : ∀ p, maxRtPrio ≤ effectivePrio p ∧ effectivePrio p < maxPrio) :
    (Timed.start (idle pid prio rtPriority effectivePrio)).Sound := by
  refine ⟨⟨idle_linked pid prio rtPriority effectivePrio, ?_, ?_, ?_, ?_, small, ?_⟩, ?_, ?_⟩
  · exact fun _ _ inside => (by cases inside)
  · exact fun _ _ inside => (by cases inside)
  · exact fun lock => List.Pairwise.nil
  · exact fun _ _ inside => (by cases inside)
  · exact fun p => ⟨(normal p).1, Nat.le_of_lt (normal p).2⟩
  · exact fun lock o holds => absurd holds.symm (Option.some_ne_none o)
  · exact fun w => Nat.le_refl _

end Watch

/-- The task waits for a lock of the other one, which is not an idle task. -/
def State.Behind (state : State) (p o : Nat) : Prop :=
  ∃ lock, ∃ w ∈ state.waitList lock, state.task w = some p ∧ state.owner lock = some o ∧
    state.pid o ≠ 0

theorem Boosted.behind {state : State} (boosted : Boosted state) {p o : Nat}
    (path : Relation.TransGen state.Behind p o) (rt : state.prio p < maxRtPrio) :
    state.prio o ≤ state.prio p := by
  have direct : ∀ {p o}, state.Behind p o → state.prio p < maxRtPrio →
      state.prio o ≤ state.prio p := by
    rintro p o ⟨lock, w, inside, task, holds, notIdle⟩ rt
    exact boosted lock o holds notIdle w inside p task rt
  induction path with
  | single behind => exact direct behind rt
  | tail _ behind ih => exact Nat.le_trans (direct behind (Nat.lt_of_le_of_lt ih rt)) ih

/-- In every run without signals and timeouts, in which tasks release only locks of
their own, owners have the priority of all real-time tasks that wait for them, and the
best and then longest-waiting real-time waiter gets a lock that is released. -/
theorem priorities_inherited (pid prio : Nat → Nat) (rtPriority : Nat → Option Nat)
    (effectivePrio : Nat → Nat) (small : ∀ p, prio p ≤ maxPrio)
    (normal : ∀ p, maxRtPrio ≤ effectivePrio p ∧ effectivePrio p < maxPrio) (ops : List Op)
    (permitted : Along Timed.step
      (fun timed op => op.Valid timed.state ∧ op.Uninterrupted timed.state)
      (Timed.start (idle pid prio rtPriority effectivePrio)) ops) :
    ∃ final, run Timed.step (Timed.start (idle pid prio rtPriority effectivePrio)) ops =
      some final ∧ Boosted final.state ∧
      (∀ p o, Relation.TransGen final.state.Behind p o → final.state.prio p < maxRtPrio →
        final.state.prio o ≤ final.state.prio p) ∧
      ∀ lock o, final.state.owner lock = some o → o ∉ final.state.frames.map Frame.task →
        (∃ v ∈ final.state.waitList lock, final.state.Rt v) →
        ∃ after, upMutex final.state lock = some after ∧
          ∃ w ∈ final.state.waitList lock, final.state.Rt w ∧
            after.owner lock = final.state.task w ∧
            ∀ v ∈ final.state.waitList lock, final.state.Rt v →
              Ahead final.rtSince final.state w v := by
  have start := idle_sound pid prio rtPriority effectivePrio small normal
  obtain ⟨final, executed, sound⟩ := run_total
    (fun timed op sound allowed => Timed.Sound.step sound op allowed.1 allowed.2) ops _ start
    permitted
  refine ⟨final, executed, sound.boosted, fun _ _ => sound.boosted.behind, ?_⟩
  rintro lock o holds runs ⟨v, inside, rt⟩
  have linked := sound.sorted.linked
  obtain ⟨after, released, _, _, best⟩ :=
    sound.sorted.upMutex sound.boosted holds (linked.running runs)
  obtain ⟨w, waits, rtW, owns, ahead⟩ := best v inside rt
  refine ⟨after, released, w, waits, rtW, owns, ?_⟩
  have stamped : ∀ u ∈ final.state.waitList lock, final.state.Rt u →
      final.stamp u = final.rtSince u :=
    fun u member rtU => if_pos ((linked.rtWaiting member).mpr rtU)
  intro u member rtU
  obtain ⟨p, q, taskW, taskU, order⟩ := ahead u member rtU
  rw [stamped w waits rtW, stamped u member rtU] at order
  exact ⟨p, q, taskW, taskU, order⟩

instance (state : State) : (op : Op) → Decidable (op.Uninterrupted state)
  | .signal _ | .expire _ => isFalse id
  | .up task lock => inferInstanceAs (Decidable (state.owner lock = some task))
  | .down _ _ _ _ | .downNoTime _ _ | .trylock _ _ | .resume _ | .age _ _ | .refresh _ =>
      isTrue trivial

/-- Task 0 is an idle task, task 1 is `SCHED_NORMAL`; the others are real-time tasks of
the priority 10. -/
def sixTasks : State :=
  idle id (fun p => if p = 0 then maxPrio else if p = 1 then 120 else 10)
    (fun p => if p ≤ 1 then none else some 89) fun _ => 120

/-- Task 1 and then task 2 wait for a lock of task 5; task 3 waits for a lock of
task 1. -/
def promotedWaiter : List Op :=
  [.down 5 0 0 .uninterruptible, .down 1 1 0 .uninterruptible, .down 1 0 11 .uninterruptible,
    .down 2 0 12 .uninterruptible, .down 3 1 13 .uninterruptible]

theorem priorities_inherited_promotedWaiter :
    ∃ final, run Timed.step (Timed.start sixTasks) promotedWaiter = some final ∧
      Boosted final.state ∧ final.state.prio 1 = 10 := by
  have small : ∀ p : Nat, (if p = 0 then maxPrio else if p = 1 then 120 else 10) ≤ maxPrio := by
    intro p
    split
    · exact Nat.le_refl _
    · split <;> decide
  obtain ⟨final, executed, boosted, _⟩ := priorities_inherited id
    (fun p => if p = 0 then maxPrio else if p = 1 then 120 else 10)
    (fun p => if p ≤ 1 then none else some 89) (fun _ => 120) small (fun _ => by decide)
    promotedWaiter (by decide +kernel)
  refine ⟨final, executed, boosted, ?_⟩
  cases executed
  decide +kernel

/-- A real-time task waits for a lock of an idle task. -/
def idleOwner : List Op := [.down 0 0 0 .uninterruptible, .down 2 0 12 .uninterruptible]

/-- Task 1, made real-time by task 3 while it waits, goes behind task 2, which came
later and has the same priority. An idle task is not boosted. -/
theorem promotedWaiter_overtaken :
    (Along Timed.step (fun timed op => op.Valid timed.state ∧ op.Uninterrupted timed.state)
      (Timed.start sixTasks) promotedWaiter ∧
    ∃ final after, run Timed.step (Timed.start sixTasks) promotedWaiter = some final ∧
      final.state.waitList 0 = [11, 12] ∧ final.state.task 11 = some 1 ∧
      final.state.task 12 = some 2 ∧ final.state.prio 1 = 10 ∧ final.state.prio 2 = 10 ∧
      final.since 11 < final.since 12 ∧
      final.state.owner 0 = some 5 ∧ upMutex final.state 0 = some after ∧ after.owner 0 = some 2) ∧
    (Along Timed.step (fun timed op => op.Valid timed.state ∧ op.Uninterrupted timed.state)
      (Timed.start sixTasks) idleOwner ∧
    ∃ final, run Timed.step (Timed.start sixTasks) idleOwner = some final ∧
      final.state.owner 0 = some 0 ∧ final.state.waitList 0 = [12] ∧
      final.state.task 12 = some 2 ∧ final.state.prio 2 = 10 ∧ final.state.prio 0 = maxPrio) := by
  refine ⟨⟨by decide +kernel, _, _, rfl, ?_, ?_, ?_, ?_, ?_, ?_, ?_, rfl, ?_⟩,
    by decide +kernel, _, rfl, ?_, ?_, ?_, ?_, ?_⟩
  all_goals decide +kernel

end MagxKernel.RtMutex
