import Mathlib.Data.List.Perm.Subperm
import MagxKernel.Lib.Runs

namespace MagxKernel.Workqueue

open Runs Function List Option

/-- Names a `struct work_struct`. -/
abbrev Work := Nat

/-- A function of the worker thread that has not returned. -/
inductive Frame where
  /-- `run_workqueue` at the head of its loop -/
  | loop
  /-- an item that is off the list, before or after the call of its function -/
  | item (work : Work) (number : Nat) (started : Bool)
deriving DecidableEq

/-- A call that has set the pending bit of an item and goes on. -/
inductive Call where
  | queueWork (work : Work)
  | queueDelayedWork (work : Work)
  | delayedWorkTimerFn (work : Work)
deriving DecidableEq

/-- A caller of `flush_workqueue` that is not the worker, with the items there were when it
took the lock. -/
structure Flusher where
  sequenceNeeded : Nat
  outstanding : List Nat
deriving DecidableEq

/-- The `cpu_workqueue_struct` of a single-threaded workqueue, with the items and the threads
that use it. The items on the list have the numbers of their insertion, `wqData` tells whether
`wq_data` is this structure, `timer` whether the timer is pending, and `finished` has the numbers
of the functions that have returned. -/
structure Cwq where
  removeSequence : Nat
  insertSequence : Nat
  worklist : List (Work × Nat)
  pending : Work → Bool
  timer : Work → Bool
  wqData : Work → Bool
  calls : List Call
  thread : List Frame
  flushers : List Flusher
  finished : List Nat

def Frame.number? : Frame → Option Nat
  | .loop => none
  | .item _ number _ => some number

/-- The items that the worker has taken off the list and not finished. -/
def Cwq.taken (cwq : Cwq) : List Nat := cwq.thread.filterMap Frame.number?

def Cwq.outstanding (cwq : Cwq) : List Nat := cwq.taken ++ cwq.worklist.map Prod.snd

/-- `__queue_work` -/
def Cwq.queueWork (cwq : Cwq) (work : Work) : Cwq :=
  { cwq with
    wqData := update cwq.wqData work true
    worklist := cwq.worklist ++ [(work, cwq.insertSequence)]
    insertSequence := cwq.insertSequence + 1 }

/-- What follows `test_and_set_bit`. A `BUG_ON` has no result. -/
def Cwq.proceed (cwq : Cwq) : Call → Option Cwq
  | .queueWork work =>
    if work ∈ cwq.worklist.map Prod.fst then none else some (cwq.queueWork work)
  | .queueDelayedWork work =>
    if cwq.timer work ∨ work ∈ cwq.worklist.map Prod.fst then none
    else some { cwq with
      wqData := update cwq.wqData work false
      timer := update cwq.timer work true }
  | .delayedWorkTimerFn work => some (cwq.queueWork work)

inductive Op where
  /-- `test_and_set_bit`; a bit that is set ends the call -/
  | testAndSet (work : Work) (delayed : Bool)
  | proceed (call : Call)
  | timer (work : Work)
  /-- the worker thread calls `run_workqueue` -/
  | runWorkqueue
  /-- one turn of its loop -/
  | turn
  /-- `clear_bit` and the call of the function -/
  | call
  /-- the function returns -/
  | done
  /-- the function flushes its own queue -/
  | flushOwn
  | flush
  | flushReturn (flusher : Flusher)
deriving DecidableEq

def step (cwq : Cwq) : Op → Option Cwq
  | .testAndSet work delayed =>
    if cwq.pending work then some cwq
    else some { cwq with
      pending := update cwq.pending work true
      calls := (if delayed then .queueDelayedWork work else .queueWork work) :: cwq.calls }
  | .proceed call =>
    if call ∈ cwq.calls then { cwq with calls := cwq.calls.erase call }.proceed call else none
  | .timer work =>
    if cwq.timer work then some { cwq with
      timer := update cwq.timer work false
      calls := .delayedWorkTimerFn work :: cwq.calls }
    else none
  | .runWorkqueue =>
    if cwq.thread = [] then some { cwq with thread := [.loop] } else none
  | .turn =>
    match cwq.thread, cwq.worklist with
    | .loop :: callers, [] => some { cwq with thread := callers }
    | .loop :: callers, (work, number) :: rest =>
      some { cwq with worklist := rest, thread := .item work number false :: .loop :: callers }
    | _, _ => none
  | .call =>
    match cwq.thread with
    | .item work number false :: callers =>
      if cwq.wqData work then some { cwq with
        pending := update cwq.pending work false
        thread := .item work number true :: callers }
      else none
    | _ => none
  | .done =>
    match cwq.thread with
    | .item _ number true :: callers => some { cwq with
      removeSequence := cwq.removeSequence + 1
      thread := callers
      finished := number :: cwq.finished }
    | _ => none
  | .flushOwn =>
    match cwq.thread with
    | .item _ _ true :: _ => some { cwq with thread := .loop :: cwq.thread }
    | _ => none
  | .flush =>
    some { cwq with flushers := ⟨cwq.insertSequence, cwq.outstanding⟩ :: cwq.flushers }
  | .flushReturn flusher =>
    if flusher ∈ cwq.flushers ∧ flusher.sequenceNeeded ≤ cwq.removeSequence then
      some { cwq with flushers := cwq.flushers.erase flusher }
    else none

def createWorkqueue : Cwq :=
  ⟨0, 0, [], fun _ => false, fun _ => false, fun _ => false, [], [], [], []⟩

/-- The worker takes no item that was queued after a flush while it is in the function of one that
the flush waits for. -/
def InTurn (cwq : Cwq) (op : Op) : Prop :=
  op = .turn → ∀ flusher ∈ cwq.flushers, (∃ older ∈ cwq.taken, older < flusher.sequenceNeeded) →
    ∀ head ∈ cwq.worklist.head?, head.2 < flusher.sequenceNeeded

instance (cwq : Cwq) (op : Op) : Decidable (InTurn cwq op) := by
  unfold InTurn
  infer_instance

/-- What a flush has seen is older than its `sequenceNeeded`, and younger items are taken only when
all older ones are finished. -/
structure Flusher.Served (cwq : Cwq) (flusher : Flusher) : Prop where
  sampled : ∀ number ∈ flusher.outstanding, number < flusher.sequenceNeeded
  inserted : flusher.sequenceNeeded ≤ cwq.insertSequence
  inTurn : (∀ number ∈ cwq.finished ++ cwq.taken, number < flusher.sequenceNeeded) ∨
    ∀ number < flusher.sequenceNeeded, number ∈ cwq.finished

/-- Every item that was inserted is finished, taken or on the list, which has the oldest first. -/
structure Orderly (cwq : Cwq) : Prop where
  counted : cwq.finished.length = cwq.removeSequence
  items : (cwq.finished ++ cwq.outstanding).Perm (List.range cwq.insertSequence)
  fifo : (cwq.worklist.map Prod.snd).Pairwise (· < ·)
  served : ∀ flusher ∈ cwq.flushers, flusher.Served cwq

section Step

variable {cwq next : Cwq}

section

variable (orderly : Orderly cwq)

include orderly

theorem Orderly.mem_iff (number : Nat) :
    number ∈ cwq.finished ∨ number ∈ cwq.outstanding ↔ number < cwq.insertSequence := by
  rw [← mem_append, orderly.items.mem_iff, mem_range]

theorem Orderly.queueWork (work : Work) : Orderly (cwq.queueWork work) := by
  refine ⟨orderly.counted, ?_, ?_, fun flusher waiting => ?_⟩
  · simp only [Cwq.queueWork, Cwq.outstanding, Cwq.taken, map_append, range_succ,
      ← append_assoc]
    exact List.Perm.append_right _ (by simpa [Cwq.outstanding, Cwq.taken] using orderly.items)
  · simp only [Cwq.queueWork, map_append]
    refine pairwise_append.mpr ⟨orderly.fifo, pairwise_singleton _ _, ?_⟩
    intro number listed new single
    obtain rfl := mem_singleton.mp single
    exact (orderly.mem_iff number).mp (.inr (mem_append_right _ listed))
  · have served := orderly.served flusher waiting
    exact { served with inserted := Nat.le_succ_of_le served.inserted }

theorem Orderly.proceed {call : Call} (proceeded : cwq.proceed call = some next) :
    Orderly next := by
  cases call with
  | queueWork work =>
    obtain ⟨_, proceeded⟩ := ite_none_left_eq_some.mp proceeded
    cases proceeded
    exact orderly.queueWork work
  | queueDelayedWork work =>
    obtain ⟨_, proceeded⟩ := ite_none_left_eq_some.mp proceeded
    cases proceeded
    exact ⟨orderly.counted, orderly.items, orderly.fifo,
      fun flusher waiting => { orderly.served flusher waiting with }⟩
  | delayedWorkTimerFn work =>
    cases proceeded
    exact orderly.queueWork work

/-- A step that touches neither the counters nor the items. -/
theorem Orderly.goOn (sameTaken : next.taken = cwq.taken)
    (others : (next.removeSequence, next.insertSequence, next.worklist, next.flushers,
      next.finished) = (cwq.removeSequence, cwq.insertSequence, cwq.worklist, cwq.flushers,
      cwq.finished)) : Orderly next := by
  simp only [Prod.mk.injEq] at others
  obtain ⟨removed, inserted, list, flushers, finished⟩ := others
  refine ⟨?_, ?_, ?_, fun flusher waiting => ?_⟩
  · rw [finished, removed, orderly.counted]
  · rw [finished, inserted, Cwq.outstanding, sameTaken, list]
    exact orderly.items
  · rw [list]
    exact orderly.fifo
  · rw [flushers] at waiting
    obtain ⟨sampled, known, inTurn⟩ := orderly.served flusher waiting
    refine ⟨sampled, ?_, ?_⟩
    · rwa [inserted]
    · rwa [finished, sameTaken]

/-- The loop takes the oldest item off the list. -/
theorem Orderly.take {work : Work} {number : Nat} {rest : List (Work × Nat)}
    {callers : List Frame} (inTurn : InTurn cwq .turn) (thread : cwq.thread = .loop :: callers)
    (list : cwq.worklist = (work, number) :: rest) :
    Orderly { cwq with
      worklist := rest
      thread := .item work number false :: .loop :: callers } := by
  have taken : cwq.taken = callers.filterMap Frame.number? := by
    rw [Cwq.taken, thread]
    rfl
  have fifo := orderly.fifo
  rw [list, map_cons, pairwise_cons] at fifo
  refine ⟨orderly.counted, ?_, fifo.2, fun flusher waiting => ?_⟩
  · refine List.Perm.trans (List.Perm.append_left _ ?_) orderly.items
    simp only [Cwq.outstanding]
    rw [taken, list]
    exact perm_middle.symm
  · obtain ⟨sampled, inserted, before | all⟩ := orderly.served flusher waiting
    · refine ⟨sampled, inserted, ?_⟩
      by_cases young : number < flusher.sequenceNeeded
      · left
        intro other member
        rcases mem_append.mp member with finished | taking
        · exact before other (mem_append_left _ finished)
        · rcases mem_cons.mp taking with rfl | held
          · exact young
          · exact before other (mem_append_right _ (by rwa [taken]))
      · -- all that is on the list is younger than the flush, so what it waits for is finished
        right
        intro other older
        rcases (orderly.mem_iff other).mpr (Nat.lt_of_lt_of_le older inserted) with done | waits
        · exact done
        · rcases mem_append.mp waits with held | listed
          · have head := inTurn rfl flusher waiting ⟨other, held, older⟩ (work, number)
            rw [list] at head
            exact absurd (head rfl) young
          · rw [list] at listed
            rcases mem_cons.mp listed with rfl | later
            · exact absurd older young
            · have := fifo.1 other later
              omega
    · exact ⟨sampled, inserted, .inr all⟩

/-- The function of an item returns. -/
theorem Orderly.done {work : Work} {number : Nat} {callers : List Frame}
    (thread : cwq.thread = .item work number true :: callers) :
    Orderly { cwq with
      removeSequence := cwq.removeSequence + 1
      thread := callers
      finished := number :: cwq.finished } := by
  have taken : cwq.taken = number :: callers.filterMap Frame.number? := by
    rw [Cwq.taken, thread]
    rfl
  refine ⟨congrArg (· + 1) orderly.counted, ?_, orderly.fifo, fun flusher waiting => ?_⟩
  · refine List.Perm.trans ?_ orderly.items
    simp only [Cwq.outstanding]
    rw [taken]
    exact perm_middle.symm
  · obtain ⟨sampled, inserted, inTurn⟩ := orderly.served flusher waiting
    refine ⟨sampled, inserted, ?_⟩
    rw [taken] at inTurn
    rcases inTurn with before | all
    · exact .inl fun other member => before other (perm_middle.mem_iff.mpr member)
    · exact .inr fun other older => mem_cons_of_mem _ (all other older)

theorem Orderly.setFlushers {flushers : List Flusher}
    (served : ∀ flusher ∈ flushers, flusher.Served cwq) :
    Orderly { cwq with flushers := flushers } :=
  ⟨orderly.counted, orderly.items, orderly.fifo,
    fun flusher waiting => { served flusher waiting with }⟩

/-- All that a flush has seen is older than the numbers to come. -/
theorem Orderly.served_new : Flusher.Served cwq ⟨cwq.insertSequence, cwq.outstanding⟩ := by
  refine ⟨fun number seen => (orderly.mem_iff number).mp (.inr seen), Nat.le_refl _, .inl ?_⟩
  intro number member
  refine (orderly.mem_iff number).mp ((mem_append.mp member).imp_right fun held => ?_)
  exact mem_append_left _ held

/-- As many items are finished as a flush waits for only when they are those it waits for. -/
theorem Orderly.finished_of_reached {flusher : Flusher} (served : flusher.Served cwq)
    (reached : flusher.sequenceNeeded ≤ cwq.removeSequence) {number : Nat}
    (older : number < flusher.sequenceNeeded) : number ∈ cwq.finished := by
  rcases served.inTurn with before | all
  · have distinct : cwq.finished.Nodup :=
      (nodup_append.mp (orderly.items.nodup_iff.mpr nodup_range)).1
    have among : cwq.finished ⊆ List.range flusher.sequenceNeeded := fun other done =>
      mem_range.mpr (before other (mem_append_left _ done))
    have enough : (List.range flusher.sequenceNeeded).length ≤ cwq.finished.length := by
      rw [length_range, orderly.counted]
      exact reached
    have same := (subperm_of_subset distinct among).perm_of_length_le enough
    exact same.mem_iff.mpr (mem_range.mpr older)
  · exact all number older

end

theorem orderly_step (cwq : Cwq) (op : Op) (next : Cwq) (orderly : Orderly cwq)
    (inTurn : InTurn cwq op) (stepped : step cwq op = some next) : Orderly next := by
  cases op with
  | testAndSet work delayed =>
    simp only [step] at stepped
    split at stepped
    · cases stepped
      exact orderly
    · cases stepped
      exact orderly.goOn rfl rfl
  | proceed call =>
    obtain ⟨_, stepped⟩ := ite_none_right_eq_some.mp stepped
    have called : Orderly { cwq with calls := cwq.calls.erase call } := orderly.goOn rfl rfl
    exact called.proceed stepped
  | timer work =>
    obtain ⟨_, rfl⟩ := ite_some_none_eq_some.mp stepped
    exact orderly.goOn rfl rfl
  | runWorkqueue =>
    obtain ⟨idle, rfl⟩ := ite_some_none_eq_some.mp stepped
    refine orderly.goOn ?_ rfl
    rw [Cwq.taken, Cwq.taken, idle]
    rfl
  | turn =>
    simp only [step] at stepped
    split at stepped
    · rename_i callers thread list
      cases stepped
      refine orderly.goOn ?_ rfl
      rw [Cwq.taken, Cwq.taken, thread]
      rfl
    · rename_i callers work number rest thread list
      cases stepped
      exact orderly.take inTurn thread list
    · cases stepped
  | call =>
    simp only [step] at stepped
    split at stepped
    · rename_i work number callers thread
      obtain ⟨_, rfl⟩ := ite_some_none_eq_some.mp stepped
      refine orderly.goOn ?_ rfl
      rw [Cwq.taken, Cwq.taken, thread]
      rfl
    · cases stepped
  | done =>
    simp only [step] at stepped
    split at stepped
    · rename_i work number callers thread
      cases stepped
      exact orderly.done thread
    · cases stepped
  | flushOwn =>
    simp only [step] at stepped
    split at stepped
    · cases stepped
      exact orderly.goOn rfl rfl
    · cases stepped
  | flush =>
    cases stepped
    exact orderly.setFlushers (forall_mem_cons.mpr ⟨orderly.served_new, orderly.served⟩)
  | flushReturn flusher =>
    obtain ⟨_, rfl⟩ := ite_some_none_eq_some.mp stepped
    exact orderly.setFlushers fun other left => orderly.served other (mem_of_mem_erase left)

end Step

/-- When no item overtakes one that a flush waits for, a `flush_workqueue` that returns has waited
for all that was on the queue or running when it took the lock, also where work functions flush
their own queue. -/
theorem flush_workqueue_waits (ops : List Op) (cwq next : Cwq) (flusher : Flusher)
    (inTurn : Along step InTurn createWorkqueue ops)
    (executed : run step createWorkqueue ops = some cwq)
    (returned : step cwq (.flushReturn flusher) = some next) :
    ∀ number ∈ flusher.outstanding, number ∈ cwq.finished := by
  have start : Orderly createWorkqueue := ⟨rfl, .nil, .nil, nofun⟩
  have orderly := run_invariant orderly_step ops _ cwq start inTurn executed
  obtain ⟨⟨waiting, reached⟩, _⟩ := ite_some_none_eq_some.mp returned
  have served := orderly.served flusher waiting
  intro number member
  exact orderly.finished_of_reached served reached (served.sampled number member)

/-- Item 0 flushes its own queue, which runs item 1, and queues item 2; an earlier flush from
outside waits for both of the older items. -/
def nestedFlush : List Op :=
  [.testAndSet 0 false, .proceed (.queueWork 0), .testAndSet 1 false, .proceed (.queueWork 1),
    .flush, .runWorkqueue, .turn, .call, .flushOwn, .turn, .call, .done, .turn,
    .testAndSet 2 false, .proceed (.queueWork 2), .done, .turn]

theorem flush_workqueue_waits_nested :
    ∃ cwq, run step createWorkqueue nestedFlush = some cwq ∧ cwq.taken = [2] ∧
      ∀ number ∈ [0, 1], number ∈ cwq.finished := by
  refine ⟨_, rfl, rfl, flush_workqueue_waits nestedFlush _ _ ⟨2, [0, 1]⟩ ?_ rfl rfl⟩
  decide

/-- Item 0 flushes the queue twice and runs two later items; the flush from outside, which has
seen two items, returns while item 0 is running. -/
theorem flush_workqueue_early :
    (run step createWorkqueue [.testAndSet 0 false, .proceed (.queueWork 0), .runWorkqueue, .turn,
      .call, .testAndSet 1 false, .proceed (.queueWork 1), .flush, .flushOwn, .turn, .call, .done,
      .turn, .testAndSet 2 false, .proceed (.queueWork 2), .flushOwn, .turn, .call, .done]).map
        (fun cwq => (cwq.flushers, cwq.taken, cwq.finished,
          (step cwq (.flushReturn ⟨2, [0, 1]⟩)).isSome)) =
      some ([⟨2, [0, 1]⟩], [0], [2, 1], true) := by
  decide +kernel

end MagxKernel.Workqueue
