import MagxKernel.RtMutex.Priority

namespace MagxKernel.RtMutex

open List Option
open Function (update_idem update_self update_of_ne update_apply)

section Block

variable {stamp : Nat → Nat} {state after : State} {task waiter lock o : Nat}

/-- The state after a task has put its waiter into a list, field by field. -/
structure Joined (state : State) (task waiter lock : Nat) (list : List Nat) (link : PiLink)
    (after : State) : Prop where
  task : after.task = Function.update state.task waiter (some task)
  waitList : after.waitList = Function.update state.waitList lock list
  piList : after.piList = Function.update state.piList waiter link
  prio : after.prio = state.prio
  pid : after.pid = state.pid
  owner : after.owner = state.owner
  effectivePrio : after.effectivePrio = state.effectivePrio

/-- A real-time task is registered and goes to the head, any other to the tail. -/
inductive Place (state : State) (task waiter lock : Nat) : List Nat → PiLink → Prop where
  | head (rt : state.prio task < maxRtPrio) (o : Nat) :
      Place state task waiter lock (waiter :: state.waitList lock) (.on o)
  | tail (normal : ¬state.prio task < maxRtPrio) :
      Place state task waiter lock (state.waitList lock ++ [waiter]) .empty

variable {list : List Nat} {link : PiLink}

section

variable (joined : Joined state task waiter lock list link after)

include joined

theorem Joined.member (place : Place state task waiter lock list link) {other v : Nat}
    (inside : v ∈ after.waitList other) :
    (v = waiter ∧ other = lock) ∨ v ∈ state.waitList other := by
  rw [joined.waitList] at inside
  by_cases here : other = lock
  · rw [here, update_self] at inside
    rw [here]
    cases place with
    | head => exact (mem_cons.mp inside).imp_left fun first => ⟨first, rfl⟩
    | tail =>
      exact (mem_append.mp inside).symm.imp_left fun last => ⟨mem_singleton.mp last, rfl⟩
  · rw [update_of_ne here] at inside
    exact .inr inside

theorem Joined.rt_old {v : Nat} (distinct : v ≠ waiter) : after.Rt v ↔ state.Rt v := by
  unfold State.Rt
  rw [joined.task, joined.prio, update_of_ne distinct]

theorem Joined.rt_new : after.Rt waiter ↔ state.prio task < maxRtPrio := by
  unfold State.Rt
  rw [joined.task, joined.prio, update_self]
  simp

end

section

variable (joined : Joined state task waiter lock list link after)
  (place : Place state task waiter lock list link) (absent : ∀ other, waiter ∉ state.waitList other)

include joined place absent

theorem Sorted.join (sorted : Sorted stamp state) (latest : ∀ v, stamp v ≤ stamp waiter)
    (linked : Linked after) : Sorted stamp after := by
  have distinct : ∀ {other v}, v ∈ state.waitList other → v ≠ waiter :=
    fun inside same => absent _ (same ▸ inside)
  have ordered : ∀ other, (state.waitList other).Pairwise fun a b =>
      after.Rt b → after.Rt a ∧ stamp b ≤ stamp a := by
    intro other
    apply (sorted.front other).imp_of_mem
    intro a b inA inB before
    rw [joined.rt_old (distinct inA), joined.rt_old (distinct inB)]
    exact before
  constructor
  · exact linked
  · intro other v inside rt
    rw [joined.piList]
    rcases joined.member place inside with ⟨rfl, _⟩ | old
    · rw [update_self]
      rw [joined.rt_new] at rt
      cases place with
      | head _ o => exact ⟨o, rfl⟩
      | tail normal => exact absurd rt normal
    · rw [update_of_ne (distinct old)]
      rw [joined.rt_old (distinct old)] at rt
      exact sorted.on other v old rt
  · intro other v inside rt
    rw [joined.piList]
    rcases joined.member place inside with ⟨rfl, _⟩ | old
    · rw [update_self]
      rw [joined.rt_new] at rt
      cases place with
      | head isRt => exact absurd isRt rt
      | tail => rfl
    · rw [update_of_ne (distinct old)]
      rw [joined.rt_old (distinct old)] at rt
      exact sorted.off other v old rt
  · intro other
    rw [joined.waitList]
    by_cases here : other = lock
    · rw [here, update_self]
      cases place with
      | head rt =>
        apply pairwise_cons.mpr
        exact ⟨fun b _ _ => ⟨joined.rt_new.mpr rt, latest b⟩, ordered lock⟩
      | tail normal =>
        apply pairwise_append.mpr
        refine ⟨ordered lock, pairwise_singleton _ _, ?_⟩
        intro a _ b last rt
        rw [mem_singleton.mp last, joined.rt_new] at rt
        exact absurd rt normal
    · rw [update_of_ne here]
      exact ordered other
  · intro other v inside rt
    rcases joined.member place inside with ⟨rfl, _⟩ | old
    · exact latest
    · rw [joined.rt_old (distinct old)] at rt
      exact sorted.late other v old rt
  · rw [joined.prio]
    exact sorted.bounded
  · rw [joined.effectivePrio]
    exact sorted.normal

/-- Only the new waiter can ask for more than its owner has. -/
theorem Joined.boosted (boosted : Boosted state) (holds : state.owner lock = some o) :
    BoostedBut after task o := by
  intro other holder owns notIdle v inside q owner rt
  rw [joined.owner] at owns
  rw [joined.pid] at notIdle
  rw [joined.task] at owner
  rw [joined.prio] at rt ⊢
  rcases joined.member place inside with ⟨rfl, rfl⟩ | old
  · rw [update_self] at owner
    rw [holds] at owns
    exact .inr ⟨(Option.some.inj owns).symm, (Option.some.inj owner).symm⟩
  · have distinct : v ≠ waiter := fun same => absent other (same ▸ old)
    rw [update_of_ne distinct] at owner
    exact .inl (boosted other holder owns notIdle v old q owner rt)

end

/-- A task that goes to sleep boosts the owner and all whom the owner waits for. -/
theorem Sorted.block (sorted : Sorted stamp state) (boosted : Boosted state)
    (ready : Ready state task waiter) (holds : state.owner lock = some o)
    (latest : ∀ v, stamp v ≤ stamp waiter) (patience : Patience) :
    ∃ after, taskBlocksOnLock
        { state with frames := ⟨task, waiter, lock, patience⟩ :: state.frames } waiter task lock =
        some after ∧ Sorted stamp after ∧ Boosted after := by
  have absent := sorted.linked.fresh ready.fresh
  unfold taskBlocksOnLock
  dsimp only
  rw [show State.rtTask { state with frames := _ :: state.frames } task = state.rtTask task from
    rfl]
  cases rt : state.rtTask task with
  | false =>
    have normal : ¬state.prio task < maxRtPrio := of_decide_eq_false rt
    have linked := sorted.linked.enqueue ready holds patience
      (perm_append_singleton waiter (state.waitList lock))
    have place : Place state task waiter lock _ _ := .tail normal
    generalize made : (markBlocked _ waiter task lock).setWaitList lock _ = queued at linked ⊢
    have joined : Joined state task waiter lock
        (state.waitList lock ++ [waiter]) .empty queued := by
      rw [← made]
      exact ⟨rfl, rfl, rfl, rfl, rfl, rfl, rfl⟩
    refine ⟨queued, rfl, sorted.join joined place absent latest linked,
      (joined.boosted place absent boosted holds).boosted ?_⟩
    rw [joined.prio]
    exact fun below => absurd below normal
  | true =>
    have isRt : state.prio task < maxRtPrio := of_decide_eq_true rt
    have linked := sorted.linked.enqueueHead ready holds patience
    have place : Place state task waiter lock _ _ := .head isRt o
    rw [holds, if_neg (by decide)]
    dsimp only
    generalize made : (linkPi _ waiter o).setWaitList lock _ = queued at linked ⊢
    have joined : Joined state task waiter lock (waiter :: state.waitList lock) (.on o) queued := by
      rw [← made]
      exact ⟨rfl, rfl, update_idem _ _ _, rfl, rfl, rfl, rfl⟩
    have ordered := sorted.join joined place absent latest linked
    have but := joined.boosted place absent boosted holds
    split
    · rename_i lower
      rw [← joined.prio] at lower isRt ⊢
      exact ordered.piSetprio (but.boostedFrom lower) isRt lower
    · rename_i enough
      rw [← joined.prio] at enough
      exact ⟨queued, rfl, ordered, but.boosted fun _ => Nat.le_of_not_lt enough⟩

end Block

section Release

variable {stamp : Nat → Nat} {state after : State} {lock oldOwner newOwner w v u : Nat}

/-- A smaller priority, or the same one and an earlier start. -/
def Ahead (stamp : Nat → Nat) (state : State) (w v : Nat) : Prop :=
  ∃ p q, state.task w = some p ∧ state.task v = some q ∧
    (state.prio p < state.prio q ∨ state.prio p = state.prio q ∧ stamp w ≤ stamp v)

theorem Ahead.refl {p : Nat} (task : state.task w = some p) : Ahead stamp state w w :=
  ⟨p, p, task, task, .inr ⟨rfl, Nat.le_refl _⟩⟩

theorem Ahead.trans (first : Ahead stamp state w v) (second : Ahead stamp state v u) :
    Ahead stamp state w u := by
  obtain ⟨p, q, taskW, taskV, before⟩ := first
  obtain ⟨q', r, taskV', taskU, after⟩ := second
  obtain rfl : q = q' := Option.some.inj (taskV.symm.trans taskV')
  refine ⟨p, r, taskW, taskU, ?_⟩
  omega

/-- The best of the waiters seen so far and the real-time ones of the list. -/
structure Best (stamp : Nat → Nat) (state : State) (seen : Option Nat) (list : List Nat)
    (found : Option Nat) : Prop where
  none : found = none → seen = none ∧ ∀ v ∈ list, ¬state.Rt v
  rt : ∀ w ∈ found, state.Rt w ∧ (w ∈ seen ∨ w ∈ list)
  ahead : ∀ w ∈ found, ∀ v, v ∈ seen ∨ v ∈ list → state.Rt v → Ahead stamp state w v

/-- Without a real-time task in the list nothing changes. -/
theorem Best.stay {seen : Option Nat} {list : List Nat} (rt : ∀ w ∈ seen, state.Rt w)
    (none : ∀ v ∈ list, ¬state.Rt v) : Best stamp state seen list seen := by
  refine ⟨fun empty => ⟨empty, none⟩, fun w chosen => ⟨rt w chosen, .inl chosen⟩, ?_⟩
  intro w chosen v member rtV
  obtain ⟨p, task, _⟩ := rt w chosen
  rcases member with same | inside
  · rw [mem_unique same chosen]
    exact Ahead.refl task
  · exact absurd rtV (none v inside)

theorem Best.turn {seen found : Option Nat} {rest : List Nat} {next : Nat}
    (best : Best stamp state (some next) rest found) (rtNext : state.Rt next)
    (chosen : next ∈ seen ∨ next = v)
    (aheadV : Ahead stamp state next v) (aheadSeen : ∀ b ∈ seen, Ahead stamp state next b) :
    Best stamp state seen (v :: rest) found := by
  constructor
  · exact fun empty => absurd (best.none empty).1 (some_ne_none next)
  · intro w inFound
    obtain ⟨rt, origin⟩ := best.rt w inFound
    refine ⟨rt, ?_⟩
    rcases origin with same | later
    · cases same
      exact chosen.imp_right fun here : next = v => here ▸ mem_cons_self
    · exact .inr (mem_cons_of_mem _ later)
  · intro w inFound u member rt
    have aheadNext := best.ahead w inFound next (.inl rfl) rtNext
    rcases member with before | here
    · exact aheadNext.trans (aheadSeen u before)
    · rcases mem_cons.mp here with rfl | later
      · exact aheadNext.trans aheadV
      · exact best.ahead w inFound u (.inr later) rt

theorem waiterPrio_eq {p : Nat} (task : state.task v = some p) :
    waiterPrio state v = some (state.prio p) := by
  rw [waiterPrio, task]
  rfl

theorem pickWaiter_best (list : List Nat) (seen : Option Nat)
    (tasks : ∀ v ∈ list, ∃ p, state.task v = some p)
    (front : list.Pairwise fun a b => state.Rt b → state.Rt a ∧ stamp b ≤ stamp a)
    (rt : ∀ w ∈ seen, state.Rt w) (older : ∀ w ∈ seen, ∀ v ∈ list, state.Rt v → stamp v ≤ stamp w) :
    ∃ found, pickWaiter state seen list = some found ∧ Best stamp state seen list found := by
  induction list generalizing seen with
  | nil => exact ⟨seen, rfl, Best.stay rt (forall_mem_nil _)⟩
  | cons v rest ih =>
    obtain ⟨first, others⟩ := pairwise_cons.mp front
    obtain ⟨p, task⟩ := tasks v mem_cons_self
    have tasks' : ∀ u ∈ rest, ∃ q, state.task u = some q :=
      (forall_mem_cons.mp tasks).2
    rw [pickWaiter.eq_def]
    dsimp only
    rw [waiterPrio_eq task]
    dsimp only
    split
    · -- no real-time task stands behind the first that is none
      have notRt : ¬state.Rt v := by
        rintro ⟨q, owns, below⟩
        rw [task] at owns
        cases owns
        omega
      have none : ∀ u ∈ v :: rest, ¬state.Rt u := by
        exact forall_mem_cons.mpr ⟨notRt, fun u later rtU => notRt (first u later rtU).1⟩
      exact ⟨seen, rfl, Best.stay rt none⟩
    · rename_i below
      have rtV : state.Rt v := ⟨p, task, Nat.lt_of_not_le below⟩
      have firstRt : ∀ w ∈ some v, state.Rt w := by
        rintro w ⟨⟩
        exact rtV
      have firstOlder : ∀ w ∈ some v, ∀ u ∈ rest, state.Rt u → stamp u ≤ stamp w := by
        rintro w ⟨⟩ u member rtU
        exact (first u member rtU).2
      cases seen with
      | none =>
        obtain ⟨found, picked, best⟩ := ih (some v) tasks' others firstRt firstOlder
        refine ⟨found, picked, best.turn rtV (.inr rfl) (Ahead.refl task) ?_⟩
        exact fun b inside => absurd inside (not_mem_none b)
      | some waiter =>
        obtain ⟨q, owns, rtQ⟩ := rt waiter rfl
        dsimp only
        rw [waiterPrio_eq owns]
        dsimp only
        split
        · obtain ⟨found, picked, best⟩ := ih (some v) tasks' others firstRt firstOlder
          refine ⟨found, picked, best.turn rtV (.inr rfl) (Ahead.refl task) ?_⟩
          rintro b ⟨⟩
          have earlier := older waiter rfl v mem_cons_self rtV
          exact ⟨p, q, task, owns, by omega⟩
        · obtain ⟨found, picked, best⟩ := ih (some waiter) tasks' others rt
            fun w chosen u member => older w chosen u (mem_cons_of_mem _ member)
          refine ⟨found, picked, best.turn (rt waiter rfl) (.inl rfl) ?_ ?_⟩
          · exact ⟨q, p, owns, task, by omega⟩
          · rintro b ⟨⟩
            exact Ahead.refl owns

theorem pickNewOwner_eq {best : Option Nat}
    (picked : pickWaiter state none (state.waitList lock) = some best)
    (chosen : best.or (state.waitList lock).head? = some w) (owns : state.task w = some newOwner) :
    pickNewOwner state lock oldOwner = handOver state lock oldOwner w newOwner := by
  unfold pickNewOwner
  rw [picked]
  dsimp only
  rw [chosen]
  dsimp only
  rw [owns]

section

variable (handed : HandedOver state lock oldOwner w newOwner after)

include handed

theorem HandedOver.rt (distinct : v ≠ w) : after.Rt v ↔ state.Rt v := by
  unfold State.Rt
  rw [handed.task, handed.prio, update_of_ne distinct]

theorem HandedOver.sorted (sorted : Sorted stamp state) (holds : state.owner lock = some oldOwner)
    (waits : w ∈ state.waitList lock) (owns : state.task w = some newOwner) :
    Sorted stamp after := by
  have linked := sorted.linked
  have member := handed.mem_waitList linked waits
  constructor
  · exact handed.linked linked holds waits owns
  · intro other v inside rt
    obtain ⟨distinct, old⟩ := (member other v).mp inside
    rw [handed.rt distinct] at rt
    rw [handed.piList, if_neg distinct]
    split
    · exact ⟨newOwner, rfl⟩
    · exact sorted.on other v old rt
  · intro other v inside notRt
    obtain ⟨distinct, old⟩ := (member other v).mp inside
    rw [handed.rt distinct] at notRt
    have empty := sorted.off other v old notRt
    rw [handed.piList, if_neg distinct, if_neg]
    · exact empty
    · rintro ⟨registered, _⟩
      have link := (linked.pi oldOwner v registered).1
      rw [empty] at link
      cases link
  · intro other
    have kept : (after.waitList other).Sublist (state.waitList other) := by
      rw [handed.waitList]
      by_cases here : other = lock
      · rw [here, update_self]
        exact erase_sublist
      · rw [update_of_ne here]
    apply ((sorted.front other).sublist kept).imp_of_mem
    intro a b inA inB before
    rw [handed.rt ((member other a).mp inA).1, handed.rt ((member other b).mp inB).1]
    exact before
  · intro other v inside notRt
    obtain ⟨distinct, old⟩ := (member other v).mp inside
    rw [handed.rt distinct] at notRt
    exact sorted.late other v old notRt
  · rw [handed.prio]
    exact sorted.bounded
  · rw [handed.effectivePrio]
    exact sorted.normal

/-- The new owner was the best of all who wait. -/
theorem HandedOver.boosted (linked : Linked state) (boosted : Boosted state)
    (waits : w ∈ state.waitList lock) (owns : state.task w = some newOwner)
    (best : ∀ v ∈ state.waitList lock, state.Rt v → Ahead stamp state w v) : Boosted after := by
  intro other holder owner notIdle v inside q task rt
  obtain ⟨distinct, old⟩ := (handed.mem_waitList linked waits other v).mp inside
  rw [handed.owner] at owner
  rw [handed.pid] at notIdle
  rw [handed.task, update_of_ne distinct] at task
  rw [handed.prio] at rt ⊢
  by_cases here : other = lock
  · rw [here] at old owner
    rw [update_self] at owner
    obtain ⟨p, r, taskW, taskV, order⟩ := best v old ⟨q, task, rt⟩
    obtain rfl : p = holder := Option.some.inj (taskW.symm.trans (owns.trans owner))
    obtain rfl : r = q := Option.some.inj (taskV.symm.trans task)
    omega
  · rw [update_of_ne here] at owner
    exact boosted other holder owner notIdle v old q task rt

end

/-- `pick_new_owner` hands the lock to a real-time waiter if there is one, and none of
them is ahead of it. -/
theorem Sorted.pickNewOwner (sorted : Sorted stamp state) (holds : state.owner lock = some oldOwner)
    (waited : state.waitList lock ≠ []) :
    ∃ after w newOwner, pickNewOwner (state.setOwner lock none) lock oldOwner = some after ∧
      w ∈ state.waitList lock ∧ state.task w = some newOwner ∧
      HandedOver state lock oldOwner w newOwner after ∧
      ∀ v ∈ state.waitList lock, state.Rt v → state.Rt w ∧ Ahead stamp state w v := by
  have linked := sorted.linked
  have tasks : ∀ v ∈ state.waitList lock, ∃ p, state.task v = some p := by
    intro v inside
    obtain ⟨_, p, task, _⟩ := linked.queued lock v inside
    exact ⟨p, task⟩
  have found : ∃ best w,
      pickWaiter (state.setOwner lock none) none (state.waitList lock) = some best ∧
      best.or (state.waitList lock).head? = some w ∧ w ∈ state.waitList lock ∧
      ∀ v ∈ state.waitList lock, state.Rt v → state.Rt w ∧ Ahead stamp state w v := by
    obtain ⟨best, picked, spec⟩ : ∃ found,
        pickWaiter (state.setOwner lock none) none (state.waitList lock) = some found ∧
        Best stamp (state.setOwner lock none) none (state.waitList lock) found :=
      pickWaiter_best _ none tasks (sorted.front lock)
        (fun w inside => absurd inside (not_mem_none w))
        (fun w inside => absurd inside (not_mem_none w))
    cases best with
    | none =>
      obtain ⟨first, rest, list⟩ := exists_cons_of_ne_nil waited
      refine ⟨none, first, picked, ?_, ?_, ?_⟩
      · rw [list]
        rfl
      · rw [list]
        exact mem_cons_self
      · intro v inside rt
        exact absurd rt ((spec.none rfl).2 v inside)
    | some w =>
      obtain ⟨rt, origin⟩ := spec.rt w rfl
      refine ⟨some w, w, picked, rfl, origin.resolve_left (not_mem_none w), ?_⟩
      exact fun v inside rtV => ⟨rt, spec.ahead w rfl v (.inr inside) rtV⟩
  obtain ⟨best, w, picked, chosen, waits, ahead⟩ := found
  obtain ⟨newOwner, owns⟩ := tasks w waits
  have sound : ¬state.piList w = .poisoned := by
    intro poisoned
    by_cases rt : state.Rt w
    · obtain ⟨o, link⟩ := sorted.on lock w waits rt
      exact absurd (poisoned.symm.trans link) nofun
    · exact absurd (poisoned.symm.trans (sorted.off lock w waits rt)) nofun
  have handed : ∃ after, handOver (state.setOwner lock none) lock oldOwner w newOwner =
      some after := by
    obtain ⟨unlinked, left⟩ := unlinkPi_returns
      ((state.setOwner lock none).setWaitList lock ((state.waitList lock).erase w)) .empty sound
    change ∃ after, (unlinkPi ((state.setOwner lock none).setWaitList lock
      ((state.waitList lock).erase w)) w .empty).map _ = some after
    rw [left]
    exact ⟨_, rfl⟩
  obtain ⟨after, moved⟩ := handed
  refine ⟨after, w, newOwner, ?_, waits, owns, linked.handOver_spec holds moved, ahead⟩
  exact (pickNewOwner_eq picked chosen owns).trans moved

theorem leastPrio_spec (list : List Nat) (prio : Nat)
    (tasks : ∀ v ∈ list, ∃ p, state.task v = some p) :
    ∃ least, leastPrio state prio list = some least ∧ least ≤ prio ∧
      ∀ v ∈ list, ∀ q, state.task v = some q → least ≤ state.prio q := by
  induction list generalizing prio with
  | nil => exact ⟨prio, rfl, Nat.le_refl _, forall_mem_nil _⟩
  | cons v rest ih =>
    obtain ⟨p, task⟩ := tasks v mem_cons_self
    obtain ⟨least, found, below, all⟩ := ih
      (if state.prio p < prio then state.prio p else prio)
      (forall_mem_cons.mp tasks).2
    have both : least ≤ prio ∧ least ≤ state.prio p := by
      split at below <;> omega
    refine ⟨least, ?_, both.1, ?_⟩
    · rw [leastPrio, waiterPrio_eq task]
      exact found
    · intro u member q owns
      rcases mem_cons.mp member with rfl | later
      · rw [task] at owns
        cases owns
        exact both.2
      · exact all u later q owns

/-- A task that does not wait keeps as much priority as those need who wait for its
locks. -/
theorem Sorted.restorePrio (sorted : Sorted stamp state) (boosted : Boosted state) {p : Nat}
    (runs : state.blockedOn p = none) :
    ∃ after, restorePrio state p = some after ∧ Sorted stamp after ∧ Boosted after ∧
      after.owner = state.owner := by
  have linked := sorted.linked
  have tasks : ∀ v ∈ state.piWaiters p, ∃ q, state.task v = some q := by
    intro v inside
    obtain ⟨_, q, task, _⟩ := linked.queued _ v (linked.pi p v inside).2.1
    exact ⟨q, task⟩
  obtain ⟨least, found, below, all⟩ := leastPrio_spec _ (state.mutexGetprio p) tasks
  have small : least ≤ maxPrio := by
    have own : state.mutexGetprio p ≤ maxPrio := by
      unfold State.mutexGetprio
      split
      · dsimp only [maxPrio, maxRtPrio, maxUserRtPrio]
        omega
      · exact (sorted.normal p).2
    exact Nat.le_trans below own
  unfold RtMutex.restorePrio
  rw [found]
  dsimp only
  split
  · unfold RtMutex.piSetprio
    split
    · exact ⟨state, rfl, sorted, boosted, rfl⟩
    · refine ⟨state.setPrio p least, ?_, ?_, ?_, rfl⟩
      · rw [piWalk, if_neg (Nat.not_lt.mpr small)]
        rw [runs]
      · exact sorted.setPrio_of_same small fun _ _ => linked.rt_setPrio_idle runs
      · intro lock o holds notIdle v inside q task rt
        have other : q ≠ p := by
          rintro rfl
          exact some_ne_none v ((linked.waits inside task).symm.trans runs)
        rw [setPrio_of_ne other] at rt ⊢
        by_cases here : o = p
        · rw [here, setPrio_self]
          apply all v _ q task
          obtain ⟨holder, link⟩ := sorted.on lock v inside ⟨q, task, rt⟩
          have registered := linked.registered lock v inside holder link
          have owns := (linked.pi holder v registered).2.2
          rw [(linked.queued lock v inside).1] at owns
          have same : holder = o := Option.some.inj (owns.symm.trans holds)
          rw [← here, ← same]
          exact registered
        · rw [setPrio_of_ne here]
          exact boosted lock o holds notIdle v inside q task rt
  · exact ⟨state, rfl, sorted, boosted, rfl⟩

/-- Without waiters the owner of a lock does not matter. -/
theorem Sorted.setOwner (sorted : Sorted stamp state) (empty : state.waitList lock = [])
    (owner : Option Nat) : Sorted stamp (state.setOwner lock owner) :=
  { sorted with linked := sorted.linked.setOwner empty owner }

theorem Boosted.setOwner (boosted : Boosted state) (empty : state.waitList lock = [])
    (owner : Option Nat) : Boosted (state.setOwner lock owner) := by
  intro other holder owns notIdle v inside q task rt
  have apart : other ≠ lock := by
    rintro rfl
    rw [show (state.setOwner other owner).waitList other = [] from empty] at inside
    cases inside
  rw [show (state.setOwner lock owner).owner other = state.owner other from
    update_of_ne apart _ _] at owns
  exact boosted other holder owns notIdle v inside q task rt

theorem Sorted.upMutex (sorted : Sorted stamp state) (boosted : Boosted state)
    (holds : state.owner lock = some oldOwner) (runs : state.blockedOn oldOwner = none) :
    ∃ after, upMutex state lock = some after ∧ Sorted stamp after ∧ Boosted after ∧
      ∀ v ∈ state.waitList lock, state.Rt v → ∃ w ∈ state.waitList lock, state.Rt w ∧
        after.owner lock = state.task w ∧
        ∀ u ∈ state.waitList lock, state.Rt u → Ahead stamp state w u := by
  unfold RtMutex.upMutex
  rw [holds]
  dsimp only
  split
  · rename_i empty
    obtain ⟨after, restored, ordered, enough, _⟩ :=
      (sorted.setOwner empty none).restorePrio (boosted.setOwner empty none) runs
    refine ⟨after, restored, ordered, enough, ?_⟩
    intro v inside
    rw [empty] at inside
    cases inside
  · rename_i first rest list
    obtain ⟨next, w, newOwner, picked, waits, owns, handed, best⟩ :=
      sorted.pickNewOwner holds (by rw [list]; exact cons_ne_nil _ _)
    have awake : next.blockedOn oldOwner = none := by
      rw [handed.blockedOn, update_apply]
      split
      · rfl
      · exact runs
    obtain ⟨after, restored, ordered, enough, sameOwner⟩ :=
      (handed.sorted sorted holds waits owns).restorePrio
        (handed.boosted sorted.linked boosted waits owns fun v inside rt => (best v inside rt).2)
          awake
    refine ⟨after, by rw [picked]; exact restored, ordered, enough, ?_⟩
    intro v inside rt
    refine ⟨w, waits, (best v inside rt).1, ?_, fun u member rtU => (best u member rtU).2⟩
    rw [sameOwner, handed.owner, update_self, owns]

end Release

end MagxKernel.RtMutex
