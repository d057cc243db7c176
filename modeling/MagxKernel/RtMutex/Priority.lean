import MagxKernel.RtMutex.Consistency

namespace MagxKernel.RtMutex

open Runs List
open Function (update update_self update_of_ne update_apply)

/-- The task of the waiter has a real-time priority. -/
def State.Rt (state : State) (w : Nat) : Prop :=
  ∃ p, state.task w = some p ∧ state.prio p < maxRtPrio

/-- The order of the wait lists: the real-time waiters are those on `pi_waiters`, stand
in front of all others, and the later ones in front of the earlier ones. `stamp` says
when a waiter became real-time; those that are not yet would get the latest stamp. -/
structure Sorted (stamp : Nat → Nat) (state : State) : Prop where
  linked : Linked state
  on : ∀ lock, ∀ w ∈ state.waitList lock, state.Rt w → ∃ o, state.piList w = .on o
  off : ∀ lock, ∀ w ∈ state.waitList lock, ¬state.Rt w → state.piList w = .empty
  front : ∀ lock, (state.waitList lock).Pairwise fun a b =>
    state.Rt b → state.Rt a ∧ stamp b ≤ stamp a
  late : ∀ lock, ∀ w ∈ state.waitList lock, ¬state.Rt w → ∀ v, stamp v ≤ stamp w
  bounded : ∀ p, state.prio p ≤ maxPrio
  normal : ∀ p, maxRtPrio ≤ state.effectivePrio p ∧ state.effectivePrio p ≤ maxPrio

/-- No owner has less priority than a real-time task that waits for its lock. Idle tasks
are not boosted. -/
def Boosted (state : State) : Prop :=
  ∀ lock o, state.owner lock = some o → state.pid o ≠ 0 → ∀ w ∈ state.waitList lock,
    ∀ p, state.task w = some p → state.prio p < maxRtPrio → state.prio o ≤ state.prio p

section Walk

variable {stamp : Nat → Nat} {state next after : State} {p w o prio : Nat}

theorem Linked.own (linked : Linked state) (blocked : state.blockedOn p = some w) {lock v : Nat}
    (inside : v ∈ state.waitList lock) (task : state.task v = some p) : v = w :=
  Option.some.inj ((linked.waits inside task).symm.trans blocked)

theorem le_maxPrio (rt : prio < maxRtPrio) : prio ≤ maxPrio :=
  Nat.le_trans (Nat.le_of_lt rt) (by decide)

theorem setPrio_self : (state.setPrio p prio).prio p = prio := update_self _ _ _

theorem setPrio_of_ne {q : Nat} (distinct : q ≠ p) : (state.setPrio p prio).prio q = state.prio q :=
  update_of_ne distinct _ _

theorem rtTask_setPrio (rt : prio < maxRtPrio) : (state.setPrio p prio).rtTask p = true := by
  unfold State.rtTask
  rw [setPrio_self]
  exact decide_eq_true rt

theorem State.rt_iff {v q : Nat} (owns : state.task v = some q) :
    state.Rt v ↔ state.prio q < maxRtPrio := by
  simp [State.Rt, owns]

/-- Among the waiters of the lists only the one of the task itself can become
real-time. -/
theorem Linked.rt_setPrio (linked : Linked state) (blocked : state.blockedOn p = some w)
    (rt : prio < maxRtPrio) {lock v : Nat} (inside : v ∈ state.waitList lock) :
    (state.setPrio p prio).Rt v ↔ v = w ∨ state.Rt v := by
  obtain ⟨_, q, owns, waits⟩ := linked.queued lock v inside
  rw [(state.setPrio p prio).rt_iff owns, state.rt_iff owns]
  by_cases here : q = p
  · rw [here, setPrio_self]
    exact iff_of_true rt (.inl (linked.own blocked inside (here ▸ owns)))
  · have distinct : v ≠ w := by
      rintro rfl
      have task := (linked.blocked p v blocked).1
      rw [owns] at task
      exact here (Option.some.inj task)
    rw [setPrio_of_ne here, or_iff_right distinct]

theorem Linked.rt_setPrio_idle (linked : Linked state) (runs : state.blockedOn p = none)
    {lock v : Nat} (inside : v ∈ state.waitList lock) :
    (state.setPrio p prio).Rt v ↔ state.Rt v := by
  obtain ⟨_, q, owns, waits⟩ := linked.queued lock v inside
  have distinct : q ≠ p := by
    rintro rfl
    rw [runs] at waits
    cases waits
  rw [(state.setPrio p prio).rt_iff owns, state.rt_iff owns, setPrio_of_ne distinct]

theorem bounded_setPrio (bounded : ∀ q, state.prio q ≤ maxPrio) (small : prio ≤ maxPrio) :
    ∀ q, (state.setPrio p prio).prio q ≤ maxPrio :=
  (Function.forall_update_iff state.prio fun _ prio => prio ≤ maxPrio).mpr
    ⟨small, fun q _ => bounded q⟩

/-- What a turn of a boosting walk leaves as it is. -/
structure Kept (state next : State) : Prop where
  owner : next.owner = state.owner
  pid : next.pid = state.pid
  task : next.task = state.task
  prio : next.prio = state.prio
  frames : next.frames = state.frames
  member : ∀ lock v, v ∈ next.waitList lock ↔ v ∈ state.waitList lock

theorem requeue_kept {lock : Nat} (waits : w ∈ state.waitList lock)
    (moved : requeue state w lock o true = some next) : Kept state next := by
  unfold requeue at moved
  rw [if_pos rfl] at moved
  split at moved
  · cases moved
    refine ⟨rfl, rfl, rfl, rfl, rfl, ?_⟩
    intro other v
    change v ∈ update state.waitList lock (w :: (state.waitList lock).erase w) other ↔ _
    by_cases here : other = lock
    · rw [here, update_self]
      exact (perm_cons_erase waits).symm.mem_iff
    · rw [update_of_ne here]
  · cases moved
    exact ⟨rfl, rfl, rfl, rfl, rfl, fun _ _ => Iff.rfl⟩

/-- The priorities while the walk is about to give `prio` to the owner `p`. -/
def BoostedFrom (state : State) (p prio : Nat) : Prop :=
  ∀ lock o, state.owner lock = some o → state.pid o ≠ 0 → ∀ w ∈ state.waitList lock,
    ∀ q, state.task w = some q → state.prio q < maxRtPrio →
    if o = p then prio ≤ state.prio q else state.prio o ≤ state.prio q

/-- With its new priority the task satisfies all who wait for it. -/
theorem BoostedFrom.settled (waiting : BoostedFrom state p prio) {lock o v q : Nat}
    (holds : state.owner lock = some o) (notIdle : state.pid o ≠ 0)
    (inside : v ∈ state.waitList lock) (task : state.task v = some q) (other : q ≠ p)
    (rt : (state.setPrio p prio).prio q < maxRtPrio) :
    (state.setPrio p prio).prio o ≤ (state.setPrio p prio).prio q := by
  rw [setPrio_of_ne other] at rt ⊢
  have before := waiting lock o holds notIdle v inside q task rt
  split at before
  · rename_i here
    rw [here, setPrio_self]
    exact before
  · rename_i apart
    rw [setPrio_of_ne apart]
    exact before

/-- Only the task `r` may still lack its due from the owner `p`. -/
def BoostedBut (state : State) (r p : Nat) : Prop :=
  ∀ lock o, state.owner lock = some o → state.pid o ≠ 0 → ∀ w ∈ state.waitList lock,
    ∀ q, state.task w = some q → state.prio q < maxRtPrio →
    state.prio o ≤ state.prio q ∨ (o = p ∧ q = r)

section

variable {r : Nat} (but : BoostedBut state r p)

include but

theorem BoostedBut.boosted
    (enough : state.prio r < maxRtPrio → state.prio p ≤ state.prio r) : Boosted state := by
  intro lock o holds notIdle w inside q task rt
  rcases but lock o holds notIdle w inside q task rt with done | ⟨rfl, rfl⟩
  · exact done
  · exact enough rt

theorem BoostedBut.boostedFrom (lower : state.prio r < state.prio p) :
    BoostedFrom state p (state.prio r) := by
  intro lock o holds notIdle w inside q task rt
  have before := but lock o holds notIdle w inside q task rt
  split
  · rename_i here
    rcases before with done | ⟨_, same⟩
    · rw [here] at done
      omega
    · exact Nat.le_of_eq (congrArg state.prio same.symm)
  · rename_i apart
    exact before.resolve_right fun last => apart last.1

end

theorem requeue_true (state : State) (w lock o : Nat) :
    ∃ next, requeue state w lock o true = some next := by
  unfold requeue
  rw [if_pos rfl]
  split <;> exact ⟨_, rfl⟩

/-- A boosting walk always returns. -/
theorem Linked.walk_returns (linked : Linked state) (rt : prio < maxRtPrio)
    (lower : prio < state.prio p) (fuel : Nat) (enough : state.pending prio < fuel) :
    ∃ after, piWalk prio fuel state p = some after := by
  induction fuel generalizing state p with
  | zero => exact absurd enough (Nat.not_lt_zero _)
  | succ fuel ih =>
    have small : ¬maxPrio < prio := Nat.not_lt.mpr (le_maxPrio rt)
    have isRt := @rtTask_setPrio state p prio rt
    rw [piWalk, if_neg small]
    cases blocked : state.blockedOn p with
    | none => exact ⟨_, rfl⟩
    | some w =>
      have waits := (linked.blocked p w blocked).2
      obtain ⟨owner, holds⟩ := linked.owned _ w waits
      obtain ⟨next, moved⟩ := requeue_true (state.setPrio p prio) w (state.lock w) owner
      have kept : Linked next := (linked.setPrio p prio).requeue waits holds moved
      have fewer := linked.pending_requeue_lt blocked lower moved
      dsimp only
      rw [holds, isRt]
      dsimp only
      rw [moved]
      dsimp only
      split
      · exact ⟨_, rfl⟩
      · rename_i above
        exact ih kept (Nat.lt_of_not_le above) (by omega)

section

variable (sorted : Sorted stamp state)

include sorted

/-- A new priority that makes no waiter real-time and none normal. -/
theorem Sorted.setPrio_of_same (bounded : prio ≤ maxPrio)
    (same : ∀ lock, ∀ v ∈ state.waitList lock, ((state.setPrio p prio).Rt v ↔ state.Rt v)) :
    Sorted stamp (state.setPrio p prio) := by
  constructor
  · exact sorted.linked.setPrio p prio
  · exact fun lock v inside rt => sorted.on lock v inside ((same lock v inside).mp rt)
  · exact fun lock v inside rt =>
      sorted.off lock v inside fun old => rt ((same lock v inside).mpr old)
  · intro lock
    apply (sorted.front lock).imp_of_mem
    intro a b inA inB before rt
    obtain ⟨rtA, older⟩ := before ((same lock b inB).mp rt)
    exact ⟨(same lock a inA).mpr rtA, older⟩
  · exact fun lock v inside rt =>
      sorted.late lock v inside fun old => rt ((same lock v inside).mpr old)
  · exact bounded_setPrio sorted.bounded bounded
  · exact sorted.normal

/-- A waiter that becomes real-time is registered and goes to the head of its list. -/
theorem Sorted.promote (waits : w ∈ state.waitList (state.lock w))
    (holds : state.owner (state.lock w) = some o) (notRt : ¬state.Rt w) (bounded : prio ≤ maxPrio)
    (became : ∀ lock, ∀ v ∈ state.waitList lock,
      ((state.setPrio p prio).Rt v ↔ v = w ∨ state.Rt v)) :
    Sorted stamp ((linkPi (state.setPrio p prio) w o).setWaitList (state.lock w)
      (w :: (state.waitList (state.lock w)).erase w)) := by
  have linked := sorted.linked
  have empty := sorted.off _ w waits notRt
  have latest := sorted.late _ w waits notRt
  have head : (w :: (state.waitList (state.lock w)).erase w).Perm (state.waitList (state.lock w)) :=
    (perm_cons_erase waits).symm
  generalize made : (linkPi (state.setPrio p prio) w o).setWaitList (state.lock w) _ = after
  have rt : ∀ lock, ∀ v ∈ state.waitList lock, (after.Rt v ↔ v = w ∨ state.Rt v) := by
    rw [← made]
    exact became
  have list : after.waitList = update state.waitList (state.lock w)
      (w :: (state.waitList (state.lock w)).erase w) := by
    rw [← made]
    rfl
  have member : ∀ lock v, v ∈ after.waitList lock → v ∈ state.waitList lock := by
    intro lock v inside
    rw [list] at inside
    by_cases here : lock = state.lock w
    · rw [here, update_self] at inside
      exact here ▸ head.mem_iff.mp inside
    · rw [update_of_ne here] at inside
      exact inside
  have link : ∀ v, after.piList v = if v = w then .on o else state.piList v := by
    intro v
    rw [← made]
    exact update_apply _ _ _ _
  constructor
  · rw [← made]
    exact ((linked.setPrio p prio).register waits holds empty).perm head
  · intro lock v inside rtV
    rw [link]
    split
    · exact ⟨o, rfl⟩
    · rename_i distinct
      have old := member lock v inside
      exact sorted.on lock v old (((rt lock v old).mp rtV).resolve_left distinct)
  · intro lock v inside notRtV
    have old := member lock v inside
    rw [rt lock v old, not_or] at notRtV
    rw [link, if_neg notRtV.1]
    exact sorted.off lock v old notRtV.2
  · intro lock
    have transfer : ∀ list : List Nat, (∀ v ∈ list, v ∈ state.waitList lock) → w ∉ list →
        list.Pairwise (fun a b => state.Rt b → state.Rt a ∧ stamp b ≤ stamp a) →
        list.Pairwise fun a b => after.Rt b → after.Rt a ∧ stamp b ≤ stamp a := by
      intro list sub absent ordered
      apply ordered.imp_of_mem
      intro a b inA inB before rtB
      have distinct : b ≠ w := fun same => absent (same ▸ inB)
      obtain ⟨rtA, older⟩ := before (((rt lock b (sub b inB)).mp rtB).resolve_left distinct)
      exact ⟨(rt lock a (sub a inA)).mpr (.inr rtA), older⟩
    rw [list]
    by_cases here : lock = state.lock w
    · rw [here, update_self]
      rw [here] at transfer
      have nodup := linked.nodup (state.lock w)
      apply pairwise_cons.mpr
      constructor
      · exact fun b _ _ => ⟨(rt _ w waits).mpr (.inl rfl), latest b⟩
      · apply transfer
        · exact fun _ => mem_of_mem_erase
        · exact fun inside => (nodup.mem_erase_iff.mp inside).1 rfl
        · exact (sorted.front _).sublist erase_sublist
    · rw [update_of_ne here]
      apply transfer _ (fun v inside => inside) _ (sorted.front lock)
      intro inside
      exact here (linked.queued lock w inside).1.symm
  · intro lock v inside notRtV
    have old := member lock v inside
    rw [rt lock v old, not_or] at notRtV
    exact sorted.late lock v old notRtV.2
  · rw [← made]
    exact bounded_setPrio sorted.bounded bounded
  · rw [← made]
    exact sorted.normal

/-- A turn of the walk that gives a blocked task a real-time priority. -/
theorem Sorted.turn (blocked : state.blockedOn p = some w)
    (holds : state.owner (state.lock w) = some o) (rt : prio < maxRtPrio)
    (moved : requeue (state.setPrio p prio) w (state.lock w) o true = some next) :
    Sorted stamp next := by
  have linked := sorted.linked
  have waits := (linked.blocked p w blocked).2
  have bounded := le_maxPrio rt
  have became : ∀ lock, ∀ v ∈ state.waitList lock,
      ((state.setPrio p prio).Rt v ↔ v = w ∨ state.Rt v) :=
    fun _ _ => linked.rt_setPrio blocked rt
  unfold requeue at moved
  rw [if_pos rfl] at moved
  split at moved
  · rename_i empty
    cases moved
    apply sorted.promote waits holds _ bounded became
    intro old
    obtain ⟨owner, registered⟩ := sorted.on _ w waits old
    exact absurd (empty.symm.trans registered) PiLink.noConfusion
  · rename_i registered
    cases moved
    have already : state.Rt w := by
      by_contra notRt
      exact registered (sorted.off _ w waits notRt)
    apply sorted.setPrio_of_same bounded
    intro lock v inside
    rw [became lock v inside]
    constructor
    · rintro (rfl | old)
      · exact already
      · exact old
    · exact .inr

theorem Sorted.walk (waiting : BoostedFrom state p prio) (rt : prio < maxRtPrio) (fuel : Nat)
    (walked : piWalk prio fuel state p = some after) :
    Sorted stamp after ∧ Boosted after := by
  induction fuel generalizing state p with
  | zero => cases walked
  | succ fuel ih =>
    have small := le_maxPrio rt
    have linked := sorted.linked
    have isRt := @rtTask_setPrio state p prio rt
    rw [piWalk, if_neg (Nat.not_lt.mpr small)] at walked
    dsimp only at walked
    cases blocked : state.blockedOn p with
    | none =>
      rw [blocked] at walked
      cases walked
      constructor
      · exact sorted.setPrio_of_same small fun _ _ => linked.rt_setPrio_idle blocked
      · intro lock o holds notIdle v inside q task rtQ
        apply waiting.settled holds notIdle inside task _ rtQ
        rintro rfl
        exact Option.some_ne_none v ((linked.waits inside task).symm.trans blocked)
    | some w =>
      rw [blocked, isRt] at walked
      dsimp only at walked
      have waits := (linked.blocked p w blocked).2
      split at walked
      · cases walked
      rename_i owner holds
      split at walked
      · cases walked
      rename_i next moved
      have turned := sorted.turn blocked holds rt moved
      have kept : Kept (state.setPrio p prio) next := requeue_kept waits moved
      -- only the waiter of the task itself may still lack its due
      have others : BoostedBut next p owner := by
        intro lock o holds' notIdle v inside q task rtQ
        rw [kept.owner] at holds'
        rw [kept.pid] at notIdle
        rw [kept.member] at inside
        rw [kept.task] at task
        rw [kept.prio] at rtQ ⊢
        by_cases here : q = p
        · subst here
          have same := linked.own blocked inside task
          have locked := (linked.queued lock v inside).1
          rw [same] at locked
          have owns : state.owner lock = some o := holds'
          rw [← locked, holds] at owns
          exact .inr ⟨(Option.some.inj owns).symm, rfl⟩
        · exact .inl (waiting.settled holds' notIdle inside task here rtQ)
      have own : next.prio p = prio := by
        rw [kept.prio]
        exact setPrio_self
      split at walked
      · rename_i satisfied
        cases walked
        refine ⟨turned, others.boosted fun _ => ?_⟩
        rw [own]
        exact satisfied
      · rename_i above
        have lower := others.boostedFrom (by rw [own]; exact Nat.lt_of_not_le above)
        rw [own] at lower
        exact ih turned lower walked

/-- A boosting `pi_setprio` returns with all priorities in order. -/
theorem Sorted.piSetprio (waiting : BoostedFrom state p prio) (rt : prio < maxRtPrio)
    (lower : prio < state.prio p) :
    ∃ after, piSetprio state p prio = some after ∧ Sorted stamp after ∧ Boosted after := by
  unfold RtMutex.piSetprio
  split
  · rename_i idle
    refine ⟨state, rfl, sorted, ?_⟩
    intro lock o holds notIdle w inside q task rtQ
    have before := waiting lock o holds notIdle w inside q task rtQ
    have apart : o ≠ p := fun same => notIdle (same ▸ idle)
    rw [if_neg apart] at before
    exact before
  · have few : state.pending prio ≤ state.frames.length := length_filter_le _ _
    obtain ⟨after, walked⟩ :=
      sorted.linked.walk_returns rt lower (state.frames.length + 2) (by omega)
    exact ⟨after, walked, sorted.walk waiting rt _ walked⟩

end

end Walk

end MagxKernel.RtMutex
