import MagxKernel.RtMutex.Mutex
import Mathlib.Data.List.Nodup

namespace MagxKernel.RtMutex

open List
open Function (update update_idem update_self update_of_ne update_apply forall_update_iff)

/-- The invariant of the three kinds of links. -/
structure Linked (state : State) : Prop where
  queued : ∀ lock, ∀ w ∈ state.waitList lock, state.lock w = lock ∧
    ∃ p, state.task w = some p ∧ state.blockedOn p = some w
  owned : ∀ lock, ∀ w ∈ state.waitList lock, ∃ o, state.owner lock = some o
  blocked : ∀ p w, state.blockedOn p = some w →
    state.task w = some p ∧ w ∈ state.waitList (state.lock w)
  nodup : ∀ lock, (state.waitList lock).Nodup
  pi : ∀ o, ∀ w ∈ state.piWaiters o, state.piList w = .on o ∧
    w ∈ state.waitList (state.lock w) ∧ state.owner (state.lock w) = some o
  registered : ∀ lock, ∀ w ∈ state.waitList lock, ∀ o, state.piList w = .on o →
    w ∈ state.piWaiters o
  piNodup : ∀ o, (state.piWaiters o).Nodup
  asleep : ∀ p w, state.blockedOn p = some w →
    ∃ frame ∈ state.frames, frame.task = p ∧ frame.waiter = w
  frames : (state.frames.map Frame.task).Nodup

section Primitives

variable {state after : State} {lock w o : Nat}

theorem Linked.waits (linked : Linked state) {p : Nat} (inside : w ∈ state.waitList lock)
    (task : state.task w = some p) : state.blockedOn p = some w := by
  obtain ⟨_, q, owns, waits⟩ := linked.queued lock w inside
  obtain rfl : p = q := Option.some.inj (task.symm.trans owns)
  exact waits

/-- The state after a waiter has been taken off every `pi_waiters`. -/
def State.withoutPi (state : State) (w : Nat) (left : PiLink) : State :=
  { state with
    piList := Function.update state.piList w left
    piWaiters := fun p => (state.piWaiters p).erase w }

theorem unlinkPi_eq {left : PiLink} (linked : ∀ p, w ∈ state.piWaiters p → state.piList w = .on p)
    (sound : state.piList w ≠ .poisoned) :
    unlinkPi state w left = some (state.withoutPi w left) := by
  have absent : ∀ p, state.piList w ≠ .on p → (state.piWaiters p).erase w = state.piWaiters p :=
    fun p other => erase_of_not_mem fun inside => other (linked p inside)
  unfold unlinkPi State.withoutPi
  split
  · rename_i empty
    have same : (fun p => (state.piWaiters p).erase w) = state.piWaiters := by
      funext p
      apply absent
      rw [empty]
      exact nofun
    rw [same]
    rfl
  · rename_i owner on
    have same : (fun p => (state.piWaiters p).erase w) =
        update state.piWaiters owner ((state.piWaiters owner).erase w) := by
      funext p
      by_cases here : p = owner
      · rw [here, update_self]
      · rw [update_of_ne here]
        apply absent
        rw [on]
        exact fun same => here (PiLink.on.inj same).symm
    rw [same]
    rfl
  · contradiction

theorem unlinkPi_returns (state : State) (left : PiLink) (sound : ¬state.piList w = .poisoned) :
    ∃ after, unlinkPi state w left = some after := by
  unfold unlinkPi
  split
  · exact ⟨_, rfl⟩
  · exact ⟨_, rfl⟩
  · contradiction

theorem unlinkPi_poisoned {left : PiLink} (poisoned : state.piList w = .poisoned) :
    unlinkPi state w left = none := by
  unfold unlinkPi
  rw [poisoned]

section

variable (linked : Linked state)

include linked

/-- The order of a wait list does not matter for its links. -/
theorem Linked.perm {list : List Nat} (perm : list.Perm (state.waitList lock)) :
    Linked (state.setWaitList lock list) := by
  have member : ∀ other v, v ∈ (state.setWaitList lock list).waitList other ↔
      v ∈ state.waitList other := by
    intro other v
    change v ∈ update state.waitList lock list other ↔ _
    by_cases here : other = lock
    · rw [here, update_self]
      exact perm.mem_iff
    · rw [update_of_ne here]
  constructor
  · exact fun other v inside => linked.queued other v ((member other v).mp inside)
  · exact fun other v inside => linked.owned other v ((member other v).mp inside)
  · intro p v waits
    obtain ⟨task, inside⟩ := linked.blocked p v waits
    exact ⟨task, (member _ v).mpr inside⟩
  · apply (forall_update_iff state.waitList fun _ list => list.Nodup).mpr
    exact ⟨perm.nodup_iff.mpr (linked.nodup lock), fun other _ => linked.nodup other⟩
  · intro p v inside
    obtain ⟨link, waits, holds⟩ := linked.pi p v inside
    exact ⟨link, (member _ v).mpr waits, holds⟩
  · exact fun other v inside => linked.registered other v ((member other v).mp inside)
  · exact linked.piNodup
  · exact linked.asleep
  · exact linked.frames

theorem Linked.setPrio (p prio : Nat) : Linked (state.setPrio p prio) :=
  { linked with }

/-- A waiter that is on no `pi_waiters` is put on those of the owner. -/
theorem Linked.register (waits : w ∈ state.waitList (state.lock w))
    (holds : state.owner (state.lock w) = some o) (empty : state.piList w = .empty) :
    Linked (linkPi state w o) := by
  have absent : ∀ p, w ∉ state.piWaiters p := by
    intro p inside
    have link := (linked.pi p w inside).1
    rw [empty] at link
    cases link
  have link : ∀ v, (linkPi state w o).piList v = if v = w then .on o else state.piList v := by
    intro v
    exact update_apply _ _ _ _
  have member : ∀ p v, v ∈ (linkPi state w o).piWaiters p ↔
      v ∈ state.piWaiters p ∨ (p = o ∧ v = w) := by
    intro p v
    change v ∈ update state.piWaiters o (state.piWaiters o ++ [w]) p ↔ _
    by_cases here : p = o
    · subst here
      simp
    · simp [here]
  refine { linked with pi := ?_, registered := ?_, piNodup := ?_ }
  · intro p v inside
    rw [link]
    rcases (member p v).mp inside with old | ⟨rfl, rfl⟩
    · have distinct : v ≠ w := fun same => absent p (same ▸ old)
      rw [if_neg distinct]
      exact linked.pi p v old
    · rw [if_pos rfl]
      exact ⟨rfl, waits, holds⟩
  · intro other v inside p on
    rw [link] at on
    split at on
    · rename_i here
      cases on
      exact (member o v).mpr (.inr ⟨rfl, here⟩)
    · exact (member p v).mpr (.inl (linked.registered other v inside p on))
  · apply (forall_update_iff state.piWaiters fun _ list => list.Nodup).mpr
    refine ⟨?_, fun p _ => linked.piNodup p⟩
    exact List.Nodup.append (linked.piNodup o) (nodup_singleton w)
      (disjoint_singleton.mpr (absent o))

theorem Linked.withoutPi {left : PiLink} (unregistered : ∀ o, left ≠ .on o) :
    Linked (state.withoutPi w left) := by
  have link : ∀ v, (state.withoutPi w left).piList v = if v = w then left else state.piList v :=
    fun v => update_apply _ _ _ _
  have member : ∀ p v, v ∈ (state.withoutPi w left).piWaiters p ↔ v ≠ w ∧ v ∈ state.piWaiters p :=
    fun p v => (linked.piNodup p).mem_erase_iff
  refine { linked with pi := ?_, registered := ?_, piNodup := ?_ }
  · intro p v inside
    obtain ⟨distinct, old⟩ := (member p v).mp inside
    rw [link, if_neg distinct]
    exact linked.pi p v old
  · intro other v inside p on
    rw [link] at on
    split at on
    · exact absurd on (unregistered p)
    · rename_i distinct
      exact (member p v).mpr ⟨distinct, linked.registered other v inside p on⟩
  · exact fun p => (linked.piNodup p).erase w

theorem Linked.requeue (waits : w ∈ state.waitList (state.lock w))
    (holds : state.owner (state.lock w) = some o) {rt : Bool}
    (moved : requeue state w (state.lock w) o rt = some after) : Linked after := by
  have head : (w :: (state.waitList (state.lock w)).erase w).Perm (state.waitList (state.lock w)) :=
    (perm_cons_erase waits).symm
  unfold RtMutex.requeue at moved
  split at moved
  · split at moved
    · rename_i empty
      cases moved
      exact (linked.register waits holds empty).perm head
    · cases moved
      exact linked
  split at moved
  · by_cases poisoned : state.piList w = .poisoned
    · rw [unlinkPi_poisoned poisoned] at moved
      cases moved
    · rw [unlinkPi_eq (fun p inside => (linked.pi p w inside).1) poisoned] at moved
      cases moved
      apply (linked.withoutPi fun o => PiLink.noConfusion).perm
      exact (perm_append_singleton w _).trans head
  · cases moved
    exact linked

/-- The walk along the owners keeps the links, and the sleeping calls. -/
theorem Linked.walk (prio fuel p : Nat) (walked : piWalk prio fuel state p = some after) :
    Linked after := by
  induction fuel generalizing state p with
  | zero => cases walked
  | succ fuel ih =>
    rw [piWalk] at walked
    split at walked
    · cases walked
    dsimp only at walked
    split at walked
    · cases walked
      exact linked.setPrio p prio
    rename_i w on
    split at walked
    · cases walked
    rename_i owner holds
    split at walked
    · cases walked
    rename_i next moved
    have waits := (linked.blocked p w on).2
    have kept : Linked next := (linked.setPrio p prio).requeue waits holds moved
    split at walked
    · cases walked
      exact kept
    · exact ih kept owner walked

theorem Linked.piSetprio (p prio : Nat) (walked : piSetprio state p prio = some after) :
    Linked after := by
  unfold RtMutex.piSetprio at walked
  split at walked
  · cases walked
    exact linked
  · exact linked.walk prio _ p walked

end

end Primitives

section Block

variable {state after : State} {lock task waiter o : Nat}

/-- A task that runs and a waiter on its stack that no sleeping call uses. -/
structure Ready (state : State) (task waiter : Nat) : Prop where
  running : task ∉ state.frames.map Frame.task
  fresh : waiter ∉ state.frames.map Frame.waiter

section

variable (linked : Linked state)

include linked

theorem Linked.running (running : task ∉ state.frames.map Frame.task) :
    state.blockedOn task = none := by
  cases waits : state.blockedOn task with
  | none => rfl
  | some w =>
    obtain ⟨frame, member, owns, _⟩ := linked.asleep task w waits
    exact absurd (mem_map.mpr ⟨frame, member, owns⟩) running

theorem Linked.fresh (fresh : waiter ∉ state.frames.map Frame.waiter) (lock : Nat) :
    waiter ∉ state.waitList lock := by
  intro inside
  obtain ⟨_, p, _, waits⟩ := linked.queued lock waiter inside
  obtain ⟨frame, member, _, same⟩ := linked.asleep p waiter waits
  exact fresh (mem_map.mpr ⟨frame, member, same⟩)

/-- The running task goes to sleep somewhere in the wait list. -/
theorem Linked.enqueue (ready : Ready state task waiter) (holds : state.owner lock = some o)
    (patience : Patience) {list : List Nat} (perm : list.Perm (waiter :: state.waitList lock)) :
    Linked ((markBlocked { state with frames := ⟨task, waiter, lock, patience⟩ :: state.frames }
      waiter task lock).setWaitList lock list) := by
  have idle := linked.running ready.running
  have absent := linked.fresh ready.fresh
  have unregistered : ∀ p, waiter ∉ state.piWaiters p :=
    fun p inside => absent _ (linked.pi p waiter inside).2.1
  generalize made : (markBlocked
    { state with frames := ⟨task, waiter, lock, patience⟩ :: state.frames }
    waiter task lock).setWaitList lock list = after
  have member : ∀ other v, v ∈ after.waitList other ↔
      v ∈ state.waitList other ∨ (other = lock ∧ v = waiter) := by
    intro other v
    rw [← made]
    change v ∈ update state.waitList lock list other ↔ _
    by_cases here : other = lock
    · rw [here, update_self, perm.mem_iff]
      simp [or_comm]
    · simp [here]
  have same : ∀ other v, v ∈ state.waitList other → v ≠ waiter :=
    fun other v inside equal => absent other (equal ▸ inside)
  have blockedOn : ∀ p, after.blockedOn p = if p = task then some waiter else state.blockedOn p :=
    made ▸ update_apply _ _ _
  have taskOf : ∀ v, after.task v = if v = waiter then some task else state.task v :=
    made ▸ update_apply _ _ _
  have lockOf : ∀ v, after.lock v = if v = waiter then lock else state.lock v :=
    made ▸ update_apply _ _ _
  have link : ∀ v, after.piList v = if v = waiter then .empty else state.piList v :=
    made ▸ update_apply _ _ _
  have owner : after.owner = state.owner := made ▸ rfl
  have piWaiters : after.piWaiters = state.piWaiters := made ▸ rfl
  have frames : after.frames = ⟨task, waiter, lock, patience⟩ :: state.frames := made ▸ rfl
  constructor
  · intro other v inside
    rcases (member other v).mp inside with old | ⟨rfl, rfl⟩
    · obtain ⟨locked, p, owns, waits⟩ := linked.queued other v old
      rw [lockOf, taskOf, if_neg (same other v old), if_neg (same other v old)]
      have distinct : p ≠ task := by
        rintro rfl
        rw [idle] at waits
        cases waits
      exact ⟨locked, p, owns, by rw [blockedOn, if_neg distinct]; exact waits⟩
    · rw [lockOf, taskOf, if_pos rfl, if_pos rfl]
      exact ⟨rfl, task, rfl, by rw [blockedOn, if_pos rfl]⟩
  · intro other v inside
    rw [owner]
    rcases (member other v).mp inside with old | ⟨rfl, rfl⟩
    · exact linked.owned other v old
    · exact ⟨o, holds⟩
  · intro p v waits
    rw [blockedOn] at waits
    split at waits
    · rename_i here
      cases waits
      rw [taskOf, lockOf, if_pos rfl, if_pos rfl, here]
      exact ⟨rfl, (member lock waiter).mpr (.inr ⟨rfl, rfl⟩)⟩
    · obtain ⟨owns, inside⟩ := linked.blocked p v waits
      rw [taskOf, lockOf, if_neg (same _ v inside), if_neg (same _ v inside)]
      exact ⟨owns, (member _ v).mpr (.inl inside)⟩
  · rw [← made]
    apply (forall_update_iff state.waitList fun _ list => list.Nodup).mpr
    refine ⟨?_, fun other _ => linked.nodup other⟩
    exact perm.nodup_iff.mpr (nodup_cons.mpr ⟨absent lock, linked.nodup lock⟩)
  · intro p v inside
    rw [piWaiters] at inside
    have distinct : v ≠ waiter := fun equal => unregistered p (equal ▸ inside)
    obtain ⟨on, waits, owns⟩ := linked.pi p v inside
    rw [link, lockOf, owner, if_neg distinct, if_neg distinct]
    exact ⟨on, (member _ v).mpr (.inl waits), owns⟩
  · intro other v inside p on
    rw [link] at on
    split at on
    · cases on
    rename_i distinct
    rw [piWaiters]
    rcases (member other v).mp inside with old | ⟨_, here⟩
    · exact linked.registered other v old p on
    · exact absurd here distinct
  · rw [piWaiters]
    exact linked.piNodup
  · intro p v waits
    rw [frames]
    rw [blockedOn] at waits
    split at waits
    · rename_i here
      cases waits
      exact ⟨_, mem_cons_self, here.symm, rfl⟩
    · obtain ⟨frame, inside, owns⟩ := linked.asleep p v waits
      exact ⟨frame, mem_cons_of_mem _ inside, owns⟩
  · rw [frames]
    exact nodup_cons.mpr ⟨ready.running, linked.frames⟩

theorem Linked.setOwner (empty : state.waitList lock = []) (owner : Option Nat) :
    Linked (state.setOwner lock owner) := by
  have other : ∀ v, v ∈ state.waitList (state.lock v) →
      (state.setOwner lock owner).owner (state.lock v) = state.owner (state.lock v) := by
    intro v inside
    apply update_of_ne
    intro here
    rw [here, empty] at inside
    cases inside
  refine { linked with owned := ?_, pi := ?_ }
  · intro held v inside
    have locked := (linked.queued held v inside).1
    have waits : v ∈ state.waitList (state.lock v) := by
      rw [locked]
      exact inside
    rw [← locked, other v waits]
    exact linked.owned _ v waits
  · intro p v inside
    obtain ⟨on, waits, owns⟩ := linked.pi p v inside
    exact ⟨on, waits, (other v waits).trans owns⟩

theorem Linked.waitList_eq_nil (free : state.owner lock = none) : state.waitList lock = [] := by
  apply eq_nil_iff_forall_not_mem.mpr
  intro v inside
  obtain ⟨o, holds⟩ := linked.owned lock v inside
  rw [free] at holds
  cases holds

section

variable (ready : Ready state task waiter) (holds : state.owner lock = some o) (patience : Patience)

include ready holds patience

/-- The running task goes to sleep at the head and is registered with the owner. -/
theorem Linked.enqueueHead :
    Linked ((linkPi (markBlocked { state with
      frames := ⟨task, waiter, lock, patience⟩ :: state.frames } waiter task lock) waiter
      o).setWaitList lock (waiter :: state.waitList lock)) := by
  have queued := linked.enqueue ready holds patience
    (List.Perm.refl (waiter :: state.waitList lock))
  generalize marked : (markBlocked _ waiter task lock).setWaitList lock _ = sleeping at queued
  have locked : sleeping.lock waiter = lock := by
    rw [← marked]
    exact update_self _ _ _
  have waits : waiter ∈ sleeping.waitList (sleeping.lock waiter) := by
    rw [locked, ← marked]
    change waiter ∈ update state.waitList lock _ lock
    rw [update_self]
    exact mem_cons_self
  have owned : sleeping.owner (sleeping.lock waiter) = some o := by
    rw [locked, ← marked]
    exact holds
  have empty : sleeping.piList waiter = .empty := by
    rw [← marked]
    exact update_self _ _ _
  have registered := queued.register waits owned empty
  rw [← marked] at registered
  exact registered

theorem Linked.taskBlocksOnLock
    (called : taskBlocksOnLock { state with frames :=
      ⟨task, waiter, lock, patience⟩ :: state.frames }
      waiter task lock = some after) : Linked after := by
  unfold RtMutex.taskBlocksOnLock at called
  split at called
  · cases called
    exact linked.enqueue ready holds patience (perm_append_singleton _ _)
  · rw [holds] at called
    dsimp only at called
    have registered := linked.enqueueHead ready holds patience
    split at called
    · exact registered.piSetprio _ _ called
    · cases called
      exact registered

end

theorem Linked.down (ready : Ready state task waiter) (patience : Patience)
    (called : down state task lock waiter patience = some after) : Linked after := by
  unfold RtMutex.down at called
  split at called
  · rename_i free
    cases called
    exact linked.setOwner (linked.waitList_eq_nil free) (some task)
  · rename_i o holds
    exact linked.taskBlocksOnLock ready holds patience called

theorem Linked.downTrylock : Linked (downTrylock state task lock) := by
  unfold RtMutex.downTrylock
  split
  · rename_i free
    exact linked.setOwner (linked.waitList_eq_nil free) (some task)
  · exact linked

end

end Block

section Release

variable {state after : State} {lock oldOwner newOwner w : Nat}

/-- The state after a waiter has got the lock, field by field. -/
structure HandedOver (state : State) (lock oldOwner w newOwner : Nat) (after : State) : Prop where
  waitList : after.waitList = Function.update state.waitList lock ((state.waitList lock).erase w)
  owner : after.owner = Function.update state.owner lock (some newOwner)
  task : after.task = Function.update state.task w none
  blockedOn : after.blockedOn = Function.update state.blockedOn newOwner none
  lockOf : after.lock = state.lock
  frames : after.frames = state.frames
  prio : after.prio = state.prio
  pid : after.pid = state.pid
  effectivePrio : after.effectivePrio = state.effectivePrio
  piList : ∀ v, after.piList v = if v = w then .empty
    else if v ∈ state.piWaiters oldOwner ∧ state.lock v = lock then .on newOwner else state.piList v
  piWaiters : ∀ p v, v ∈ after.piWaiters p ↔ v ≠ w ∧
    if state.lock v = lock then p = newOwner ∧ v ∈ state.piWaiters oldOwner
    else v ∈ state.piWaiters p
  piNodup : ∀ p, (after.piWaiters p).Nodup

/-- Only the `pi_waiters` move when a lock changes hands. -/
theorem changeOwner_rest (state : State) (lock oldOwner newOwner : Nat) :
    changeOwner state lock oldOwner newOwner =
      { state with
        piList := (changeOwner state lock oldOwner newOwner).piList
        piWaiters := (changeOwner state lock oldOwner newOwner).piWaiters } := by
  unfold changeOwner
  split <;> rfl

theorem changeOwner_frame (state : State) (owner : Nat → Option Nat) (waitList : Nat → List Nat) :
    changeOwner { state with owner := owner, waitList := waitList } lock oldOwner newOwner =
      { changeOwner state lock oldOwner newOwner with owner := owner, waitList := waitList } := by
  unfold changeOwner
  split <;> rfl

/-- The waiters for the lock among those of the old owner, without the one that gets it. -/
def State.heirs (state : State) (w lock oldOwner : Nat) : List Nat :=
  ((state.piWaiters oldOwner).erase w).filter fun u => state.lock u = lock

theorem changeOwner_of_ne (apart : oldOwner ≠ newOwner) :
    changeOwner (state.withoutPi w .empty) lock oldOwner newOwner =
      { state with
        piWaiters := update (update (fun p => (state.piWaiters p).erase w) oldOwner
          (((state.piWaiters oldOwner).erase w).filter fun u => state.lock u ≠ lock)) newOwner
          ((state.piWaiters newOwner).erase w ++ state.heirs w lock oldOwner)
        piList := fun v => if v ∈ state.heirs w lock oldOwner then .on newOwner
          else update state.piList w .empty v } := by
  unfold changeOwner
  rw [if_neg apart]
  rfl

section

variable (linked : Linked state)

include linked

theorem Linked.holder (holds : state.owner lock = some oldOwner) {p v : Nat}
    (inside : v ∈ state.piWaiters p) (locked : state.lock v = lock) : p = oldOwner := by
  have owns := (linked.pi p v inside).2.2
  rw [locked, holds] at owns
  exact (Option.some.inj owns).symm

theorem Linked.mem_heirs (v : Nat) : v ∈ state.heirs w lock oldOwner ↔
    v ≠ w ∧ v ∈ state.piWaiters oldOwner ∧ state.lock v = lock := by
  unfold State.heirs
  rw [mem_filter, (linked.piNodup oldOwner).mem_erase_iff, decide_eq_true_iff, and_assoc]

theorem Linked.changeOwner_piList (v : Nat) :
    (changeOwner (state.withoutPi w .empty) lock oldOwner newOwner).piList v =
      if v = w then .empty
      else if v ∈ state.piWaiters oldOwner ∧ state.lock v = lock then .on newOwner
      else state.piList v := by
  by_cases same : oldOwner = newOwner
  · unfold changeOwner
    rw [if_pos same]
    change update state.piList w .empty v = _
    rw [update_apply]
    by_cases here : v = w
    · rw [if_pos here, if_pos here]
    · rw [if_neg here, if_neg here]
      split
      · rename_i moves
        rw [(linked.pi oldOwner v moves.1).1, same]
      · rfl
  · rw [changeOwner_of_ne same]
    dsimp only
    rw [update_apply]
    have moved : v ∈ state.heirs w lock oldOwner ↔
        v ≠ w ∧ v ∈ state.piWaiters oldOwner ∧ state.lock v = lock := linked.mem_heirs v
    by_cases here : v = w
    · rw [if_pos here, if_neg fun inside => (moved.mp inside).1 here, if_pos here]
    · rw [if_neg here, if_neg here]
      by_cases moves : v ∈ state.piWaiters oldOwner ∧ state.lock v = lock
      · rw [if_pos moves, if_pos (moved.mpr ⟨here, moves⟩)]
      · rw [if_neg moves, if_neg fun inside => moves (moved.mp inside).2]

section

variable (holds : state.owner lock = some oldOwner)

include holds

theorem Linked.changeOwner_piWaiters (p v : Nat) :
    v ∈ (changeOwner (state.withoutPi w .empty) lock oldOwner newOwner).piWaiters p ↔ v ≠ w ∧
      if state.lock v = lock then p = newOwner ∧ v ∈ state.piWaiters oldOwner
      else v ∈ state.piWaiters p := by
  have erased : ∀ q, v ∈ (state.piWaiters q).erase w ↔ v ≠ w ∧ v ∈ state.piWaiters q :=
    fun q => (linked.piNodup q).mem_erase_iff
  have holder : ∀ q, v ∈ state.piWaiters q → state.lock v = lock → q = oldOwner :=
    fun _ => linked.holder holds
  by_cases same : oldOwner = newOwner
  · unfold changeOwner
    rw [if_pos same]
    change v ∈ (state.piWaiters p).erase w ↔ _
    rw [erased]
    apply and_congr_right
    intro _
    split
    · rename_i locked
      constructor
      · intro inside
        have here := holder p inside locked
        exact ⟨here.trans same, here ▸ inside⟩
      · rintro ⟨rfl, inside⟩
        exact same ▸ inside
    · rfl
  · rw [changeOwner_of_ne same]
    dsimp only
    by_cases new : p = newOwner
    · rw [new, update_self, mem_append, linked.mem_heirs, erased]
      by_cases locked : state.lock v = lock
      · have away : v ∉ state.piWaiters newOwner :=
          fun inside => same (holder newOwner inside locked).symm
        simp [locked, away]
      · simp [locked]
    rw [update_of_ne new]
    by_cases old : p = oldOwner
    · rw [old, update_self, mem_filter, erased]
      by_cases locked : state.lock v = lock <;> simp [locked, same]
    · rw [update_of_ne old, erased]
      by_cases locked : state.lock v = lock
      · have away : v ∉ state.piWaiters p := fun inside => old (holder p inside locked)
        simp [locked, away, new]
      · simp [locked]

theorem Linked.changeOwner_piNodup (p : Nat) :
    ((changeOwner (state.withoutPi w .empty) lock oldOwner newOwner).piWaiters p).Nodup := by
  have nodup : ∀ q, ((state.piWaiters q).erase w).Nodup := fun q => (linked.piNodup q).erase w
  by_cases same : oldOwner = newOwner
  · unfold changeOwner
    rw [if_pos same]
    exact nodup p
  · rw [changeOwner_of_ne same]
    refine (forall_update_iff _ fun _ => List.Nodup).mpr ⟨?_, fun q _ =>
      (forall_update_iff _ fun _ => List.Nodup).mpr
        ⟨(nodup oldOwner).filter _, fun q _ => nodup q⟩ q⟩ p
    apply List.Nodup.append (nodup newOwner) ((nodup oldOwner).filter _)
    intro v inNew inHeirs
    have locked := ((linked.mem_heirs v).mp inHeirs).2.2
    exact same (linked.holder holds (mem_of_mem_erase inNew) locked).symm

/-- `lock->owner = NULL` is overwritten before anybody reads it. -/
theorem Linked.handOver_spec
    (called : handOver (state.setOwner lock none) lock oldOwner w newOwner = some after) :
    HandedOver state lock oldOwner w newOwner after := by
  unfold handOver at called
  dsimp only at called
  generalize dequeue : (state.setOwner lock none).setWaitList lock _ = dequeued at called
  have sameList : dequeued.piList = state.piList := dequeue ▸ rfl
  have sameWaiters : dequeued.piWaiters = state.piWaiters := dequeue ▸ rfl
  by_cases poisoned : state.piList w = .poisoned
  · rw [unlinkPi_poisoned (by rw [sameList]; exact poisoned)] at called
    cases called
  have link : ∀ p, w ∈ dequeued.piWaiters p → dequeued.piList w = .on p := by
    intro p inside
    rw [sameWaiters] at inside
    rw [sameList]
    exact (linked.pi p w inside).1
  rw [unlinkPi_eq link (by rw [sameList]; exact poisoned)] at called
  have moved : setNewOwner (dequeued.withoutPi w .empty) lock (some oldOwner) newOwner =
      { changeOwner (state.withoutPi w .empty) lock oldOwner newOwner with
        waitList := update state.waitList lock ((state.waitList lock).erase w)
        owner := update state.owner lock (some newOwner) } := by
    rw [← dequeue]
    change (changeOwner { state.withoutPi w .empty with
      owner := update state.owner lock none
      waitList := update state.waitList lock ((state.waitList lock).erase w) }
      lock oldOwner newOwner).setOwner lock (some newOwner) = _
    rw [changeOwner_frame]
    unfold State.setOwner
    rw [update_idem]
  dsimp only [Option.map_some] at called
  rw [moved, changeOwner_rest] at called
  cases called
  exact ⟨rfl, rfl, rfl, rfl, rfl, rfl, rfl, rfl, rfl, linked.changeOwner_piList,
    linked.changeOwner_piWaiters holds, linked.changeOwner_piNodup holds⟩

end

end

theorem HandedOver.mem_waitList (handed : HandedOver state lock oldOwner w newOwner after)
    (linked : Linked state) (waits : w ∈ state.waitList lock) (other v : Nat) :
    v ∈ after.waitList other ↔ v ≠ w ∧ v ∈ state.waitList other := by
  rw [handed.waitList]
  by_cases here : other = lock
  · rw [here, update_self]
    exact (linked.nodup lock).mem_erase_iff
  · rw [update_of_ne here]
    constructor
    · intro inside
      refine ⟨fun same => here ?_, inside⟩
      rw [← (linked.queued other v inside).1, same, (linked.queued lock w waits).1]
    · exact fun inside => inside.2

theorem HandedOver.linked (handed : HandedOver state lock oldOwner w newOwner after)
    (linked : Linked state) (holds : state.owner lock = some oldOwner)
    (waits : w ∈ state.waitList lock) (owns : state.task w = some newOwner) : Linked after := by
  have member := handed.mem_waitList linked waits
  have slept : state.blockedOn newOwner = some w := linked.waits waits owns
  have awake : ∀ p v, after.blockedOn p = some v → state.blockedOn p = some v ∧ v ≠ w := by
    intro p v blocked
    rw [handed.blockedOn] at blocked
    by_cases here : p = newOwner
    · rw [here, update_self] at blocked
      cases blocked
    · rw [update_of_ne here] at blocked
      refine ⟨blocked, fun same => here ?_⟩
      have task := (linked.blocked p v blocked).1
      rw [same, owns] at task
      exact (Option.some.inj task).symm
  have taskOf : ∀ v, v ≠ w → after.task v = state.task v := by
    intro v distinct
    rw [handed.task, update_of_ne distinct]
  constructor
  · intro other v inside
    obtain ⟨distinct, old⟩ := (member other v).mp inside
    obtain ⟨locked, p, task, blocked⟩ := linked.queued other v old
    rw [handed.lockOf, taskOf v distinct]
    have apart : p ≠ newOwner := by
      rintro rfl
      rw [slept] at blocked
      exact distinct (Option.some.inj blocked).symm
    refine ⟨locked, p, task, ?_⟩
    rw [handed.blockedOn, update_of_ne apart]
    exact blocked
  · intro other v inside
    rw [handed.owner, update_apply]
    split
    · exact ⟨newOwner, rfl⟩
    · exact linked.owned other v ((member other v).mp inside).2
  · intro p v blocked
    obtain ⟨old, distinct⟩ := awake p v blocked
    obtain ⟨task, inside⟩ := linked.blocked p v old
    rw [taskOf v distinct, handed.lockOf]
    exact ⟨task, (member _ v).mpr ⟨distinct, inside⟩⟩
  · rw [handed.waitList]
    exact (forall_update_iff _ fun _ => List.Nodup).mpr
      ⟨(linked.nodup lock).erase w, fun other _ => linked.nodup other⟩
  · intro p v inside
    obtain ⟨distinct, inside⟩ := (handed.piWaiters p v).mp inside
    rw [handed.piList, if_neg distinct, handed.lockOf, handed.owner]
    split at inside
    · rename_i locked
      obtain ⟨rfl, heir⟩ := inside
      rw [if_pos ⟨heir, locked⟩, locked, update_self]
      refine ⟨rfl, (member lock v).mpr ⟨distinct, ?_⟩, rfl⟩
      rw [← locked]
      exact (linked.pi oldOwner v heir).2.1
    · rename_i elsewhere
      obtain ⟨on, queued, holds⟩ := linked.pi p v inside
      rw [if_neg fun heir => elsewhere heir.2, update_of_ne elsewhere]
      exact ⟨on, (member _ v).mpr ⟨distinct, queued⟩, holds⟩
  · intro other v inside p on
    obtain ⟨distinct, old⟩ := (member other v).mp inside
    rw [handed.piList, if_neg distinct] at on
    apply (handed.piWaiters p v).mpr
    apply And.intro distinct
    split at on
    · rename_i heir
      cases on
      rw [if_pos heir.2]
      exact ⟨rfl, heir.1⟩
    · rename_i stranger
      have registered := linked.registered other v old p on
      split
      · rename_i locked
        have here := linked.holder holds registered locked
        exact absurd ⟨here ▸ registered, locked⟩ stranger
      · exact registered
  · exact handed.piNodup
  · intro p v blocked
    rw [handed.frames]
    exact linked.asleep p v (awake p v blocked).1
  · rw [handed.frames]
    exact linked.frames

theorem pickWaiter_mem {best found : Option Nat} {list : List Nat}
    (picked : pickWaiter state best list = some found) :
    found = best ∨ ∃ v ∈ list, found = some v := by
  induction list generalizing best with
  | nil =>
    cases picked
    exact .inl rfl
  | cons v rest ih =>
    have later : ∀ {best' : Option Nat}, best' = best ∨ best' = some v →
        pickWaiter state best' rest = some found → found = best ∨
          ∃ u ∈ v :: rest, found = some u := by
      intro best' kept picked
      rcases ih picked with rfl | ⟨u, member, chosen⟩
      · exact kept.imp_right fun here => ⟨v, mem_cons_self, here⟩
      · exact .inr ⟨u, mem_cons_of_mem _ member, chosen⟩
    rw [pickWaiter.eq_def] at picked
    dsimp only at picked
    split at picked
    · cases picked
    split at picked
    · cases picked
      exact .inl rfl
    split at picked
    · exact later (.inr rfl) picked
    · split at picked
      · cases picked
      split at picked
      · exact later (.inr rfl) picked
      · exact later (.inl rfl) picked

/-- What `pick_new_owner` does: it hands the lock to a waiter of the list. -/
theorem pickNewOwner_cases (called : pickNewOwner state lock oldOwner = some after) :
    ∃ best w newOwner, pickWaiter state none (state.waitList lock) = some best ∧
      best.or (state.waitList lock).head? = some w ∧ w ∈ state.waitList lock ∧
      state.task w = some newOwner ∧ handOver state lock oldOwner w newOwner = some after := by
  unfold pickNewOwner at called
  split at called
  · cases called
  rename_i best picked
  split at called
  · cases called
  rename_i w chosen
  split at called
  · cases called
  rename_i newOwner owns
  refine ⟨best, w, newOwner, picked, chosen, ?_, owns, called⟩
  rcases pickWaiter_mem picked with rfl | ⟨v, member, rfl⟩
  · exact mem_of_mem_head? chosen
  · cases chosen
    exact member

theorem Linked.restorePrio (linked : Linked state) {p : Nat}
    (called : restorePrio state p = some after) : Linked after := by
  unfold RtMutex.restorePrio at called
  split at called
  · cases called
  split at called
  · exact linked.piSetprio _ _ called
  · cases called
    exact linked

theorem Linked.upMutex (linked : Linked state) (called : upMutex state lock = some after) :
    Linked after := by
  unfold RtMutex.upMutex at called
  split at called
  · cases called
  rename_i oldOwner holds
  split at called
  · rename_i empty
    exact (linked.setOwner empty none).restorePrio called
  · obtain ⟨handed, picked, restored⟩ := Option.bind_eq_some_iff.mp called
    obtain ⟨best, w, newOwner, _, _, waits, owns, moved⟩ := pickNewOwner_cases picked
    exact ((linked.handOver_spec holds moved).linked linked holds waits owns).restorePrio restored

end Release

end MagxKernel.RtMutex
