import Mathlib.Data.List.Nodup
import MagxKernel.TimerWheel.Digits

namespace MagxKernel.TimerWheel

open Runs Function List Option

/-- The wheel holds exactly the pending timers, each in one list, and the work
list the expired ones. -/
structure Refines (base : Wheel) (plain : Plain) : Prop where
  now_eq : plain.now = base.timerJiffies
  now_lt : base.timerJiffies < 2 ^ 32
  expires_eq : plain.expires = base.expires
  expires_lt : ∀ timer, base.expires timer < 2 ^ 32
  pending_iff : ∀ timer, base.pending timer = true ↔ plain.status timer ≠ .idle
  work_nodup : base.workList.Nodup
  work_iff : ∀ timer, timer ∈ base.workList ↔ plain.status timer = .expired
  vec_nodup : ∀ slot, (base.vec slot).Nodup
  vec_unique : ∀ timer first second, timer ∈ base.vec first → timer ∈ base.vec second →
    first = second
  located : ∀ timer slot, timer ∈ base.vec slot → ∃ due, plain.status timer = .pending due ∧
    due < 2 ^ 32 ∧ Located base.timerJiffies (base.expires timer) due slot
  linked : ∀ timer due, plain.status timer = .pending due → ∃ slot, timer ∈ base.vec slot

section Updates

variable {base : Wheel} {plain : Plain} {timer : Timer}

theorem mem_listAddTail (other : Timer) (slot place : Slot) :
    other ∈ (base.listAddTail place timer).vec slot ↔ other ∈ base.vec slot ∨
      (other = timer ∧ slot = place) := by
  unfold Wheel.listAddTail
  by_cases here : slot = place
  · subst here
    simp
  · simp [here]

theorem modTimerAlways_eq (base : Wheel) (timer : Timer) (expires : Nat) :
    base.modTimerAlways timer expires =
      ((base.delTimer timer).setExpires timer expires).internalAddTimer timer := by
  unfold Wheel.modTimerAlways Wheel.delTimer
  split
  · simp [Wheel.internalAddTimer, Wheel.listAddTail, Wheel.setExpires]
  · rfl

section

variable (refines : Refines base plain)

include refines

theorem Refines.not_mem (unlinked : ∀ due, plain.status timer ≠ .pending due) (slot : Slot) :
    timer ∉ base.vec slot := by
  intro member
  obtain ⟨due, status, _⟩ := refines.located timer slot member
  exact unlinked due status

theorem Refines.located_due {slot : Slot} {due : Nat} (member : timer ∈ base.vec slot)
    (status : plain.status timer = .pending due) :
    due < 2 ^ 32 ∧ Located base.timerJiffies (base.expires timer) due slot := by
  obtain ⟨due', status', facts⟩ := refines.located timer slot member
  cases status.symm.trans status'
  exact facts

theorem Refines.idle_of_free (free : ¬ base.pending timer = true) : plain.status timer = .idle := by
  have none := (refines.pending_iff timer).not.mp free
  simpa using none

/-- One timer becomes idle, or pending in the list `place`. -/
theorem Refines.change {after : Wheel} {status : Status} (place : Option Slot)
    (now : after.timerJiffies = base.timerJiffies) (expires : after.expires = base.expires)
    (pending : after.pending = update base.pending timer (decide (status ≠ .idle)))
    (work_nodup : after.workList.Nodup)
    (work : ∀ other, other ∈ after.workList ↔ other ≠ timer ∧ other ∈ base.workList)
    (vec_nodup : ∀ slot, (after.vec slot).Nodup) (vec : ∀ other slot, other ∈ after.vec slot ↔
      other ≠ timer ∧ other ∈ base.vec slot ∨ other = timer ∧ place = some slot)
    (waits : ∀ slot, place = some slot → ∃ due, status = .pending due ∧ due < 2 ^ 32 ∧
      Located base.timerJiffies (base.expires timer) due slot)
    (rests : place = none → status = .idle) : Refines after (plain.setStatus timer status) := by
  have self : (plain.setStatus timer status).status timer = status := update_self _ _ _
  have other : ∀ other, other ≠ timer →
      (plain.setStatus timer status).status other = plain.status other :=
    fun other different => update_of_ne different _ _
  have quiet : status ≠ .expired := by
    rintro rfl
    cases place with
    | none => cases rests rfl
    | some slot =>
      obtain ⟨due, same, _⟩ := waits slot rfl
      cases same
  refine ⟨refines.now_eq.trans now.symm, now ▸ refines.now_lt,
    refines.expires_eq.trans expires.symm,
    expires ▸ refines.expires_lt, ?_, work_nodup, ?_, vec_nodup, ?_, ?_, ?_⟩
  · intro candidate
    by_cases same : candidate = timer
    · simp [same, self, pending]
    · rw [other candidate same, ← refines.pending_iff]
      simp [same, pending]
  · intro candidate
    rw [work]
    by_cases same : candidate = timer
    · simp [same, self, quiet]
    · rw [other candidate same, ← refines.work_iff]
      simp [same]
  · intro candidate first second left right
    rw [vec] at left right
    rcases left with ⟨different, left⟩ | ⟨rfl, left⟩
    · rcases right with ⟨_, right⟩ | ⟨same, _⟩
      · exact refines.vec_unique candidate first second left right
      · exact absurd same different
    · rcases right with ⟨different, _⟩ | ⟨_, right⟩
      · exact absurd rfl different
      · exact Option.some.inj (left.symm.trans right)
  · intro candidate slot member
    rw [now, expires]
    rcases (vec candidate slot).mp member with ⟨different, member⟩ | ⟨rfl, here⟩
    · rw [other candidate different]
      exact refines.located candidate slot member
    · rw [self]
      exact waits slot here
  · intro candidate due status'
    by_cases same : candidate = timer
    · rw [same, self] at status'
      cases place with
      | none => cases status'.symm.trans (rests rfl)
      | some slot => exact ⟨slot, (vec candidate slot).mpr (.inr ⟨same, rfl⟩)⟩
    · rw [other candidate same] at status'
      obtain ⟨slot, member⟩ := refines.linked candidate due status'
      exact ⟨slot, (vec candidate slot).mpr (.inl ⟨same, member⟩)⟩

theorem Refines.delTimer (timer : Timer) :
    Refines (base.delTimer timer) (plain.setStatus timer .idle) := by
  unfold Wheel.delTimer
  split
  · refine refines.change none rfl rfl rfl (refines.work_nodup.erase timer)
      (fun _ => refines.work_nodup.mem_erase_iff) (fun slot => (refines.vec_nodup slot).erase timer)
      (fun other slot => ?_) nofun fun _ => rfl
    change other ∈ (base.vec slot).erase timer ↔ _
    simp [(refines.vec_nodup slot).mem_erase_iff]
  · rename_i free
    have unchanged : plain.setStatus timer .idle = plain := by
      unfold Plain.setStatus
      rw [← refines.idle_of_free free, update_eq_self]
    rw [unchanged]
    exact refines

section

variable (idle : plain.status timer = .idle)

include idle

/-- An idle timer may be given any new `expires`. -/
theorem Refines.setExpires (expires : Nat) (expires_lt : expires < 2 ^ 32) :
    Refines (base.setExpires timer expires)
      { plain with expires := update plain.expires timer expires } := by
  have same : ∀ slot other, other ∈ base.vec slot →
      (base.setExpires timer expires).expires other = base.expires other := by
    intro slot other member
    apply update_of_ne
    rintro rfl
    exact refines.not_mem (by simp [idle]) slot member
  refine { refines with expires_eq := ?_, expires_lt := ?_, located := ?_ }
  · rw [refines.expires_eq]
    rfl
  · exact (forall_update_iff base.expires fun _ expires => expires < 2 ^ 32).mpr
      ⟨expires_lt, fun other _ => refines.expires_lt other⟩
  · intro other slot member
    rw [same slot other member]
    exact refines.located other slot member

/-- An idle timer may be linked into any list where its due jiffy belongs. -/
theorem Refines.listAddTail (place : Slot) (due : Nat) (due_lt : due < 2 ^ 32)
    (located : Located base.timerJiffies (base.expires timer) due place) :
    Refines (base.listAddTail place timer) (plain.setStatus timer (.pending due)) := by
  have absent : ∀ slot, timer ∉ base.vec slot := refines.not_mem (by simp [idle])
  have out : timer ∉ base.workList := (refines.work_iff timer).not.mpr (by simp [idle])
  refine refines.change (some place) rfl rfl rfl refines.work_nodup (fun other => ?_)
    ((forall_update_iff base.vec fun _ => List.Nodup).mpr
      ⟨?_, fun slot _ => refines.vec_nodup slot⟩) (fun other slot => ?_) (fun slot here => ?_) nofun
  · exact ⟨fun member => ⟨fun same => out (same ▸ member), member⟩, And.right⟩
  · exact nodup_append_comm.mpr (nodup_cons.mpr ⟨absent place, refines.vec_nodup place⟩)
  · rw [mem_listAddTail, Option.some.injEq, eq_comm (a := place)]
    by_cases same : other = timer <;> simp [same, absent]
  · cases here
    exact ⟨due, rfl, due_lt, located⟩

theorem Refines.internalAddTimer :
    Refines (base.internalAddTimer timer) (plain.setStatus timer
      (.pending (dueOf (base.expires timer) base.timerJiffies))) := by
  apply refines.listAddTail idle _ _ _ (slotOf_located _ _).1
  exact dueOf_lt (refines.expires_lt timer) refines.now_lt

theorem Refines.arm_idle (expires : Nat) (expires_lt : expires < 2 ^ 32) :
    Refines ((base.setExpires timer expires).internalAddTimer timer) (plain.arm timer expires) := by
  have added := (refines.setExpires idle expires expires_lt).internalAddTimer idle
  have due : dueOf ((base.setExpires timer expires).expires timer)
      (base.setExpires timer expires).timerJiffies = dueOf expires plain.now := by
    rw [refines.now_eq]
    simp [Wheel.setExpires]
  rw [due] at added
  exact added

end

theorem Refines.modTimerAlways (timer : Timer) (expires : Nat) (expires_lt : expires < 2 ^ 32) :
    Refines (base.modTimerAlways timer expires) (plain.arm timer expires) := by
  have idle : (plain.setStatus timer .idle).status timer = .idle := update_self _ _ _
  have armed := (refines.delTimer timer).arm_idle idle expires expires_lt
  have same : (plain.setStatus timer .idle).arm timer expires = plain.arm timer expires := by
    simp [Plain.arm, Plain.setStatus]
  rw [same] at armed
  rw [modTimerAlways_eq]
  exact armed

end

end Updates

section Cascade

variable {base : Wheel} {plain : Plain}

/-- Append every timer of a list to the slot that `place` names. -/
def spread (base : Wheel) (place : Timer → Slot) (timers : List Timer) : Wheel :=
  { base with
    vec := fun slot => base.vec slot ++ timers.filter fun timer => decide (place timer = slot) }

theorem spread_cons (base : Wheel) (place : Timer → Slot) (timer : Timer) (timers : List Timer)
    (pending : base.pending timer = true) :
    spread (base.listAddTail (place timer) timer) place timers =
      spread base place (timer :: timers) := by
  have flags : update base.pending timer true = base.pending := by
    rw [← pending, update_eq_self]
  have lists : (fun slot => (base.listAddTail (place timer) timer).vec slot ++
        timers.filter fun next => decide (place next = slot)) =
      fun slot => base.vec slot ++
        (timer :: timers).filter fun next => decide (place next = slot) := by
    funext slot
    by_cases here : place timer = slot
    · subst here
      simp [Wheel.listAddTail]
    · simp [Wheel.listAddTail, here, Ne.symm here]
  unfold spread
  rw [lists]
  simp [Wheel.listAddTail, flags]

theorem cascadeLoop_eq (base : Wheel) (place : Timer → Slot)
    (placed : ∀ timer, slotOf (base.expires timer) base.timerJiffies = place timer)
    (timers : List Timer) (pending : ∀ timer ∈ timers, base.pending timer = true) :
    base.cascadeLoop timers = some (spread base place timers) := by
  induction timers generalizing base with
  | nil => simp [Wheel.cascadeLoop, spread]
  | cons timer timers ih =>
    have here := pending timer (by simp)
    have added : base.internalAddTimer timer = base.listAddTail (place timer) timer := by
      rw [Wheel.internalAddTimer, placed]
    rw [Wheel.cascadeLoop, here, added, ← spread_cons base place timer timers here]
    apply ih
    · exact placed
    · intro other member
      have flag := pending other (by simp [member])
      by_cases same : other = timer
      · simp [Wheel.listAddTail, same]
      · simpa [Wheel.listAddTail, same] using flag

theorem mem_clear (base : Wheel) (emptied slot : Slot) (timer : Timer) :
    timer ∈ (base.clear emptied).vec slot ↔ slot ≠ emptied ∧ timer ∈ base.vec slot := by
  unfold Wheel.clear
  by_cases here : slot = emptied <;> simp [here]

theorem nodup_clear {emptied : Slot} (nodup : ∀ slot, slot ≠ emptied → (base.vec slot).Nodup)
    (slot : Slot) : ((base.clear emptied).vec slot).Nodup :=
  (forall_update_iff base.vec fun _ => List.Nodup).mpr ⟨nodup_nil, nodup⟩ slot

theorem mem_clear_spread (base : Wheel) (place : Timer → Slot) (timers : List Timer)
    (emptied slot : Slot)
    (timer : Timer) :
    timer ∈ ((spread base place timers).clear emptied).vec slot ↔
      slot ≠ emptied ∧ (timer ∈ base.vec slot ∨ (timer ∈ timers ∧ place timer = slot)) := by
  rw [mem_clear]
  simp [spread]

/-- Moving the timers of one list to where they belong changes nothing. -/
theorem Refines.clear_spread (refines : Refines base plain) (place : Timer → Slot) (emptied : Slot)
    (away : ∀ timer ∈ base.vec emptied, place timer ≠ emptied)
    (located : ∀ timer ∈ base.vec emptied, ∃ due, plain.status timer = .pending due ∧ due < 2 ^ 32 ∧
      Located base.timerJiffies (base.expires timer) due (place timer)) :
    Refines ((spread base place (base.vec emptied)).clear emptied) plain := by
  have mem := mem_clear_spread base place (base.vec emptied) emptied
  refine { refines with vec_nodup := ?_, vec_unique := ?_, located := ?_, linked := ?_ }
  · apply nodup_clear
    intro slot here
    refine nodup_append.mpr ⟨refines.vec_nodup slot, (refines.vec_nodup emptied).filter _, ?_⟩
    intro timer old other new equal
    subst equal
    exact here (refines.vec_unique timer slot emptied old (mem_filter.mp new).1)
  · intro timer first second left right
    obtain ⟨first_ne, left⟩ := (mem first timer).mp left
    obtain ⟨second_ne, right⟩ := (mem second timer).mp right
    have apart : ∀ slot, slot ≠ emptied → timer ∈ base.vec slot → timer ∉ base.vec emptied :=
      fun slot different old new => different (refines.vec_unique timer slot emptied old new)
    rcases left with old | ⟨moved, first_eq⟩
    · rcases right with old' | ⟨moved', second_eq⟩
      · exact refines.vec_unique timer first second old old'
      · exact absurd moved' (apart first first_ne old)
    · rcases right with old' | ⟨moved', second_eq⟩
      · exact absurd moved (apart second second_ne old')
      · exact first_eq.symm.trans second_eq
  · intro timer slot member
    obtain ⟨_, old | ⟨moved, place_eq⟩⟩ := (mem slot timer).mp member
    · exact refines.located timer slot old
    · rw [← place_eq]
      exact located timer moved
  · intro timer due pending
    obtain ⟨slot, member⟩ := refines.linked timer due pending
    by_cases here : slot = emptied
    · subst here
      exact ⟨place timer, (mem _ timer).mpr ⟨away timer member, .inr ⟨member, rfl⟩⟩⟩
    · exact ⟨slot, (mem slot timer).mpr ⟨here, .inl member⟩⟩

/-- Below level `m`, no timer's digit has come. -/
def WaitingBelow (base : Wheel) (plain : Plain) (m : Nat) : Prop :=
  ∀ timer slot due, timer ∈ base.vec slot → plain.status timer = .pending due →
    slot.level < m → Waiting base.timerJiffies due slot

theorem index_eq (base : Wheel) (n : Nat) : base.index n = base.timerJiffies / unit n % 64 := by
  unfold Wheel.index unit
  rw [and_tvnMask, Nat.shiftRight_eq_div_pow, Nat.mul_comm]

section

variable (refines : Refines base plain)

include refines

theorem Refines.cascade (n : Nat) (level : n < 4) (round : base.timerJiffies % unit n = 0)
    (below : WaitingBelow base plain (n + 2)) :
    ∃ next, base.cascade ⟨n + 2, base.index n⟩ = some next ∧ Refines next plain ∧
      next.timerJiffies = base.timerJiffies ∧ WaitingBelow next plain (n + 3) := by
  generalize emptied_eq : (⟨n + 2, base.index n⟩ : Slot) = emptied
  have emptied_digit : emptied = ⟨n + 2, base.timerJiffies / unit n % 64⟩ := by
    rw [← emptied_eq, index_eq]
  obtain ⟨place, placed⟩ : ∃ place : Timer → Slot,
      ∀ timer, slotOf (base.expires timer) base.timerJiffies = place timer := ⟨_, fun _ => rfl⟩
  have found : ∀ timer ∈ base.vec emptied, plain.status timer = .pending (base.expires timer) ∧
      sub32 (base.expires timer) base.timerJiffies < unit n := by
    intro timer member
    obtain ⟨due, status, _, located⟩ := refines.located timer emptied member
    rw [emptied_digit] at located
    obtain ⟨rfl, close⟩ := located.cascaded round
    exact ⟨status, close⟩
  have due_eq : ∀ timer ∈ base.vec emptied,
      dueOf (base.expires timer) base.timerJiffies = base.expires timer := by
    intro timer member
    have close := (found timer member).2
    apply if_pos
    have small : unit n ≤ 2 ^ 26 := Nat.pow_le_pow_right (by decide) (by omega)
    omega
  have lower : ∀ timer ∈ base.vec emptied, (place timer).level < n + 2 := by
    intro timer member
    rw [← placed]
    exact slotOf_level_lt level (found timer member).2
  have pending : ∀ timer ∈ base.vec emptied, base.pending timer = true := by
    intro timer member
    rw [refines.pending_iff, (found timer member).1]
    simp
  have moved : ∀ timer ∈ base.vec emptied,
      Located base.timerJiffies (base.expires timer) (base.expires timer) (place timer) ∧
        Waiting base.timerJiffies (base.expires timer) (place timer) := by
    intro timer member
    have located := slotOf_located (base.expires timer) base.timerJiffies
    rw [due_eq timer member, placed] at located
    exact located
  refine ⟨(spread base place (base.vec emptied)).clear emptied, ?_, ?_, rfl, ?_⟩
  · unfold Wheel.cascade
    rw [cascadeLoop_eq base place placed _ pending]
    rfl
  · apply refines.clear_spread
    · intro timer member same
      have less := lower timer member
      rw [same, emptied_digit] at less
      exact Nat.lt_irrefl _ less
    · intro timer member
      exact ⟨_, (found timer member).1, refines.expires_lt timer, (moved timer member).1⟩
  · intro timer slot due member status bound
    obtain ⟨different, old | ⟨new, rfl⟩⟩ :=
      (mem_clear_spread base place _ emptied slot timer).mp member
    · by_cases deeper : slot.level < n + 2
      · exact below timer slot due old status deeper
      · obtain ⟨due_lt, located⟩ := refines.located_due old status
        apply located.waiting refines.now_lt due_lt
        intro m _ same
        obtain rfl : m = n := by
          rw [same] at bound deeper
          dsimp only at bound deeper
          omega
        exact different (same.trans emptied_digit.symm)
    · obtain rfl : due = base.expires timer :=
        Status.pending.inj (status.symm.trans (found timer new).1)
      exact (moved timer new).2

/-- The levels above the last one that was cascaded. -/
theorem Refines.waiting_above (m : Nat) (below : WaitingBelow base plain (m + 2))
    (running : base.timerJiffies % unit m ≠ 0) (bound : Nat) : WaitingBelow base plain bound := by
  intro timer slot due member status _
  by_cases low : slot.level < m + 2
  · exact below timer slot due member status low
  obtain ⟨due_lt, located⟩ := refines.located_due member status
  apply located.waiting refines.now_lt due_lt
  intro n round same
  have above : m ≤ n := by
    rw [same] at low
    dsimp only at low
    omega
  have multiple := Nat.dvd_trans (unit_dvd above) (Nat.dvd_of_mod_eq_zero round)
  exact running (Nat.mod_eq_zero_of_dvd multiple)

theorem Refines.level_lt (timer : Timer) (slot : Slot) (member : timer ∈ base.vec slot) :
    slot.level < 6 := by
  obtain ⟨due, _, _, located⟩ := refines.located timer slot member
  cases located with
  | near => exact (by decide : 1 < 6)
  | far n level =>
    change n + 2 < 6
    omega

/-- The chain of cascades stops where no digit above has come. -/
theorem Refines.cascadeLevels (n count : Nat) (levels : n + count = 4)
    (round : base.timerJiffies % unit n = 0) (below : WaitingBelow base plain (n + 2)) :
    ∃ next, base.cascadeLevels (List.range' n count) = some next ∧ Refines next plain ∧
      next.timerJiffies = base.timerJiffies ∧ WaitingBelow next plain 6 := by
  induction count generalizing n base with
  | zero =>
    obtain rfl : n = 4 := by omega
    exact ⟨base, rfl, refines, rfl, below⟩
  | succ count ih =>
    obtain ⟨moved, cascaded, refines', same, below'⟩ :=
      refines.cascade n (by omega) round below
    rw [range'_succ, Wheel.cascadeLevels, cascaded, index_eq]
    have digits : base.timerJiffies % unit (n + 1) =
        base.timerJiffies % unit n + unit n * (base.timerJiffies / unit n % 64) := by
      rw [unit_succ, Nat.mod_mul]
    by_cases zero : base.timerJiffies / unit n % 64 = 0
    · simp only [bind_some, zero, if_true]
      rw [round, zero] at digits
      obtain ⟨next, run, facts⟩ := ih refines' (n + 1) (by omega) (by rw [same, digits]; rfl) below'
      rw [same] at facts
      exact ⟨next, run, facts⟩
    · simp only [bind_some, zero, if_false]
      refine ⟨moved, rfl, refines', same, refines'.waiting_above (n + 1) below' ?_ 6⟩
      rw [same, digits, round, Nat.zero_add]
      exact Nat.mul_ne_zero (Nat.ne_of_gt (Nat.two_pow_pos _)) zero

end

theorem and_tvrMask_unit (now : Nat) : now &&& tvrMask = now % unit 0 := and_tvrMask now

/-- Before the splice of an iteration, every digit that has come is cascaded. -/
theorem Refines.cascaded (refines : Refines base plain) :
    ∃ next, (if base.timerJiffies &&& tvrMask = 0 then base.cascadeLevels [0, 1, 2, 3]
        else some base) = some next ∧ Refines next plain ∧
      next.timerJiffies = base.timerJiffies ∧ WaitingBelow next plain 6 := by
  have low : WaitingBelow base plain (0 + 2) := by
    intro timer slot due _ _ bound n level
    omega
  rw [and_tvrMask_unit]
  split
  · rename_i round
    exact refines.cascadeLevels 0 4 rfl round low
  · rename_i running
    exact ⟨base, rfl, refines, rfl, refines.waiting_above 0 low running 6⟩

end Cascade

section Steps

variable {base next : Wheel} {plain : Plain}

section

variable (refines : Refines base plain)

include refines

theorem Refines.none_expired (idle : base.workList = []) (timer : Timer) :
    plain.status timer ≠ .expired := by
  intro expired
  have member := (refines.work_iff timer).mpr expired
  rw [idle] at member
  cases member

/-- The splice: exactly the timers that are due in this jiffy become expired. -/
theorem Refines.splice (idle : base.workList = []) (waiting : WaitingBelow base plain 6) :
    Refines { base.clear ⟨1, base.timerJiffies % 256⟩ with
      timerJiffies := (base.timerJiffies + 1) % 2 ^ 32
      workList := base.vec ⟨1, base.timerJiffies % 256⟩ } plain.advance := by
  have now_eq := refines.now_eq
  obtain ⟨spliced, spliced_eq⟩ : ∃ slot : Slot, slot = ⟨1, base.timerJiffies % 256⟩ := ⟨_, rfl⟩
  rw [← spliced_eq]
  have due_iff : ∀ timer due, plain.status timer = .pending due →
      (due = base.timerJiffies ↔ timer ∈ base.vec spliced) := by
    intro timer due status
    obtain ⟨slot, member⟩ := refines.linked timer due status
    obtain ⟨due_lt, located⟩ := refines.located_due member status
    constructor
    · intro here
      rw [spliced_eq, ← located.slot_eq (waiting timer slot due member status
        (refines.level_lt timer slot member)) here]
      exact member
    · intro now
      rw [refines.vec_unique timer _ _ member now, spliced_eq] at located
      exact located.due_eq refines.now_lt due_lt
  have none_expired := refines.none_expired idle
  have spliced_status : ∀ timer ∈ base.vec spliced,
      plain.status timer = .pending base.timerJiffies := by
    intro timer member
    obtain ⟨due, status, _⟩ := refines.located timer _ member
    rw [status, (due_iff timer due status).mpr member]
  have advanced : ∀ timer, plain.advance.status timer =
      if timer ∈ base.vec spliced then .expired else plain.status timer := by
    intro timer
    change (if plain.status timer = .pending plain.now then Status.expired
      else plain.status timer) = _
    rw [now_eq]
    by_cases member : timer ∈ base.vec spliced
    · rw [if_pos (spliced_status timer member), if_pos member]
    · rw [if_neg member, if_neg]
      exact fun status => member ((due_iff timer _ status).mp rfl)
  have mem_vec : ∀ timer slot, timer ∈ (base.clear spliced).vec slot ↔
      timer ∈ base.vec slot ∧ timer ∉ base.vec spliced := by
    intro timer slot
    rw [mem_clear, and_comm]
    refine and_congr_right fun member => not_congr ⟨fun same => same ▸ member, fun now => ?_⟩
    exact refines.vec_unique timer _ _ member now
  refine ⟨?_, Nat.mod_lt _ (by decide), refines.expires_eq, refines.expires_lt, ?_,
    refines.vec_nodup _, ?_, nodup_clear fun slot _ => refines.vec_nodup slot, ?_, ?_, ?_⟩
  · change (plain.now + 1) % 2 ^ 32 = _
    rw [now_eq]
  · intro timer
    rw [advanced]
    refine (refines.pending_iff timer).trans ?_
    split
    · rename_i member
      rw [spliced_status timer member]
      simp
    · rfl
  · intro timer
    rw [advanced]
    split
    · rename_i member
      simp [member]
    · rename_i absent
      simp [absent, none_expired timer]
  · intro timer first second left right
    exact refines.vec_unique timer first second ((mem_vec timer first).mp left).1
      ((mem_vec timer second).mp right).1
  · intro timer slot member
    obtain ⟨member, absent⟩ := (mem_vec timer slot).mp member
    obtain ⟨due, status, due_lt, located⟩ := refines.located timer slot member
    refine ⟨due, ?_, due_lt, ?_⟩
    · rw [advanced, if_neg absent, status]
    · apply located.advance (waiting timer slot due member status
        (refines.level_lt timer slot member)) refines.now_lt due_lt
      exact fun here => absent ((due_iff timer due status).mp here)
  · intro timer due status
    rw [advanced] at status
    split at status
    · cases status
    rename_i absent
    obtain ⟨slot, member⟩ := refines.linked timer due status
    exact ⟨slot, (mem_vec timer slot).mpr ⟨member, absent⟩⟩

theorem Refines.tick (idle : base.workList = []) : (∀ timer, plain.status timer ≠ .expired) ∧
      ∃ next, base.runIteration = some next ∧ Refines next plain.advance := by
  have none_expired := refines.none_expired idle
  obtain ⟨moved, cascaded, refines', same, waiting⟩ := refines.cascaded
  have idle' : moved.workList = [] := by
    apply eq_nil_iff_forall_not_mem.mpr
    intro timer member
    exact none_expired timer ((refines'.work_iff timer).mp member)
  refine ⟨none_expired, _, ?_, refines'.splice idle' waiting⟩
  unfold Wheel.runIteration
  dsimp only
  rw [cascaded]
  simp [and_tvrMask, same]

theorem Refines.fire {timer : Timer} (fired : base.fire timer = some next) :
    plain.status timer = .expired ∧ Refines next (plain.setStatus timer .idle) := by
  unfold Wheel.fire at fired
  cases work : base.workList with
  | nil =>
    rw [work] at fired
    cases fired
  | cons head rest =>
    rw [work] at fired
    obtain ⟨rfl, rfl⟩ := ite_some_none_eq_some.mp fired
    have nodup := refines.work_nodup
    rw [work] at nodup
    have expired : plain.status head = .expired := (refines.work_iff head).mp (by simp [work])
    refine ⟨expired, refines.change none rfl rfl rfl (nodup_cons.mp nodup).2 (fun other => ?_)
      refines.vec_nodup (fun other slot => ?_) nofun fun _ => rfl⟩
    · rw [work]
      by_cases same : other = head <;> simp [same, (nodup_cons.mp nodup).1]
    · have absent : head ∉ base.vec slot := refines.not_mem (by simp [expired]) slot
      by_cases same : other = head <;> simp [same, absent]

end

/-- Every critical section does what the plain timers do. -/
theorem wheelStep_simulates (base : Wheel) (plain : Plain) (op : Op) (next : Wheel)
    (refines : Refines base plain) (stepped : wheelStep base op = some next) :
    ∃ plain', PlainStep plain op plain' ∧ Refines next plain' := by
  cases op with
  | addTimer timer expires =>
    cases stepped
    exact ⟨_, rfl, refines.modTimerAlways timer _ expires.toNat_lt⟩
  | modTimer timer expires =>
    cases stepped
    have kept : plain.Kept timer expires.toNat ↔
        (base.expires timer = expires.toNat ∧ base.pending timer = true) := by
      unfold Plain.Kept
      rw [refines.expires_eq, refines.pending_iff]
    by_cases same : base.expires timer = expires.toNat ∧ base.pending timer = true
    · refine ⟨plain, .inl ⟨kept.mpr same, rfl⟩, ?_⟩
      rw [Wheel.modTimer, if_pos same]
      exact refines
    · refine ⟨_, .inr ⟨fun early => same (kept.mp early), rfl⟩, ?_⟩
      rw [Wheel.modTimer, if_neg same]
      exact refines.modTimerAlways timer _ expires.toNat_lt
  | addTimerOn timer expires =>
    change base.addTimerOn timer expires.toNat = some next at stepped
    unfold Wheel.addTimerOn at stepped
    split at stepped
    · cases stepped
    rename_i free
    cases stepped
    have idle := refines.idle_of_free free
    exact ⟨_, ⟨idle, rfl⟩, refines.arm_idle idle _ expires.toNat_lt⟩
  | delTimer timer =>
    cases stepped
    exact ⟨_, rfl, refines.delTimer timer⟩
  | tick =>
    obtain ⟨idle, stepped⟩ := ite_none_right_eq_some.mp stepped
    obtain ⟨none_expired, after, ran, refines'⟩ := refines.tick idle
    rw [stepped] at ran
    cases ran
    exact ⟨_, ⟨none_expired, rfl⟩, refines'⟩
  | fire timer =>
    obtain ⟨expired, refines'⟩ := refines.fire stepped
    exact ⟨_, ⟨expired, rfl⟩, refines'⟩

end Steps

/-- The plain timers at boot. -/
def Plain.boot (jiffies : UInt32) : Plain :=
  ⟨jiffies.toNat, fun _ => 0, fun _ => .idle⟩

theorem refines_boot (jiffies : UInt32) : Refines (initTimers jiffies) (Plain.boot jiffies) := by
  refine ⟨rfl, jiffies.toNat_lt, rfl, fun _ => (by decide : 0 < 2 ^ 32), fun timer => ?_,
    nodup_nil, fun timer => ?_, fun _ => nodup_nil, ?_, ?_, ?_⟩
  · simp [initTimers, Plain.boot]
  · simp [initTimers, Plain.boot]
  · exact fun _ _ _ member => (by cases member)
  · exact fun _ _ member => (by cases member)
  · exact fun _ _ pending => (by cases pending)

/-- The operation arms the timer; a `mod_timer` that returns early does not. -/
def Arms (base : Wheel) (timer : Timer) (expires : UInt32) (op : Op) : Prop :=
  op = .addTimer timer expires ∨ op = .addTimerOn timer expires ∨
    (op = .modTimer timer expires ∧
      ¬ (base.expires timer = expires.toNat ∧ base.pending timer = true))

theorem arms_status {base next : Wheel} {plain : Plain} {timer : Timer} {expires : UInt32} {op : Op}
    (refines : Refines base plain) (arms : Arms base timer expires op)
    (stepped : wheelStep base op = some next) :
    ∃ plain', Refines next plain' ∧ plain'.now = plain.now ∧
      plain'.status timer = .pending (dueOf expires.toNat plain.now) := by
  obtain ⟨plain', moved, refines'⟩ := wheelStep_simulates base plain op next refines stepped
  have armed : plain' = plain.arm timer expires.toNat := by
    rcases arms with rfl | rfl | ⟨rfl, rearmed⟩
    · exact moved
    · exact moved.2
    · rcases moved with ⟨kept, _⟩ | ⟨_, armed⟩
      · unfold Plain.Kept at kept
        rw [refines.expires_eq, ← refines.pending_iff] at kept
        exact absurd kept rearmed
      · exact armed
  subst armed
  exact ⟨_, refines', rfl, update_self _ _ _⟩

/-- The number of iterations before the one that calls the timer function. -/
def delayOf (expires now : Nat) : Nat :=
  if sub32 expires now < 2 ^ 31 then sub32 expires now else 0

theorem sub32_dueOf (expires now : Nat) : sub32 (dueOf expires now) now = delayOf expires now := by
  unfold dueOf delayOf
  split
  · rfl
  · unfold sub32
    omega

/-- In every run the wheel does what plain timers do, and the next iteration trips
no assertion. After a timer is armed at `timer_jiffies`, its function is called
exactly once, by the iteration that processes its due jiffy, unless it is touched
before. -/
theorem wheel_fires_when_due (jiffies : UInt32) (ops : List Op) (base : Wheel)
    (executed : run wheelStep (initTimers jiffies) ops = some base) :
    (∃ plain, Reaches PlainStep (Plain.boot jiffies) ops plain ∧ Refines base plain) ∧
    (base.workList = [] → ∃ next, wheelStep base .tick = some next) ∧
    ∀ (timer : Timer) (expires : UInt32) (op : Op) (rest : List Op) (armed final : Wheel),
      Arms base timer expires op → wheelStep base op = some armed →
      run wheelStep armed rest = some final → Untouched timer rest →
      FiresOnce timer (delayOf expires.toNat base.timerJiffies + 1) rest ∧
      ∀ before after middle, rest = before ++ .fire timer :: after →
        run wheelStep armed before = some middle →
        middle.timerJiffies = (dueOf expires.toNat base.timerJiffies + 1) % 2 ^ 32 := by
  obtain ⟨plain, reaches, refines⟩ :=
    run_simulates wheelStep_simulates ops _ base _ (refines_boot jiffies) executed
  refine ⟨⟨plain, reaches, refines⟩, fun idle => ?_, ?_⟩
  · obtain ⟨_, next, ran, _⟩ := refines.tick idle
    exact ⟨next, by rw [wheelStep, if_pos idle, ran]⟩
  intro timer expires op rest armed final arms stepped continued untouched
  obtain ⟨plain', refines', now, status⟩ := arms_status refines arms stepped
  obtain ⟨last, reaches', _⟩ :=
    run_simulates wheelStep_simulates rest armed final plain' refines' continued
  have now_lt : plain'.now < 2 ^ 32 := by
    rw [refines'.now_eq]
    exact refines'.now_lt
  have due_lt := dueOf_lt expires.toNat_lt (now ▸ now_lt)
  have fires := firesOnce_of_pending untouched reaches' status now_lt due_lt
  rw [now, sub32_dueOf, refines.now_eq] at fires
  refine ⟨fires, ?_⟩
  intro before after middle split partly
  obtain ⟨plainMiddle, reachesMiddle, refinesMiddle⟩ :=
    run_simulates wheelStep_simulates before armed middle plain' refines' partly
  have passed := reaches_now now_lt reachesMiddle
  rw [fires.inTime before after split, now, refines.now_eq] at passed
  have base_lt := refines.now_lt
  rw [← refinesMiddle.now_eq, passed]
  unfold delayOf dueOf sub32
  split <;> omega

/-- A timer for jiffy 0, armed in the last jiffy before the counter wraps. -/
theorem wheel_fires_when_due_wrap :
    ∃ armed final, wheelStep (initTimers 0xffffffff) (.addTimer 7 0) = some armed ∧
      run wheelStep armed [.tick, .tick, .fire 7, .tick] = some final ∧
      FiresOnce 7 2 [.tick, .tick, .fire 7, .tick] := by
  have untouched : Untouched 7 [.tick, .tick, .fire 7, .tick] := by
    intro op member expires
    simp only [mem_cons, not_mem_nil, or_false] at member
    rcases member with rfl | rfl | rfl | rfl <;> simp
  have runs : (run wheelStep ((initTimers 0xffffffff).addTimer 7 0)
      [.tick, .tick, .fire 7, .tick]).isSome = true := by
    decide +kernel
  obtain ⟨final, ran⟩ := isSome_iff_exists.mp runs
  have fires := ((wheel_fires_when_due 0xffffffff [] _ rfl).2.2 7 0 (.addTimer 7 0)
    [.tick, .tick, .fire 7, .tick] _ final (.inl rfl) rfl ran untouched).1
  have delay : delayOf (0 : UInt32).toNat (initTimers 0xffffffff).timerJiffies = 1 := by
    decide +kernel
  rw [delay] at fires
  exact ⟨_, final, rfl, ran, fires⟩

end MagxKernel.TimerWheel
