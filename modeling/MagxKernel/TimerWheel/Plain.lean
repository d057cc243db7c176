import MagxKernel.TimerWheel.Wheel
import MagxKernel.Lib.Runs

namespace MagxKernel.TimerWheel

open Runs List Function

inductive Status where
  | idle
  | pending (due : Nat)
  | expired
deriving DecidableEq

/-- Timers without a wheel: each pending timer has the jiffy in which it is due. -/
structure Plain where
  now : Nat
  expires : Timer → Nat
  status : Timer → Status

/-- A timer in the past is due in the next jiffy that is processed. -/
def dueOf (expires now : Nat) : Nat :=
  if sub32 expires now < 2 ^ 31 then expires else now

theorem dueOf_lt {expires now : Nat} (expires_lt : expires < 2 ^ 32) (now_lt : now < 2 ^ 32) :
    dueOf expires now < 2 ^ 32 := by
  unfold dueOf
  split
  · exact expires_lt
  · exact now_lt

namespace Plain

def arm (plain : Plain) (timer : Timer) (expires : Nat) : Plain :=
  { plain with
    expires := update plain.expires timer expires
    status := update plain.status timer (.pending (dueOf expires plain.now)) }

def setStatus (plain : Plain) (timer : Timer) (status : Status) : Plain :=
  { plain with status := update plain.status timer status }

/-- All timers that are due in this jiffy expire. -/
def advance (plain : Plain) : Plain :=
  { plain with
    now := (plain.now + 1) % 2 ^ 32
    status := fun timer =>
      if plain.status timer = .pending plain.now then .expired else plain.status timer }

/-- Does `mod_timer` return early? -/
def Kept (plain : Plain) (timer : Timer) (expires : Nat) : Prop :=
  plain.expires timer = expires ∧ plain.status timer ≠ .idle

end Plain

def PlainStep (plain : Plain) : Op → Plain → Prop
  | .addTimer timer expires, next => next = plain.arm timer expires.toNat
  | .modTimer timer expires, next =>
    (plain.Kept timer expires.toNat ∧ next = plain) ∨
      (¬ plain.Kept timer expires.toNat ∧ next = plain.arm timer expires.toNat)
  | .addTimerOn timer expires, next =>
    plain.status timer = .idle ∧ next = plain.arm timer expires.toNat
  | .delTimer timer, next => next = plain.setStatus timer .idle
  | .tick, next => (∀ timer, plain.status timer ≠ .expired) ∧ next = plain.advance
  | .fire timer, next => plain.status timer = .expired ∧ next = plain.setStatus timer .idle

/-- The number of jiffies that a list of operations processes. -/
def ticks (ops : List Op) : Nat := ops.count .tick

/-- No operation arms or deletes the timer. -/
def Untouched (timer : Timer) (ops : List Op) : Prop :=
  ∀ op ∈ ops, ∀ expires, op ≠ .addTimer timer expires ∧ op ≠ .modTimer timer expires ∧
    op ≠ .addTimerOn timer expires ∧ op ≠ .delTimer timer

/-- The timer function is called in the iteration that `delay` ticks begin, once
and for certain as soon as another iteration begins. -/
structure FiresOnce (timer : Timer) (delay : Nat) (ops : List Op) : Prop where
  inTime : ∀ before after, ops = before ++ .fire timer :: after → ticks before = delay
  once : ops.count (.fire timer) ≤ 1
  certain : delay < ticks ops → ops.count (.fire timer) = 1

section FiresOnce

variable {timer : Timer} {delay : Nat} {op : Op} {ops : List Op}

theorem FiresOnce.nil : FiresOnce timer delay [] :=
  ⟨fun before after split => by simp at split, by simp, by simp [ticks]⟩

theorem ticks_cons (op : Op) (ops : List Op) : ticks (op :: ops) = ticks [op] + ticks ops := by
  rw [ticks, ticks, ticks, ← count_append, singleton_append]

section

variable (rest : FiresOnce timer delay ops)

include rest

/-- The function is not called in the first step. -/
theorem FiresOnce.wait (noFire : op ≠ .fire timer) :
    FiresOnce timer (ticks [op] + delay) (op :: ops) := by
  refine ⟨?_, ?_, ?_⟩
  · intro before after split
    cases before with
    | nil => exact absurd (List.cons.inj split).1 noFire
    | cons first before =>
      obtain ⟨rfl, rest_eq⟩ := List.cons.inj split
      rw [ticks_cons op before, rest.inTime before after rest_eq]
  · rw [count_cons_of_ne noFire]
    exact rest.once
  · rw [ticks_cons op ops, count_cons_of_ne noFire]
    exact fun more => rest.certain (Nat.lt_of_add_lt_add_left more)

theorem FiresOnce.skip (noTick : op ≠ .tick) (noFire : op ≠ .fire timer) :
    FiresOnce timer delay (op :: ops) := by
  have still : ticks [op] = 0 := count_cons_of_ne noTick
  have waited := rest.wait noFire
  rwa [still, Nat.zero_add] at waited

theorem FiresOnce.tick : FiresOnce timer (delay + 1) (.tick :: ops) := by
  have waited : FiresOnce timer (ticks [.tick] + delay) (.tick :: ops) := rest.wait (by simp)
  rw [Nat.add_comm]
  exact waited

end

theorem FiresOnce.fire (rest : ops.count (.fire timer) = 0) :
    FiresOnce timer 0 (.fire timer :: ops) := by
  refine ⟨?_, ?_, ?_⟩
  · intro before after split
    cases before with
    | nil => rfl
    | cons first before =>
      rw [(List.cons.inj split).2] at rest
      simp at rest
  · exact Nat.le_of_eq (by rw [count_cons_self, rest])
  · intro _
    rw [count_cons_self, rest]

end FiresOnce

section PlainRuns

variable {timer : Timer} {op : Op} {ops : List Op} {plain next final : Plain}

/-- Operations on other timers, and the calls of their functions. -/
theorem PlainStep.frame (stepped : PlainStep plain op next) (untouched : Untouched timer [op])
    (noTick : op ≠ .tick) (noFire : op ≠ .fire timer) :
    next.status timer = plain.status timer ∧ next.now = plain.now := by
  have alone := untouched op (by simp)
  cases op with
  | tick => exact absurd rfl noTick
  | addTimer other expires =>
    obtain rfl : next = _ := stepped
    exact ⟨update_of_ne (fun same => (alone expires).1 (by rw [same])) _ _, rfl⟩
  | modTimer other expires =>
    rcases stepped with ⟨_, rfl⟩ | ⟨_, rfl⟩
    · exact ⟨rfl, rfl⟩
    · exact ⟨update_of_ne (fun same => (alone expires).2.1 (by rw [same])) _ _, rfl⟩
  | addTimerOn other expires =>
    obtain ⟨_, rfl⟩ := stepped
    exact ⟨update_of_ne (fun same => (alone expires).2.2.1 (by rw [same])) _ _, rfl⟩
  | delTimer other =>
    obtain rfl : next = _ := stepped
    exact ⟨update_of_ne (fun same => (alone 0).2.2.2 (by rw [same])) _ _, rfl⟩
  | fire other =>
    obtain ⟨_, rfl⟩ := stepped
    exact ⟨update_of_ne (fun same => noFire (by rw [same])) _ _, rfl⟩

theorem Untouched.tail (untouched : Untouched timer (op :: ops)) : Untouched timer ops :=
  (forall_mem_cons.mp untouched).2

theorem Untouched.head (untouched : Untouched timer (op :: ops)) : Untouched timer [op] := by
  intro other member
  exact untouched other (by simpa using .inl (mem_singleton.mp member))

section

variable (untouched : Untouched timer ops) (reaches : Reaches PlainStep plain ops final)

include untouched reaches

theorem count_fire_of_idle (idle : plain.status timer = .idle) : ops.count (.fire timer) = 0 := by
  induction ops generalizing plain with
  | nil => rfl
  | cons op ops ih =>
    obtain ⟨next, stepped, rest⟩ := reaches
    have noFire : op ≠ .fire timer := by
      rintro rfl
      rw [stepped.1] at idle
      cases idle
    rw [count_cons_of_ne noFire]
    apply ih untouched.tail rest
    by_cases tick : op = .tick
    · subst tick
      rw [stepped.2]
      simp [Plain.advance, idle]
    · rw [(stepped.frame untouched.head tick noFire).1, idle]

theorem firesOnce_of_expired (expired : plain.status timer = .expired) : FiresOnce timer 0 ops := by
  induction ops generalizing plain with
  | nil => exact FiresOnce.nil
  | cons op ops ih =>
    obtain ⟨next, stepped, rest⟩ := reaches
    by_cases fire : op = .fire timer
    · subst fire
      apply FiresOnce.fire
      apply count_fire_of_idle untouched.tail rest
      rw [stepped.2]
      exact update_self _ _ _
    · have noTick : op ≠ .tick := by
        rintro rfl
        exact stepped.1 timer expired
      have frame := stepped.frame untouched.head noTick fire
      exact (ih untouched.tail rest (frame.1.trans expired)).skip noTick fire

/-- A pending timer expires when its due jiffy is processed. -/
theorem firesOnce_of_pending {due : Nat} (pending : plain.status timer = .pending due)
    (now_lt : plain.now < 2 ^ 32) (due_lt : due < 2 ^ 32) :
    FiresOnce timer (sub32 due plain.now + 1) ops := by
  induction ops generalizing plain with
  | nil => exact FiresOnce.nil
  | cons op ops ih =>
    obtain ⟨next, stepped, rest⟩ := reaches
    by_cases tick : op = .tick
    · subst tick
      obtain ⟨_, rfl⟩ := stepped
      apply FiresOnce.tick
      by_cases here : due = plain.now
      · have zero : sub32 due plain.now = 0 := by
          unfold sub32
          omega
        rw [zero]
        apply firesOnce_of_expired untouched.tail rest
        simp [Plain.advance, pending, here]
      · have status : plain.advance.status timer = .pending due := by
          simp [Plain.advance, pending, here]
        have now : plain.advance.now = (plain.now + 1) % 2 ^ 32 := rfl
        have later := ih untouched.tail rest status (by omega)
        have step : sub32 due plain.advance.now + 1 = sub32 due plain.now := by
          unfold sub32
          omega
        rw [step] at later
        exact later
    · have noFire : op ≠ .fire timer := by
        rintro rfl
        rw [stepped.1] at pending
        cases pending
      obtain ⟨status, now⟩ := stepped.frame untouched.head tick noFire
      have later := ih untouched.tail rest (status.trans pending) (by omega)
      rw [now] at later
      exact later.skip tick noFire

end

theorem PlainStep.now_eq (stepped : PlainStep plain op next) (now_lt : plain.now < 2 ^ 32) :
    next.now = (plain.now + ticks [op]) % 2 ^ 32 := by
  cases op with
  | tick =>
    obtain ⟨_, rfl⟩ := stepped
    rfl
  | addTimer timer expires | delTimer timer =>
    obtain rfl : next = _ := stepped
    exact (Nat.mod_eq_of_lt now_lt).symm
  | modTimer timer expires =>
    rcases stepped with ⟨_, rfl⟩ | ⟨_, rfl⟩
    · exact (Nat.mod_eq_of_lt now_lt).symm
    · exact (Nat.mod_eq_of_lt now_lt).symm
  | addTimerOn timer expires | fire timer =>
    obtain ⟨_, rfl⟩ := stepped
    exact (Nat.mod_eq_of_lt now_lt).symm

/-- Only ticks move the time. -/
theorem reaches_now (now_lt : plain.now < 2 ^ 32) (reaches : Reaches PlainStep plain ops final) :
    final.now = (plain.now + ticks ops) % 2 ^ 32 := by
  induction ops generalizing plain with
  | nil =>
    obtain rfl : final = plain := reaches
    exact (Nat.mod_eq_of_lt now_lt).symm
  | cons op ops ih =>
    obtain ⟨next, stepped, rest⟩ := reaches
    have moved := stepped.now_eq now_lt
    have later := ih (by rw [moved]; exact Nat.mod_lt _ (by decide)) rest
    rw [ticks_cons]
    omega

end PlainRuns

end MagxKernel.TimerWheel
