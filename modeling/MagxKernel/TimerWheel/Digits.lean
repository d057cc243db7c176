import MagxKernel.TimerWheel.Plain

namespace MagxKernel.TimerWheel

/-- Jiffies covered by one list of level `n + 2`. -/
def unit (n : Nat) : Nat := 2 ^ (8 + 6 * n)

/-- Where the wheel may keep a timer: in `tv1` less than 256 jiffies ahead, and
in level `n + 2` under the digit of its due jiffy, not after that digit has come
and less than one turn ahead of it. -/
inductive Located (now expires due : Nat) : Slot → Prop
  | near (close : sub32 due now < 256) : Located now expires due ⟨1, due % 256⟩
  | far (n : Nat) (level : n < 4) (same : due = expires) (ahead : due % unit n ≤ sub32 due now)
      (turn : sub32 due now < due % unit n + 64 * unit n) :
      Located now expires due ⟨n + 2, due / unit n % 64⟩

/-- The digit under which the timer is kept is still to come. -/
def Waiting (now due : Nat) (slot : Slot) : Prop :=
  ∀ n, slot.level = n + 2 → due % unit n < sub32 due now

theorem and_tvnMask (value : Nat) : value &&& tvnMask = value % 64 :=
  Nat.and_two_pow_sub_one_eq_mod value 6

theorem and_tvrMask (value : Nat) : value &&& tvrMask = value % 256 :=
  Nat.and_two_pow_sub_one_eq_mod value 8

variable {now expires due : Nat} {slot : Slot}

theorem located_far (n : Nat) (level : n < 4) (lower : unit n ≤ sub32 expires now)
    (turn : sub32 expires now < 64 * unit n) :
    Located now expires expires ⟨n + 2, expires / unit n % 64⟩ ∧
      Waiting now expires ⟨n + 2, expires / unit n % 64⟩ := by
  have positive : 0 < unit n := Nat.two_pow_pos _
  have below := Nat.mod_lt expires positive
  refine ⟨Located.far n level rfl (by omega) (by omega), ?_⟩
  intro m same
  obtain rfl : m = n := by
    have levels : n + 2 = m + 2 := same
    omega
  omega

theorem slotOf_eq (expires now : Nat) :
    slotOf expires now =
      if sub32 expires now < 2 ^ 8 then ⟨1, expires % 256⟩
      else if sub32 expires now < 2 ^ 14 then ⟨2, expires / unit 0 % 64⟩
      else if sub32 expires now < 2 ^ 20 then ⟨3, expires / unit 1 % 64⟩
      else if sub32 expires now < 2 ^ 26 then ⟨4, expires / unit 2 % 64⟩
      else if 2 ^ 31 ≤ sub32 expires now then ⟨1, now % 256⟩
      else ⟨5, expires / unit 3 % 64⟩ := by
  unfold slotOf
  simp only [and_tvnMask, and_tvrMask, Nat.shiftRight_eq_div_pow]
  rfl

theorem slotOf_located (expires now : Nat) :
    Located now expires (dueOf expires now) (slotOf expires now) ∧
      Waiting now (dueOf expires now) (slotOf expires now) := by
  have near : ∀ due, sub32 due now < 256 →
      Located now expires due ⟨1, due % 256⟩ ∧ Waiting now due ⟨1, due % 256⟩ :=
    fun due close => ⟨Located.near close, fun n same => by simp at same⟩
  rw [slotOf_eq, dueOf]
  by_cases past : 2 ^ 31 ≤ sub32 expires now
  · have zero : sub32 now now < 256 := by
      unfold sub32
      omega
    rw [if_neg (by omega), if_neg (by omega), if_neg (by omega), if_neg (by omega),
      if_neg (by omega), if_pos past]
    exact near now zero
  rw [if_pos (by omega), if_neg past]
  split
  · exact near expires (by omega)
  split
  · exact located_far 0 (by decide) (by unfold unit; omega) (by unfold unit; omega)
  split
  · exact located_far 1 (by decide) (by unfold unit; omega) (by unfold unit; omega)
  split
  · exact located_far 2 (by decide) (by unfold unit; omega) (by unfold unit; omega)
  · exact located_far 3 (by decide) (by unfold unit; omega) (by unfold unit; omega)

/-- The timers that `cascade` finds are less than one list of their level ahead. -/
theorem Located.cascaded {n : Nat} (located : Located now expires due ⟨n + 2, now / unit n % 64⟩)
    (round : now % unit n = 0) :
    due = expires ∧ sub32 due now < unit n := by
  generalize place : (⟨n + 2, now / unit n % 64⟩ : Slot) = slot at located
  cases located with
  | near close => simp at place
  | far m level same ahead turn =>
    obtain ⟨levels, digit⟩ := Slot.mk.inj place
    obtain rfl : n = m := by omega
    refine ⟨same, ?_⟩
    rcases n with _ | _ | _ | _ | n
    all_goals simp only [unit, sub32] at *
    all_goals omega

/-- A timer whose digit has come is in the list that `cascade` empties. -/
theorem Located.waiting (located : Located now expires due slot)
    (now_lt : now < 2 ^ 32) (due_lt : due < 2 ^ 32)
    (elsewhere : ∀ n, now % unit n = 0 → slot ≠ ⟨n + 2, now / unit n % 64⟩) :
    Waiting now due slot := by
  cases located with
  | near close => exact fun n same => by simp at same
  | far m level same ahead turn =>
    intro n levels
    obtain rfl : m = n := by
      have equal : m + 2 = n + 2 := levels
      omega
    have away := elsewhere m
    by_contra reached
    have digit : now % unit m = 0 ∧ due / unit m % 64 = now / unit m % 64 := by
      rcases m with _ | _ | _ | _ | m
      all_goals simp only [unit, sub32] at *
      all_goals omega
    exact away digit.1 (by rw [digit.2])

theorem Located.due_eq (located : Located now expires due ⟨1, now % 256⟩) (now_lt : now < 2 ^ 32)
    (due_lt : due < 2 ^ 32) : due = now := by
  generalize place : (⟨1, now % 256⟩ : Slot) = slot at located
  cases located with
  | near close =>
    have digit := (Slot.mk.inj place).2
    unfold sub32 at close
    omega
  | far n => simp at place

theorem Located.slot_eq (located : Located now expires due slot) (waiting : Waiting now due slot)
    (here : due = now) : slot = ⟨1, now % 256⟩ := by
  subst here
  cases located with
  | near close => rfl
  | far n =>
    have later := waiting n rfl
    unfold sub32 at later
    omega

/-- One jiffy later, for every timer that did not expire. -/
theorem Located.advance (located : Located now expires due slot) (waiting : Waiting now due slot)
    (now_lt : now < 2 ^ 32) (due_lt : due < 2 ^ 32) (later : due ≠ now) :
    Located ((now + 1) % 2 ^ 32) expires due slot := by
  have next : sub32 due ((now + 1) % 2 ^ 32) + 1 = sub32 due now := by
    unfold sub32
    omega
  cases located with
  | near close => exact Located.near (by omega)
  | far n level same ahead turn =>
    have strict := waiting n rfl
    exact Located.far n level same (by omega) (by omega)

theorem unit_succ (n : Nat) : unit (n + 1) = unit n * 64 := by
  unfold unit
  rw [Nat.mul_add, ← Nat.add_assoc, Nat.pow_add]

theorem unit_dvd {n m : Nat} (le : n ≤ m) : unit n ∣ unit m :=
  Nat.pow_dvd_pow 2 (by omega)

theorem slotOf_level_lt {expires now n : Nat} (level : n < 4) (close : sub32 expires now < unit n) :
    (slotOf expires now).level < n + 2 := by
  rw [slotOf_eq]
  rcases n with _ | _ | _ | _ | n
  all_goals simp only [unit] at close
  all_goals repeat' split
  all_goals simp only
  all_goals omega

end MagxKernel.TimerWheel
