import Mathlib.Data.List.FinRange
import MagxKernel.Lib.Runs

namespace MagxKernel.PowerIc

open Function Runs

/-- An interrupt bit: whether it is in the second register, and its number. -/
abbrev Event := Bool × Fin 32

/-- Where `power_ic_bh_handler` is: at an access to a register of the first or the second pair, or
in the loops that run the handlers of the events left. After the last one it looks at `PM_INT`. -/
inductive Stage where
  | readStat (reg : Bool)
  | readMask (reg : Bool)
  | writeStat (reg : Bool)
  | writeMask (reg : Bool)
  | run (todo : List Event)
deriving DecidableEq

/-- The registers, the variables of the handler, and for the specification: which events a caller
has unmasked since they were last masked or taken for service, and for how many steps of the
handler such an event has been waiting since it occurred. -/
structure State where
  stat : Event → Bool
  mask : Event → Bool
  isr : Event → Bool
  imr : Event → Bool
  stage : Stage
  armed : Event → Bool
  waited : Event → Option Nat

inductive Op where
  | handler
  | unmask (event : Event)
  | mask (event : Event)
  | occur (event : Event)

namespace State

/-- In the order in which `ffs` finds them. -/
def events : List Event := (List.finRange 32).map (false, ·) ++ (List.finRange 32).map (true, ·)

def pmInt (state : State) : Bool := events.any fun event => state.stat event && !state.mask event

def taken (state : State) (event : Event) : Bool := state.isr event && !state.imr event

/-- One step of `power_ic_bh_handler`. -/
def advance (state : State) : State :=
  match state.stage with
  | .readStat reg =>
    { state with
      isr := fun event => if event.1 = reg then state.stat event else state.isr event
      stage := .readMask reg }
  | .readMask reg =>
    { state with
      imr := fun event => if event.1 = reg then state.mask event else state.imr event
      stage := .writeStat reg }
  | .writeStat reg =>
    -- ones clear the bits of the status register
    { state with
      stat := fun event => if event.1 = reg ∧ state.taken event then false else state.stat event
      stage := .writeMask reg }
  | .writeMask reg =>
    { state with
      mask := fun event => if event.1 = reg then state.imr event || state.isr event
        else state.mask event
      armed := fun event => if event.1 = reg ∧ state.taken event then false else state.armed event
      stage := if reg then .run (events.filter state.taken) else .readStat true }
  | .run (event :: todo) =>
    { state with stage := .run todo, waited := update state.waited event none }
  | .run [] => { state with stage := if state.pmInt then .readStat false else .run [] }

end State

def step (state : State) : Op → Option State
  | .handler => some
    { state.advance with waited := fun event => (state.advance.waited event).map (· + 1) }
  | .unmask event => some
    { state with
      mask := update state.mask event false
      armed := update state.armed event true }
  | .mask event => some
    { state with
      mask := update state.mask event true
      armed := update state.armed event false
      waited := update state.waited event none }
  | .occur event => some
    { state with
      stat := update state.stat event true
      waited := if state.armed event then
        update state.waited event ((state.waited event).or (some 0)) else state.waited }

/-- No event that the handler has read as masked is unmasked before it writes the mask register. -/
def Careful (state : State) : Op → Prop
  | .unmask event => state.imr event = true →
      state.stage ≠ .writeStat event.1 ∧ state.stage ≠ .writeMask event.1
  | _ => True

/-- Any registers, and the handler asleep. -/
def initial (stat mask : Event → Bool) : State :=
  ⟨stat, mask, fun _ => false, fun _ => false, .run [], fun _ => false, fun _ => none⟩

/-- The most steps the handler takes until it looks at `PM_INT` again. -/
def Stage.left : Stage → Nat
  | .readStat reg => if reg then 68 else 72
  | .readMask reg => if reg then 67 else 71
  | .writeStat reg => if reg then 66 else 70
  | .writeMask reg => if reg then 65 else 69
  | .run todo => todo.length

def State.Pending (state : State) (event : Event) : Prop :=
  state.stat event = true ∧ state.mask event = false

/-- The event will be served before the handler looks at `PM_INT` again. -/
def State.Caught (state : State) (event : Event) : Prop :=
  match state.stage with
  | .readStat reg => if reg ∧ event.1 = false then state.taken event = true else state.Pending event
  | .readMask reg =>
    if event.1 = reg then state.isr event = true ∧ state.Pending event
    else if reg then state.taken event = true else state.Pending event
  | .writeStat reg | .writeMask reg =>
    if reg = false ∧ event.1 then state.Pending event else state.taken event = true
  | .run todo => event ∈ todo

structure Timely (state : State) : Prop where
  short : state.stage.left ≤ 72
  agrees : ∀ event, state.stage = .writeStat event.1 ∨ state.stage = .writeMask event.1 →
    state.mask event = false → state.imr event = false
  armed : ∀ event, state.armed event = true → state.mask event = false
  waited : ∀ event n, state.waited event = some n →
    (state.Caught event ∧ n + state.stage.left ≤ 145) ∨
      (state.Pending event ∧ n + state.stage.left ≤ 72)

theorem length_events : State.events.length = 64 := by decide

theorem mem_events (event : Event) : event ∈ State.events := by
  obtain ⟨reg, bit⟩ := event
  cases reg with
  | false | true => simp [State.events]

theorem State.Pending.pmInt {state : State} {event : Event} (pending : state.Pending event) :
    state.pmInt = true :=
  List.any_eq_true.mpr ⟨event, mem_events event, by simp [pending.1, pending.2]⟩

section

variable {state : State} {event : Event} {n : Nat}

theorem taken_of (seen : state.isr event = true) (clear : state.imr event = false) :
    state.taken event = true := by
  rw [State.taken, seen, clear]
  rfl

/-- An event the handler has seen is one step closer to its service. -/
theorem State.Caught.advance (caught : state.Caught event)
    (waiting : state.advance.waited event = some n) : state.advance.Caught event := by
  obtain ⟨stat, mask, isr, imr, stage, armed, waited⟩ := state
  obtain ⟨second, bit⟩ := event
  cases stage with
  | run todo =>
    cases todo with
    | nil => cases caught
    | cons first todo =>
      cases caught with
      | head => simp [State.advance] at waiting
      | tail _ later => exact later
  | readStat reg =>
    cases reg with
    | false => cases second with
      | false => exact ⟨caught.1, caught⟩
      | true => exact caught
    | true => cases second with
      | false => exact caught
      | true => exact ⟨caught.1, caught⟩
  | readMask reg =>
    cases reg with
    | false => cases second with
      | false => exact taken_of caught.1 caught.2.2
      | true => exact caught
    | true => cases second with
      | false => exact caught
      | true => exact taken_of caught.1 caught.2.2
  | writeStat reg =>
    cases reg with
    | false => cases second with
      | false | true => exact caught
    | true => exact caught
  | writeMask reg =>
    cases reg with
    | false => cases second with
      | false | true => exact caught
    | true => exact List.mem_filter.mpr ⟨mem_events _, caught⟩

/-- What the handler has not seen it neither clears nor masks. -/
theorem State.Pending.advance (pending : state.Pending event)
    (agrees : state.stage = .writeMask event.1 → state.mask event = false →
      state.imr event = false) :
    state.advance.Pending event ∨ state.advance.Caught event := by
  obtain ⟨stat, mask, isr, imr, stage, armed, waited⟩ := state
  obtain ⟨second, bit⟩ := event
  obtain ⟨set, clear⟩ := pending
  cases stage with
  | run todo =>
    cases todo with
    | nil | cons first todo => exact .inl ⟨set, clear⟩
  | readStat reg | readMask reg => exact .inl ⟨set, clear⟩
  | writeStat reg =>
    by_cases cleared : second = reg ∧
        State.taken ⟨stat, mask, isr, imr, .writeStat reg, armed, waited⟩ (second, bit) = true
    · obtain ⟨rfl, taken⟩ := cleared
      cases second with
      | false | true => exact .inr taken
    · exact .inl ⟨(if_neg cleared).trans set, clear⟩
  | writeMask reg =>
    by_cases here : second = reg
    · subst here
      have unmasked : imr (second, bit) = false := agrees rfl clear
      cases seen : isr (second, bit) with
      | false => exact .inl ⟨set, (if_pos rfl).trans (Bool.or_eq_false_iff.mpr ⟨unmasked, seen⟩)⟩
      | true =>
        have taken := @taken_of ⟨stat, mask, isr, imr, .writeMask second, armed, waited⟩ _ seen
          unmasked
        cases second with
        | false => exact .inr taken
        | true => exact .inr (List.mem_filter.mpr ⟨mem_events _, taken⟩)
    · exact .inl ⟨set, (if_neg here).trans clear⟩

theorem left_advance (awake : state.stage ≠ .run []) :
    state.advance.stage.left < state.stage.left := by
  obtain ⟨stat, mask, isr, imr, stage, armed, waited⟩ := state
  cases stage with
  | run todo =>
    cases todo with
    | nil => exact absurd rfl awake
    | cons first todo => exact Nat.lt_succ_self _
  | readStat reg | readMask reg | writeStat reg => cases reg <;> simp [State.advance, Stage.left]
  | writeMask reg =>
    cases reg with
    | false => simp [State.advance, Stage.left]
    | true => exact Nat.lt_succ_of_le (length_events ▸ List.length_filter_le _ _)

/-- Asleep, the handler starts over when an event is pending. -/
theorem State.Pending.wakes (pending : state.Pending event) (asleep : state.stage = .run []) :
    state.advance = { state with stage := .readStat false } := by
  simp [State.advance, asleep, pending.pmInt]

theorem Timely.waited_advance (timely : Timely state)
    (waiting : state.advance.waited event = some n) :
    (state.advance.Caught event ∧ n + 1 + state.advance.stage.left ≤ 145) ∨
      (state.advance.Pending event ∧ n + 1 + state.advance.stage.left ≤ 72) := by
  have before : state.waited event = some n := by
    unfold State.advance at waiting
    split at waiting <;> grind
  by_cases asleep : state.stage = .run []
  · have pending : state.Pending event ∧ n ≤ 72 := by
      simpa [State.Caught, asleep, Stage.left] using timely.waited event n before
    rw [pending.1.wakes asleep]
    refine .inl ⟨?_, ?_⟩
    · exact pending.1
    · simp only [Stage.left, Bool.false_eq_true, ↓reduceIte]
      omega
  · have closer := left_advance asleep
    rcases timely.waited event n before with ⟨caught, soon⟩ | ⟨pending, soon⟩
    · exact .inl ⟨caught.advance waiting, by omega⟩
    · rcases pending.advance (fun at' => timely.agrees event (.inr at')) with still | caught
      · exact .inr ⟨still, by omega⟩
      · exact .inl ⟨caught, by omega⟩

end

theorem Timely.handler {state : State} (timely : Timely state) :
    Timely { state.advance with
      waited := fun event => (state.advance.waited event).map (· + 1) } where
  short := by
    by_cases asleep : state.stage = .run []
    · by_cases called : state.pmInt = true <;> simp [State.advance, asleep, called, Stage.left]
    · exact (left_advance asleep).le.trans timely.short
  agrees event := by
    have agrees := timely.agrees event
    obtain ⟨stat, mask, isr, imr, stage, armed, waited⟩ := state
    cases stage with
    | run todo => cases todo with
      | nil =>
        intro here
        simp only [State.advance] at here
        split at here <;> simp at here
      | cons => simp [State.advance]
    | readStat reg => simp [State.advance]
    | readMask reg => simp +contextual [State.advance]
    | writeStat reg => simp_all [State.advance]
    | writeMask reg => cases reg <;> simp [State.advance]
  armed event := by
    have armed := timely.armed event
    have agrees := timely.agrees event
    obtain ⟨stat, mask, isr, imr, stage, armed', waited⟩ := state
    cases stage with
    | run todo => cases todo with
      | nil | cons => exact armed
    | readStat reg | readMask reg | writeStat reg => exact armed
    | writeMask reg => simp [State.advance, State.taken]; grind
  waited event n waiting := by
    obtain ⟨m, before, rfl⟩ := Option.map_eq_some_iff.mp waiting
    exact timely.waited_advance before

/-- A step of another thread that leaves the event pending does not hold it up. -/
theorem Timely.keeps {state next : State} {event : Event} {n : Nat} (timely : Timely state)
    (isr : next.isr = state.isr) (imr : next.imr = state.imr) (stage : next.stage = state.stage)
    (pending : state.Pending event → next.Pending event) (before : state.waited event = some n) :
    (next.Caught event ∧ n + next.stage.left ≤ 145) ∨
      (next.Pending event ∧ n + next.stage.left ≤ 72) := by
  have taken : next.taken event = state.taken event := by simp only [State.taken, isr, imr]
  have caught : state.Caught event → next.Caught event := by
    unfold State.Caught
    split <;> grind
  rw [stage]
  exact (timely.waited event n before).imp (.imp_left caught) (.imp_left pending)

theorem Timely.step {state next : State} {op : Op} (timely : Timely state)
    (careful : Careful state op) (stepped : step state op = some next) : Timely next := by
  have ⟨short, agrees, armed, _⟩ := timely
  cases op with
  | handler =>
    cases stepped
    exact timely.handler
  | unmask changed =>
    cases stepped
    refine ⟨short, fun event at' clear => ?_, fun event set => ?_, fun event n waiting => ?_⟩
    · by_cases same : event = changed
      · subst same
        by_contra masked
        obtain ⟨notStat, notMask⟩ := careful (Bool.not_eq_false _ ▸ masked)
        exact at'.elim notStat notMask
      · exact agrees event at' ((update_of_ne same _ _).symm.trans clear)
    · by_cases same : event = changed
      · exact same ▸ update_self _ _ _
      · exact (update_of_ne same _ _).trans
          (armed event ((update_of_ne same _ _).symm.trans set))
    · refine timely.keeps rfl rfl rfl (fun pending => ⟨pending.1, ?_⟩) waiting
      by_cases same : event = changed
      · exact same ▸ update_self _ _ _
      · exact (update_of_ne same _ _).trans pending.2
  | mask changed =>
    cases stepped
    have other {α : Type} {before : Event → α} {event : Event} {masked wanted : α}
        (found : update before changed masked event = wanted) (differs : masked ≠ wanted) :
        event ≠ changed ∧ before event = wanted := by
      by_cases same : event = changed
      · rw [same, update_self] at found
        exact absurd found differs
      · exact ⟨same, (update_of_ne same _ _).symm.trans found⟩
    refine ⟨short, fun event at' clear => ?_, fun event set => ?_, fun event n waiting => ?_⟩
    · exact agrees event at' (other clear nofun).2
    · obtain ⟨apart, set⟩ := other set nofun
      exact (update_of_ne apart _ _).trans (armed event set)
    · obtain ⟨apart, waiting⟩ := other waiting nofun
      exact timely.keeps rfl rfl rfl
        (fun pending => ⟨pending.1, (update_of_ne apart _ _).trans pending.2⟩) waiting
  | occur changed =>
    cases stepped
    refine ⟨short, agrees, armed, fun event n waiting => ?_⟩
    have stays (pending : state.Pending event) : update state.stat changed true event = true := by
      by_cases same : event = changed
      · exact same ▸ update_self _ _ _
      · exact (update_of_ne same _ _).trans pending.1
    cases before : state.waited event with
    | some old =>
      refine timely.keeps rfl rfl rfl (fun pending => ⟨stays pending, pending.2⟩) ?_
      simp only at waiting
      split at waiting
      · by_cases same : event = changed
        · rwa [same, update_self, ← same, before, Option.some_or, ← before] at waiting
        · rwa [update_of_ne same] at waiting
      · exact waiting
    | none =>
      -- the event begins to wait, since it occurs unmasked
      simp only at waiting
      split at waiting
      · rename_i unmasked
        obtain rfl : event = changed := by
          by_contra apart
          rw [update_of_ne apart, before] at waiting
          cases waiting
        rw [update_self, before] at waiting
        cases waiting
        exact .inr ⟨⟨update_self _ _ _, armed event unmasked⟩, (Nat.zero_add _).trans_le short⟩
      · rw [before] at waiting
        cases waiting

theorem initial_timely (stat mask : Event → Bool) : Timely (initial stat mask) where
  short := Nat.zero_le _
  agrees _ here := by simp [initial] at here
  armed _ armed := by cases armed
  waited _ _ waiting := by cases waiting

/-- When nobody unmasks an event that the handler has read as masked before it writes the mask
register, an event that occurs unmasked is served within 145 steps of the handler. -/
theorem armed_event_served (stat mask : Event → Bool) (ops : List Op) (final : State)
    (careful : Along step Careful (initial stat mask) ops)
    (executed : run step (initial stat mask) ops = some final) (event : Event) (n : Nat)
    (waiting : final.waited event = some n) : n ≤ 145 := by
  have timely : Timely final := run_invariant (fun _ _ _ timely => timely.step) ops _ _
    (initial_timely stat mask) careful executed
  rcases timely.waited event n waiting with ⟨_, soon⟩ | ⟨_, soon⟩
  · omega
  · omega

def lostUnmask : List Op :=
  [.unmask (false, 0), .occur (false, 0), .handler, .handler, .handler,
    -- the handler has read the first mask register
    .unmask (false, 1)] ++ List.replicate 7 .handler ++ [.occur (false, 1)]

theorem unmask_overwritten :
    (run step (initial (fun _ => false) fun _ => true) (lostUnmask ++ .replicate 146 .handler)).bind
      (·.waited (false, 1)) = some 146 := by
  decide +kernel

theorem armed_event_served_idle :
    Along step Careful (initial (fun _ => false) fun _ => true)
        [.unmask (false, 0), .occur (false, 0), .handler] ∧
      ∃ n, n ≤ 145 ∧ (run step (initial (fun _ => false) fun _ => true)
        [.unmask (false, 0), .occur (false, 0), .handler]).bind (·.waited (false, 0)) = some n := by
  refine (and_iff_left_of_imp fun careful => ?_).mpr
    ⟨nofun, fun _ _ => ⟨trivial, fun _ _ => ⟨trivial, fun _ _ => trivial⟩⟩⟩
  exact ⟨1, armed_event_served _ _ _ _ careful rfl (false, 0) 1 rfl, rfl⟩

end MagxKernel.PowerIc
