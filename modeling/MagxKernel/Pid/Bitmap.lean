import MagxKernel.Lib.Runs
import MagxKernel.Pid.Hash

namespace MagxKernel.Pid

open CircularList Function Option

def pageSize : Nat := 4096

def bitsPerPage : Nat := pageSize * 8

def pidMaxLimit : Nat := 0x8000

def pidmapEntries : Nat := (pidMaxLimit + 8 * pageSize - 1) / pageSize / 8

/-- An entry of `pidmap_array`. Its page is allocated on first use. -/
structure Pidmap where
  nrFree : Int
  page : Option (Nat → Bool)

/-- Clear the bit of a number; there is none outside the array or without the page. -/
def freePidmap (pidmapArray : Nat → Pidmap) (pid : Int) : Option (Nat → Pidmap) :=
  let index := (pid % 2 ^ 32).toNat / bitsPerPage
  let offset := (pid % 2 ^ 32).toNat % bitsPerPage
  if index < pidmapEntries then
    (pidmapArray index).page.map fun page =>
      update pidmapArray index
        ⟨(pidmapArray index).nrFree + 1, some (update page offset false)⟩
  else none

/-- The number has a bit. -/
def HasBit (pidmapArray : Nat → Pidmap) (pid : Int) : Prop :=
  0 ≤ pid ∧ pid.toNat / bitsPerPage < pidmapEntries ∧
    (pidmapArray (pid.toNat / bitsPerPage)).page.isSome = true

/-- The hash tables of all types and the bitmap. -/
structure PidState where
  pidhashShift : Nat
  tables : PidType → Table
  pidmapArray : Nat → Pidmap

namespace PidState

def findPid (state : PidState) (type : PidType) (nr : Int) : Option Task :=
  (state.tables type).findPid state.pidhashShift nr

def setTable (state : PidState) (type : PidType) (table : Table) : PidState :=
  { state with tables := update state.tables type table }

def attachPid (state : PidState) (task : Task) (type : PidType) (nr : Int) : Option PidState :=
  ((state.tables type).attachPid state.pidhashShift task nr).map (state.setTable type)

/-- `__detach_pid`. -/
def detach (state : PidState) (task : Task) (type : PidType) : Option (PidState × Int) :=
  ((state.tables type).detach state.pidhashShift task).map fun (table, nr) =>
    (state.setTable type table, nr)

def detachPid (state : PidState) (task : Task) (type : PidType) : Option PidState :=
  (state.detach task type).bind fun (state, nr) =>
    if nr = 0 then some state
    else if [PidType.sid, .pgid, .tgid, .pid].any fun tmp =>
        tmp ≠ type ∧ (state.findPid tmp nr).isSome = true then some state
    else (freePidmap state.pidmapArray nr).map fun pidmapArray =>
      { state with pidmapArray := pidmapArray }

end PidState

/-- The calls under `tasklist_lock`. -/
inductive Call where
  | attachPid (task : Task) (type : PidType) (nr : Int)
  /-- `__detach_pid`, whose caller attaches the number again -/
  | detach (task : Task) (type : PidType)
  | detachPid (task : Task) (type : PidType)

def step (state : PidState) : Call → Option PidState
  | .attachPid task type nr => state.attachPid task type nr
  | .detach task type => (state.detach task type).map Prod.fst
  | .detachPid task type => state.detachPid task type

/-- Which number a task has, by type. -/
abbrev Attached := PidType → Task → Option Int

def Attached.set (attached : Attached) (type : PidType) (task : Task) (nr : Option Int) :
    Attached :=
  update attached type (update (attached type) task nr)

def attach (attached : Attached) : Call → Attached
  | .attachPid task type nr => attached.set type task (some nr)
  | .detach task type => attached.set type task none
  | .detachPid task type => attached.set type task none

/-- Who has which number after the calls. -/
def attachments (calls : List Call) : Attached := calls.foldl attach fun _ _ => none

/-- A task is attached at most once by type, with a number that has a bit, and detached when
it is attached. -/
def Allowed (pidmapArray : Nat → Pidmap) (attached : Attached) : Call → Prop
  | .attachPid task type nr => attached type task = none ∧ HasBit pidmapArray nr
  | .detach task type => (attached type task).isSome = true
  | .detachPid task type => (attached type task).isSome = true

instance (pidmapArray : Nat → Pidmap) (pid : Int) : Decidable (HasBit pidmapArray pid) :=
  inferInstanceAs (Decidable (_ ∧ _ ∧ _))

instance (pidmapArray : Nat → Pidmap) (attached : Attached) :
    (call : Call) → Decidable (Allowed pidmapArray attached call)
  | .attachPid _ _ _ => inferInstanceAs (Decidable (_ ∧ _))
  | .detach _ _ => inferInstanceAs (Decidable (_ = _))
  | .detachPid _ _ => inferInstanceAs (Decidable (_ = _))

/-- No other attachment has the number. -/
def Attached.Last (attached : Attached) (task : Task) (type : PidType) (nr : Int) : Prop :=
  ∀ other kind, attached kind other = some nr → kind = type ∧ other = task

/-- How the tasks with one number of one type hang together. -/
structure Shown (state : PidState) (attached : Attached) (type : PidType) (nr : Int) (rep : Task)
    (rest : List Task) : Prop where
  found : state.findPid type nr = some rep
  ring : Ring (state.tables type).pidList rep rest
  members : ∀ task, task ∈ rep :: rest ↔ attached type task = some nr
  hashed : ∀ slot task, attached type task = some nr →
    (task ∈ (state.tables type).pidHash slot ↔ task = rep ∧ slot = pidHashfn state.pidhashShift nr)

/-- The hash tables show exactly who has which number. -/
structure Consistent (state : PidState) (attached : Attached) : Prop where
  shown : ∀ type nr task, attached type task = some nr →
    ∃ rep rest, Shown state attached type nr rep rest
  found : ∀ type nr, (state.findPid type nr).isSome = true ↔ ∃ task, attached type task = some nr
  chains : ∀ type slot, ((state.tables type).pidHash slot).Nodup ∧
    ∀ task ∈ (state.tables type).pidHash slot, (attached type task).isSome = true

/-- What the calls keep. -/
structure Invariant (pidmapArray : Nat → Pidmap) (state : PidState) (attached : Attached) :
    Prop where
  tables : ∀ type, Sound state.pidhashShift (state.tables type) (attached type)
  pages : ∀ nr, HasBit pidmapArray nr → HasBit state.pidmapArray nr
  bits : ∀ type task nr, attached type task = some nr → HasBit pidmapArray nr

variable {pidmapArray : Nat → Pidmap} {state : PidState} {attached : Attached} {type : PidType}
  {task : Task} {nr : Int}

section

variable (invariant : Invariant pidmapArray state attached)

include invariant

theorem Invariant.consistent : Consistent state attached := by
  constructor
  · intro type nr task has
    have sound := invariant.tables type
    obtain ⟨rep, rest, group⟩ := sound.group task nr has
    have repHas := (group.members rep).mp List.mem_cons_self
    refine ⟨rep, rest, ?_, group.ring, group.members, fun slot other known => ?_⟩
    · obtain ⟨pid, found⟩ := isSome_iff_exists.mp ((sound.findPid_isSome nr).mpr ⟨task, has⟩)
      obtain ⟨pidHas, hashed⟩ := sound.findPid_some found
      rw [← group.on_chain pidHas hashed]
      exact found
    · rw [sound.chained.mem]
      constructor
      · intro facts
        have isRep := group.on_chain known facts.2
        refine ⟨isRep, ?_⟩
        rw [isRep, group.hashed, Pprev.chain.injEq] at facts
        exact facts.2.symm
      · intro facts
        rw [facts.1, facts.2]
        exact ⟨by rw [repHas]; rfl, group.hashed⟩
  · exact fun type nr => (invariant.tables type).findPid_isSome nr
  · intro type slot
    have chained := (invariant.tables type).chained
    exact ⟨chained.nodup slot, fun task inside => ((chained.mem slot task).mp inside).1⟩

theorem Invariant.setTable {table : Table} {own : Option Int}
    (sound : Sound state.pidhashShift table (update (attached type) task own))
    (bit : ∀ nr, own = some nr → HasBit pidmapArray nr) :
    Invariant pidmapArray (state.setTable type table) (attached.set type task own) := by
  have row : ∀ kind, attached.set type task own kind =
      if kind = type then update (attached type) task own else attached kind :=
    fun kind => update_apply ..
  refine ⟨fun kind => ?_, invariant.pages, fun kind other nr has => ?_⟩
  · rw [row]
    change Sound state.pidhashShift (update state.tables type table kind) _
    rw [update_apply]
    split
    · exact sound
    · exact invariant.tables kind
  · rw [row] at has
    split at has
    · rw [update_apply] at has
      split at has
      · exact bit nr has
      · exact invariant.bits _ other nr has
    · exact invariant.bits kind other nr has

theorem Invariant.attachPid (free : attached type task = none) (bit : HasBit pidmapArray nr) :
    ∃ next, state.attachPid task type nr = some next ∧
      Invariant pidmapArray next (attached.set type task (some nr)) := by
  obtain ⟨table, added, sound⟩ := (invariant.tables type).attachPid free nr
  unfold PidState.attachPid
  rw [added]
  refine ⟨_, rfl, invariant.setTable sound fun number same => ?_⟩
  rw [← Option.some.inj same]
  exact bit

theorem Invariant.detach (has : attached type task = some nr) :
    ∃ next result, state.detach task type = some (next, result) ∧
      Invariant pidmapArray next (attached.set type task none) ∧
      next.pidmapArray = state.pidmapArray ∧
      ((result = nr ∧ ∀ other, attached type other = some nr → other = task) ∨
        (result = 0 ∧ ∃ other, other ≠ task ∧ attached type other = some nr)) := by
  obtain ⟨table, result, removed, sound, last⟩ := (invariant.tables type).detach has
  unfold PidState.detach
  rw [removed]
  exact ⟨_, result, rfl, invariant.setTable sound
    fun number none => absurd none.symm (some_ne_none number), rfl, last⟩

end

theorem freePidmap_hasBit (bit : HasBit pidmapArray nr) :
    ∃ after, freePidmap pidmapArray nr = some after ∧
      ∀ other, HasBit pidmapArray other → HasBit after other := by
  obtain ⟨positive, small, page⟩ := bit
  have entries : pidmapEntries = 1 := rfl
  have bits : bitsPerPage = 32768 := rfl
  have unsigned : (nr % 2 ^ 32).toNat = nr.toNat := by
    rw [entries, bits] at small
    omega
  obtain ⟨cells, found⟩ := isSome_iff_exists.mp page
  unfold freePidmap
  rw [unsigned]
  rw [if_pos small, found]
  refine ⟨_, rfl, fun other otherBit => ⟨otherBit.1, otherBit.2.1, ?_⟩⟩
  dsimp only
  rw [update_apply]
  split
  · rfl
  · exact otherBit.2.2

section

variable (invariant : Invariant pidmapArray state attached)

include invariant

/-- `detach_pid` frees the bit of a number other than 0 with its last attachment. -/
theorem Invariant.detachPid (has : attached type task = some nr) :
    ∃ next, state.detachPid task type = some next ∧
      Invariant pidmapArray next (attached.set type task none) ∧
      (nr ≠ 0 ∧ attached.Last task type nr →
        freePidmap state.pidmapArray nr = some next.pidmapArray) ∧
      (¬ (nr ≠ 0 ∧ attached.Last task type nr) → next.pidmapArray = state.pidmapArray) := by
  obtain ⟨next, result, removed, sound, kept, last⟩ := invariant.detach has
  unfold PidState.detachPid
  rw [removed, bind_some]
  dsimp only
  by_cases zero : result = 0
  · rw [if_pos zero]
    refine ⟨next, rfl, sound, fun final => ?_, fun _ => kept⟩
    cases last with
    | inl isNr => exact absurd (isNr.1.symm.trans zero) final.1
    | inr shared =>
      obtain ⟨other, distinct, known⟩ := shared.2
      exact absurd (final.2 other type known).2 distinct
  · obtain ⟨rfl, alone⟩ := last.resolve_right fun shared => zero shared.1
    have elsewhere : ([PidType.sid, .pgid, .tgid, .pid].any fun tmp =>
        decide (tmp ≠ type ∧ (next.findPid tmp result).isSome = true)) = true ↔
          ∃ kind other, kind ≠ type ∧ attached kind other = some result := by
      have found : ∀ kind, kind ≠ type → ((next.findPid kind result).isSome = true ↔
          ∃ other, attached kind other = some result) := by
        intro kind differs
        rw [sound.consistent.found kind result]
        have row : attached.set type task none kind = attached kind := update_of_ne differs ..
        rw [row]
      simp only [List.any_eq_true, decide_eq_true_iff, exists_and_left]
      refine exists_congr fun kind => ?_
      rw [and_iff_right (by cases kind <;> decide)]
      exact and_congr_right (found kind)
    rw [if_neg zero]
    by_cases shared : ∃ kind other, kind ≠ type ∧ attached kind other = some result
    · rw [if_pos (elsewhere.mpr shared)]
      refine ⟨next, rfl, sound, fun final => ?_, fun _ => kept⟩
      obtain ⟨kind, other, differs, known⟩ := shared
      exact absurd (final.2 other kind known).1 differs
    · rw [if_neg fun hit => shared (elsewhere.mp hit)]
      have bit := sound.pages result (invariant.bits type task result has)
      obtain ⟨after, freed, pages⟩ := freePidmap_hasBit bit
      rw [freed]
      have covered := fun number mapped => pages number (sound.pages number mapped)
      refine ⟨_, rfl, { sound with pages := covered }, fun _ => kept ▸ freed, fun notLast => ?_⟩
      refine absurd ⟨zero, fun other kind known => ?_⟩ notLast
      by_cases same : kind = type
      · subst same
        exact ⟨rfl, alone other known⟩
      · exact absurd ⟨kind, other, same, known⟩ shared

theorem Invariant.step (call : Call) (allowed : Allowed pidmapArray attached call) :
    ∃ next, Pid.step state call = some next ∧
      Invariant pidmapArray next (attach attached call) := by
  cases call with
  | attachPid task type nr => exact invariant.attachPid allowed.1 allowed.2
  | detach task type =>
    obtain ⟨nr, has⟩ := isSome_iff_exists.mp allowed
    obtain ⟨next, result, removed, sound, _⟩ := invariant.detach has
    exact ⟨next, by rw [Pid.step, removed]; rfl, sound⟩
  | detachPid task type =>
    obtain ⟨nr, has⟩ := isSome_iff_exists.mp allowed
    obtain ⟨next, removed, sound, _⟩ := invariant.detachPid has
    exact ⟨next, removed, sound⟩

theorem Invariant.run (calls : List Call)
    (allowed : Runs.Along (fun attached call => some (attach attached call))
      (Allowed pidmapArray) attached calls) :
    ∃ final, Runs.run Pid.step state calls = some final ∧
      Invariant pidmapArray final (calls.foldl attach attached) := by
  induction calls generalizing state attached with
  | nil => exact ⟨state, rfl, invariant⟩
  | cons call calls ih =>
    obtain ⟨next, stepped, sound⟩ := invariant.step call allowed.1
    obtain ⟨final, executed, done⟩ := ih sound (allowed.2 _ rfl)
    exact ⟨final, by rw [Runs.run_cons, stepped]; exact executed, done⟩

end

/-- No task is attached. -/
def PidState.initial (pidhashShift : Nat) (pidmapArray : Nat → Pidmap) : PidState :=
  ⟨pidhashShift, fun _ => .empty, pidmapArray⟩

theorem initial_invariant (pidhashShift : Nat) (pidmapArray : Nat → Pidmap) :
    Invariant pidmapArray (.initial pidhashShift pidmapArray) fun _ _ => none :=
  ⟨fun _ => sound_empty pidhashShift, fun _ bit => bit,
    fun _ _ nr has => absurd has.symm (some_ne_none nr)⟩

/-- After any calls the hash tables show who has which number, and the next `detach_pid`
frees the bit of a number other than 0 exactly with its last attachment. -/
theorem pidHash_consistent (pidhashShift : Nat) (pidmapArray : Nat → Pidmap) (calls : List Call)
    (allowed : Runs.Along (fun attached call => some (attach attached call))
      (Allowed pidmapArray) (fun _ _ => none) calls) :
    ∃ state, Runs.run step (.initial pidhashShift pidmapArray) calls = some state ∧
      Consistent state (attachments calls) ∧
      ∀ task type nr, attachments calls type task = some nr →
        ∃ next, state.detachPid task type = some next ∧
          (nr ≠ 0 ∧ (attachments calls).Last task type nr →
            freePidmap state.pidmapArray nr = some next.pidmapArray) ∧
          (¬ (nr ≠ 0 ∧ (attachments calls).Last task type nr) →
            next.pidmapArray = state.pidmapArray) := by
  obtain ⟨state, executed, invariant⟩ :=
    (initial_invariant pidhashShift pidmapArray).run calls allowed
  refine ⟨state, executed, invariant.consistent, fun task type nr has => ?_⟩
  obtain ⟨next, removed, _, frees, keeps⟩ := invariant.detachPid has
  exact ⟨next, removed, frees, keeps⟩

/-- A group of three whose hashed member leaves, and one more type with the number. -/
def groupCalls : List Call :=
  [.attachPid 1 .pid 5, .attachPid 1 .pgid 5, .attachPid 2 .pgid 5, .attachPid 3 .pgid 5,
    .detachPid 1 .pgid, .detachPid 3 .pgid, .detachPid 1 .pid]

def fullPidmap : Nat → Pidmap := fun _ => ⟨0, some fun _ => true⟩

theorem pidHash_consistent_groupCalls :
    Runs.Along (fun attached call => some (attach attached call)) (Allowed fullPidmap)
        (fun _ _ => none) groupCalls ∧
      ∃ state next, Runs.run step (.initial 4 fullPidmap) groupCalls = some state ∧
        Consistent state (attachments groupCalls) ∧ state.detachPid 2 .pgid = some next ∧
        freePidmap state.pidmapArray 5 = some next.pidmapArray := by
  refine (and_iff_left_of_imp fun allowed => ?_).mpr (by decide)
  obtain ⟨state, executed, consistent, frees⟩ := pidHash_consistent 4 fullPidmap groupCalls allowed
  obtain ⟨next, removed, freed, _⟩ := frees 2 .pgid 5 rfl
  refine ⟨state, next, executed, consistent, removed, freed ⟨by decide, ?_⟩⟩
  intro other kind has
  cases kind <;> simp [attachments, groupCalls, attach, Attached.set, update_apply] at has
  exact ⟨rfl, by grind⟩

/-- The number 0 keeps its bit when its only attachment goes away. -/
theorem detachPid_zero_keeps_bit :
    ∃ state next, Runs.run step (.initial 4 fullPidmap) [.attachPid 1 .pid 0] = some state ∧
      (attachments [.attachPid 1 .pid 0]).Last 1 .pid 0 ∧
      state.detachPid 1 .pid = some next ∧ next.pidmapArray = state.pidmapArray := by
  refine ⟨_, _, rfl, ?_, rfl, rfl⟩
  intro other kind has
  cases kind <;> simp [attachments, attach, Attached.set, update_apply] at has
  exact ⟨rfl, has⟩

end MagxKernel.Pid
