import Mathlib.Algebra.Group.Int.Defs
import Mathlib.Algebra.Group.Nat.Defs
import MagxKernel.Lib.CircularList

namespace MagxKernel.Pid

open CircularList Function List

abbrev Task := Nat

/-- `enum pid_type`. -/
inductive PidType where
  | pid
  | tgid
  | pgid
  | sid
deriving DecidableEq

/-- What `pid_chain.pprev` of a `struct pid` points to. -/
inductive Pprev where
  | null
  /-- into the chain of that hash slot -/
  | chain (slot : Nat)
  | poison
deriving DecidableEq

/-- The `struct pid` of one type of every task, and the hash table of that type. -/
structure Table where
  nr : Task → Int
  pprev : Task → Pprev
  pidList : Links Task
  pidHash : Nat → List Task

/-- No task has a number. -/
def Table.empty : Table := ⟨fun _ => 0, fun _ => .null, ⟨fun _ => none, fun _ => none⟩, fun _ => []⟩

def hashLong (val bits : Nat) : Nat := val * 0x9e370001 % 2 ^ 32 / 2 ^ (32 - bits)

def pidHashfn (pidhashShift : Nat) (nr : Int) : Nat := hashLong (nr % 2 ^ 32).toNat pidhashShift

namespace Table

def hlistAddHead (table : Table) (task : Task) (slot : Nat) : Table :=
  { table with
    pprev := update table.pprev task (.chain slot)
    pidHash := update table.pidHash slot (task :: table.pidHash slot) }

/-- An entry that is on no chain has no pointer to follow. -/
def hlistDel (table : Table) (task : Task) : Option Table :=
  match table.pprev task with
  | .chain slot => some { table with
      pprev := update table.pprev task .poison
      pidHash := update table.pidHash slot ((table.pidHash slot).erase task) }
  | _ => none

variable (pidhashShift : Nat)

def findPid (table : Table) (nr : Int) : Option Task :=
  (table.pidHash (pidHashfn pidhashShift nr)).find? fun pid => table.nr pid = nr

def attachPid (table : Table) (task : Task) (nr : Int) : Option Table :=
  match table.findPid pidhashShift nr with
  | none => some { table.hlistAddHead task (pidHashfn pidhashShift nr) with
      pidList := table.pidList.initListHead task
      nr := update table.nr task nr }
  | some pid => (table.pidList.listAddTail task pid).map fun pidList =>
      { table with
        pprev := update table.pprev task .null
        pidList := pidList
        nr := update table.nr task nr }

/-- The end of `__detach_pid`. -/
def leave (table : Table) (task : Task) (result : Int) : Option (Table × Int) :=
  (table.pidList.listDel task).map fun pidList =>
    ({ table with pidList := pidList, nr := update table.nr task 0 }, result)

/-- `__detach_pid`: the number, if the task was the last of the type to have it. -/
def detach (table : Table) (task : Task) : Option (Table × Int) :=
  if table.pprev task = .null then table.leave task 0
  else
    (table.hlistDel task).bind fun table =>
      if table.pidList.listEmpty task then table.leave task (table.nr task)
      else
        -- insert next pid from pid_list to hash
        (table.pidList.next task).bind fun pidNext =>
          (table.hlistAddHead pidNext (pidHashfn pidhashShift (table.nr pidNext))).leave task 0

end Table

section Groups

variable {pidhashShift : Nat} {table : Table} {attached : Task → Option Int} {task rep : Task}
  {nr : Int} {rest : List Task}

/-- The tasks that have one number: a ring with one of them on the hash chain. -/
structure Group (pidhashShift : Nat) (table : Table) (attached : Task → Option Int) (nr : Int)
    (rep : Task) (rest : List Task) : Prop where
  ring : Ring table.pidList rep rest
  members : ∀ other, other ∈ rep :: rest ↔ attached other = some nr
  hashed : table.pprev rep = .chain (pidHashfn pidhashShift nr)
  unhashed : ∀ other ∈ rest, table.pprev other = .null

/-- The chains hold the tasks that point into them. -/
structure Chained (table : Table) (attached : Task → Option Int) : Prop where
  mem : ∀ slot task, task ∈ table.pidHash slot ↔
    (attached task).isSome = true ∧ table.pprev task = .chain slot
  nodup : ∀ slot, (table.pidHash slot).Nodup

/-- The table agrees with who has which number. -/
structure Sound (pidhashShift : Nat) (table : Table) (attached : Task → Option Int) : Prop where
  number : ∀ task nr, attached task = some nr → table.nr task = nr
  chained : Chained table attached
  group : ∀ task nr, attached task = some nr →
    ∃ rep rest, Group pidhashShift table attached nr rep rest

theorem sound_empty (pidhashShift : Nat) : Sound pidhashShift .empty fun _ => none := by
  refine ⟨fun task nr has => ?_, ⟨fun slot task => ?_, fun _ => nodup_nil⟩,
    fun task nr has => ?_⟩
  · cases has
  · exact ⟨fun inside => absurd inside not_mem_nil, fun facts => Bool.noConfusion facts.1⟩
  · cases has

variable {now : Task → Option Int}

section

variable (chained : Chained table attached)

include chained

theorem Chained.add (off : ∀ slot, task ∉ table.pidHash slot) (has : (now task).isSome = true)
    (others : ∀ other, other ≠ task → now other = attached other) (slot : Nat) :
    Chained (table.hlistAddHead task slot) now := by
  have hash : ∀ place, (table.hlistAddHead task slot).pidHash place =
      if place = slot then task :: table.pidHash slot else table.pidHash place :=
    fun place => update_apply ..
  constructor
  · intro place other
    rw [hash]
    change _ ↔ _ ∧ update table.pprev task (.chain slot) other = .chain place
    by_cases own : other = task
    · subst own
      rw [update_self, Pprev.chain.injEq]
      split
      · rename_i here
        exact ⟨fun _ => ⟨has, here.symm⟩, fun _ => mem_cons_self⟩
      · rename_i here
        exact ⟨fun inside => absurd inside (off place), fun facts => absurd facts.2.symm here⟩
    · rw [update_of_ne own, others other own, ← chained.mem place other]
      by_cases here : place = slot
      · rw [if_pos here, mem_cons, here]
        exact ⟨fun inside => inside.resolve_left own, .inr⟩
      · rw [if_neg here]
  · intro place
    rw [hash]
    split
    · exact nodup_cons.mpr ⟨off slot, chained.nodup slot⟩
    · exact chained.nodup place

theorem Chained.del {slot : Nat} (hashed : table.pprev task = .chain slot) :
    ∃ after, table.hlistDel task = some after ∧
      Chained after (update attached task none) ∧ after.nr = table.nr ∧
      after.pidList = table.pidList ∧
      ∀ other, other ≠ task → after.pprev other = table.pprev other := by
  unfold Table.hlistDel
  rw [hashed]
  refine ⟨_, rfl, ⟨fun place other => ?_, fun place => ?_⟩, rfl, rfl,
    fun other distinct => update_of_ne distinct ..⟩
  · change other ∈ update table.pidHash slot _ place ↔
      _ ∧ update table.pprev task .poison other = .chain place
    rw [update_apply]
    by_cases own : other = task
    · subst own
      rw [update_self, update_self]
      refine ⟨fun inside => ?_, fun facts => Bool.noConfusion facts.1⟩
      split at inside
      · exact absurd inside (chained.nodup slot).not_mem_erase
      next elsewhere =>
        have there := ((chained.mem place other).mp inside).2
        rw [hashed, Pprev.chain.injEq] at there
        exact absurd there.symm elsewhere
    · rw [update_of_ne own, update_of_ne own, ← chained.mem place other]
      split
      next here => rw [mem_erase_of_ne own, here]
      · rfl
  · change (update table.pidHash slot _ place).Nodup
    rw [update_apply]
    split
    · exact (chained.nodup slot).erase task
    · exact chained.nodup place

theorem Chained.off (unhashed : table.pprev task = .null) (slot : Nat) :
    task ∉ table.pidHash slot := by
  rw [chained.mem, unhashed]
  exact fun wrong => Pprev.noConfusion wrong.2

/-- A task that points to no chain may come and go. -/
theorem Chained.congr {after : Table} (hash : after.pidHash = table.pidHash)
    (off : ∀ slot, task ∉ table.pidHash slot) (apart : ∀ slot, after.pprev task ≠ .chain slot)
    (others
      : ∀ other, other ≠ task → after.pprev other = table.pprev other ∧
        now other = attached other) :
    Chained after now := by
  constructor
  · intro slot other
    rw [hash]
    by_cases own : other = task
    · subst own
      exact ⟨fun inside => absurd inside (off slot), fun facts => absurd facts.2 (apart slot)⟩
    · rw [(others other own).1, (others other own).2]
      exact chained.mem slot other
  · rw [hash]
    exact chained.nodup

end

/-- Only the hashed member of a group is on a chain. -/
theorem Group.on_chain (group : Group pidhashShift table attached nr rep rest) {slot : Nat}
    (has : attached task = some nr) (hashed : table.pprev task = .chain slot) : task = rep := by
  cases mem_cons.mp ((group.members task).mpr has) with
  | inl same => exact same
  | inr inside =>
    rw [group.unhashed task inside] at hashed
    cases hashed

theorem Group.congr (group : Group pidhashShift table attached nr rep rest) {after : Table}
    (links : ∀ other, attached other = some nr →
      after.pidList.next other = table.pidList.next other ∧
      after.pidList.prev other = table.pidList.prev other)
    (pprev : ∀ other, attached other = some nr → after.pprev other = table.pprev other)
    (same : ∀ other, now other = some nr ↔ attached other = some nr) :
    Group pidhashShift after now nr rep rest := by
  have has : ∀ other ∈ rep :: rest, attached other = some nr :=
    fun other inside => (group.members other).mp inside
  constructor
  · exact group.ring.congr fun other inside => links other (has other inside)
  · exact fun other => (group.members other).trans (same other).symm
  · rw [pprev rep (has rep mem_cons_self)]
    exact group.hashed
  · intro other inside
    rw [pprev other (has other (mem_cons_of_mem rep inside))]
    exact group.unhashed other inside

section

variable (sound : Sound pidhashShift table attached)

include sound

/-- The hash chain of a number finds the hashed task that has it. -/
theorem Sound.findPid_some (found : table.findPid pidhashShift nr = some task) :
    attached task = some nr ∧ table.pprev task = .chain (pidHashfn pidhashShift nr) := by
  have inside := mem_of_find?_eq_some found
  have number := find?_some found
  obtain ⟨isSome, hashed⟩ := (sound.chained.mem _ task).mp inside
  obtain ⟨own, has⟩ := Option.isSome_iff_exists.mp isSome
  have same := sound.number task own has
  rw [of_decide_eq_true number] at same
  exact ⟨same ▸ has, hashed⟩

theorem Sound.findPid_none (missing : table.findPid pidhashShift nr = none) (task : Task) :
    attached task ≠ some nr := by
  intro has
  obtain ⟨rep, rest, group⟩ := sound.group task nr has
  have repHas := (group.members rep).mp mem_cons_self
  have inside := (sound.chained.mem _ rep).mpr ⟨by rw [repHas]; rfl, group.hashed⟩
  have nothing := find?_eq_none.mp missing rep inside
  exact nothing (decide_eq_true (sound.number rep nr repHas))

theorem Sound.findPid_isSome (nr : Int) :
    (table.findPid pidhashShift nr).isSome = true ↔ ∃ task, attached task = some nr := by
  cases found : table.findPid pidhashShift nr with
  | none =>
    refine ⟨Bool.noConfusion, fun ⟨task, has⟩ => ?_⟩
    exact absurd has (sound.findPid_none found task)
  | some task => exact ⟨fun _ => ⟨task, (sound.findPid_some found).1⟩, fun _ => rfl⟩

theorem Sound.off_chains (free : attached task = none) (slot : Nat) :
    task ∉ table.pidHash slot := by
  intro inside
  have has := ((sound.chained.mem slot task).mp inside).1
  rw [free] at has
  cases has

/-- Only the group of one number has changed. -/
theorem Sound.rebuild {after : Table}
    (number : ∀ other has, now other = some has → after.nr other = has)
    (chained : Chained after now)
    (others : ∀ has, has ≠ nr → ∀ other, now other = some has ↔ attached other = some has)
    (kept : ∀ other has, has ≠ nr → attached other = some has →
      (after.pidList.next other = table.pidList.next other ∧
        after.pidList.prev other = table.pidList.prev other) ∧
          after.pprev other = table.pprev other)
    (regroup : ∀ other, now other = some nr →
      ∃ rep rest, Group pidhashShift after now nr rep rest) :
    Sound pidhashShift after now := by
  refine ⟨number, chained, fun other has known => ?_⟩
  by_cases same : has = nr
  · subst same
    exact regroup other known
  · obtain ⟨rep, rest, group⟩ := sound.group other has ((others has same other).mp known)
    exact ⟨rep, rest, group.congr (fun member known => (kept member has same known).1)
      (fun member known => (kept member has same known).2) (others has same)⟩

theorem Sound.attachPid (free : attached task = none) (nr : Int) :
    ∃ after, table.attachPid pidhashShift task nr = some after ∧
      Sound pidhashShift after (update attached task (some nr)) := by
  have now : ∀ {other has}, update attached task (some nr) other = some has ↔
      (other = task ∧ nr = has) ∨ attached other = some has := by
    intro other has
    by_cases own : other = task <;> simp [own, free]
  have ne_task : ∀ {other has}, attached other = some has → other ≠ task := by
    intro other has known same
    rw [same, free] at known
    cases known
  have number : ∀ other has, update attached task (some nr) other = some has →
      update table.nr task nr other = has := by
    intro other has known
    rcases now.mp known with ⟨rfl, rfl⟩ | known
    · exact update_self ..
    · exact (update_of_ne (ne_task known) ..).trans (sound.number other has known)
  have others : ∀ has, has ≠ nr → ∀ other,
      update attached task (some nr) other = some has ↔ attached other = some has :=
    fun has differs other => now.trans (or_iff_right fun both => differs both.2.symm)
  unfold Table.attachPid
  cases found : table.findPid pidhashShift nr with
  | none =>
    refine ⟨_, rfl, sound.rebuild number ?_ others (fun member has _ known => ⟨?_, ?_⟩)
      fun _ _ => ⟨task, [], ring_initListHead .., fun member => ?_, update_self ..,
        forall_mem_nil _⟩⟩
    · have has : (update attached task (some nr) task).isSome = true := by
        rw [update_self]
        rfl
      have added := sound.chained.add (sound.off_chains free) has
        (fun other own => update_of_ne own ..) (pidHashfn pidhashShift nr)
      exact { added with }
    · exact outside_initListHead _ _ member fun inside =>
        ne_task known (mem_singleton.mp inside)
    · exact update_of_ne (ne_task known) ..
    · rw [mem_singleton, now]
      simp [sound.findPid_none found member]
  | some pid =>
    obtain ⟨pidHas, pidHashed⟩ := sound.findPid_some found
    obtain ⟨rep, rest, group⟩ := sound.group pid nr pidHas
    obtain rfl := group.on_chain pidHas pidHashed
    have fresh : task ∉ pid :: rest := fun inside => ne_task ((group.members task).mp inside) rfl
    obtain ⟨pidList, linked, ring, outside⟩ := group.ring.listAddTail fresh
    dsimp only
    rw [linked]
    refine ⟨_, rfl, sound.rebuild number ?_ others (fun member has differs known => ⟨?_, ?_⟩)
      fun _ _ => ⟨pid, rest ++ [task], ring, fun member => ?_, ?_, fun member inside => ?_⟩⟩
    · refine sound.chained.congr rfl (sound.off_chains free) (fun slot wrong => ?_)
        fun other own => ⟨update_of_ne own .., update_of_ne own ..⟩
      exact Pprev.noConfusion ((update_self ..).symm.trans wrong)
    · apply outside member
      rw [mem_cons, not_or, group.members, known]
      exact ⟨ne_task known, fun equal => differs (Option.some.inj equal)⟩
    · exact update_of_ne (ne_task known) ..
    · rw [← cons_append, mem_append, mem_singleton, group.members, now]
      simp [or_comm]
    · exact (update_of_ne (ne_task pidHas) ..).trans pidHashed
    · cases mem_append.mp inside with
      | inl old =>
        have memberHas := (group.members member).mp (mem_cons_of_mem pid old)
        exact (update_of_ne (ne_task memberHas) ..).trans (group.unhashed member old)
      | inr isTask =>
        rw [mem_singleton.mp isTask]
        exact update_self ..

/-- Once the chains are in order without the task, its ring and its number can go. -/
theorem Sound.leave (has : attached task = some nr) {mid : Table} (numbers : mid.nr = table.nr)
    (links : mid.pidList = table.pidList)
    (chained : Chained mid (update attached task none))
    (same : ∀ other, other ≠ task → attached other ≠ some nr → mid.pprev other = table.pprev other)
    (left : (∀ other, attached other = some nr → other = task) ∨
      ∃ new, new ≠ task ∧ attached new = some nr ∧
        mid.pprev new = .chain (pidHashfn pidhashShift nr) ∧
        ∀ other, other ≠ task → other ≠ new → attached other = some nr → mid.pprev other = .null)
    (result : Int) :
    ∃ after, mid.leave task result = some (after, result) ∧
      Sound pidhashShift after (update attached task none) := by
  obtain ⟨rep, rest, group⟩ := sound.group task nr has
  have now : ∀ {other number}, update attached task none other = some number ↔
      other ≠ task ∧ attached other = some number := by
    intro other number
    by_cases own : other = task <;> simp [own]
  have deleted : ∃ pidList, table.pidList.listDel task = some pidList ∧
      Outside table.pidList pidList (rep :: rest) ∧
      ∀ other, other ≠ task → attached other = some nr → ∃ new others,
        Group pidhashShift { mid with pidList := pidList, nr := update mid.nr task 0 }
          (update attached task none) nr new others := by
    have inside := (group.members task).mpr has
    cases left with
    | inl alone =>
      have none : rest = [] := by
        apply eq_nil_iff_forall_not_mem.mpr
        intro other found
        have isTask := alone other ((group.members other).mp (mem_cons_of_mem rep found))
        have repTask := alone rep ((group.members rep).mp mem_cons_self)
        exact (nodup_cons.mp group.ring.nodup).1 (repTask.trans isTask.symm ▸ found)
      subst none
      obtain rfl := mem_singleton.mp inside
      obtain ⟨pidList, deleted, outside⟩ := group.ring.listDel_alone
      exact ⟨pidList, deleted, outside, fun other own known => absurd (alone other known) own⟩
    | inr found =>
      obtain ⟨new, distinct, newHas, newHashed, othersNull⟩ := found
      obtain ⟨pidList, others, deleted, ring, members, outside⟩ :=
        group.ring.remove inside ((group.members new).mpr newHas) distinct
      refine ⟨pidList, deleted, outside, fun _ _ _ =>
        ⟨new, others, ring, fun other => ?_, newHashed,
        fun other found => ?_⟩⟩
      · rw [members, now, group.members]
        exact And.comm
      · have facts := (members other).mp (mem_cons_of_mem new found)
        have notNew : other ≠ new :=
          fun isNew => (nodup_cons.mp ring.nodup).1 (isNew ▸ found)
        exact othersNull other facts.2 notNew ((group.members other).mp facts.1)
  obtain ⟨pidList, deleted, outside, regroup⟩ := deleted
  unfold Table.leave
  rw [links, deleted]
  have off : ∀ {member number}, number ≠ nr → attached member = some number →
      attached member ≠ some nr ∧ member ≠ task := by
    intro member number differs known
    have apart : attached member ≠ some nr :=
      fun equal => differs (Option.some.inj (known.symm.trans equal))
    exact ⟨apart, fun isTask => apart (isTask ▸ has)⟩
  refine ⟨_, rfl, sound.rebuild (fun other number known => ?_) { chained with }
    (fun number differs other => ?_) (fun member number differs known => ⟨?_, ?_⟩)
    fun other known => regroup other (now.mp known).1 (now.mp known).2⟩
  · obtain ⟨own, known⟩ := now.mp known
    exact (update_of_ne own ..).trans ((congrFun numbers other).trans
      (sound.number other number known))
  · exact now.trans (and_iff_right_of_imp fun known => (off differs known).2)
  · exact outside member fun found => (off differs known).1 ((group.members member).mp found)
  · exact same member (off differs known).2 (off differs known).1

theorem Sound.detach (has : attached task = some nr) :
    ∃ after result, table.detach pidhashShift task = some (after, result) ∧
      Sound pidhashShift after (update attached task none) ∧
      ((result = nr ∧ ∀ other, attached other = some nr → other = task) ∨
        (result = 0 ∧ ∃ other, other ≠ task ∧ attached other = some nr)) := by
  obtain ⟨rep, rest, group⟩ := sound.group task nr has
  have inGroup : ∀ {other}, other ∈ rest → attached other = some nr :=
    fun found => (group.members _).mp (mem_cons_of_mem rep found)
  have repHas := (group.members rep).mp mem_cons_self
  unfold Table.detach
  cases mem_cons.mp ((group.members task).mpr has) with
  | inl isRep =>
    subst isRep
    rw [if_neg (by rw [group.hashed]; exact nofun)]
    obtain ⟨mid, unhashed, chained, numbers, links, same⟩ := sound.chained.del group.hashed
    rw [unhashed, Option.bind_some, links]
    by_cases alone : rest = []
    · subst alone
      have only : ∀ other, attached other = some nr → other = task :=
        fun other known => mem_singleton.mp ((group.members other).mpr known)
      rw [if_pos (group.ring.listEmpty.mpr rfl)]
      obtain ⟨after, left, done⟩ := sound.leave has numbers links chained
        (fun other own _ => same other own) (.inl only) (mid.nr task)
      refine ⟨after, mid.nr task, left, done, .inl ⟨?_, only⟩⟩
      rw [numbers]
      exact sound.number task nr has
    · obtain ⟨next, more, rfl⟩ := exists_cons_of_ne_nil alone
      have nextHas : attached next = some nr := inGroup mem_cons_self
      have distinct : next ≠ task :=
        fun isTask => (nodup_cons.mp group.ring.nodup).1 (isTask ▸ mem_cons_self)
      have nextNr : mid.nr next = nr := by
        rw [numbers]
        exact sound.number next nr nextHas
      rw [if_neg fun empty => alone (group.ring.listEmpty.mp empty), group.ring.path.1.next,
        Option.bind_some, nextNr]
      have nextNull := (same next distinct).trans (group.unhashed next mem_cons_self)
      have rehashed := chained.add (chained.off nextNull)
        (by rw [update_of_ne distinct, nextHas]; rfl) (fun _ _ => rfl)
        (pidHashfn pidhashShift nr)
      have kept : ∀ other, other ≠ task → other ≠ next →
          (mid.hlistAddHead next (pidHashfn pidhashShift nr)).pprev other = table.pprev other :=
        fun other own notNext => (update_of_ne notNext ..).trans (same other own)
      have null : ∀ other, other ≠ task → other ≠ next → attached other = some nr →
          (mid.hlistAddHead next (pidHashfn pidhashShift nr)).pprev other = .null := by
        intro other own notNext known
        rw [kept other own notNext]
        exact group.unhashed other
          ((mem_cons.mp ((group.members other).mpr known)).resolve_left own)
      have numbers : (mid.hlistAddHead next (pidHashfn pidhashShift nr)).nr = table.nr := numbers
      obtain ⟨after, left, done⟩ := sound.leave has numbers links rehashed
        (fun other own differs => kept other own fun isNext => differs (isNext ▸ nextHas))
        (.inr ⟨next, distinct, nextHas, update_self .., null⟩) 0
      exact ⟨after, 0, left, done, .inr ⟨rfl, next, distinct, nextHas⟩⟩
  | inr inRest =>
    have unhashed := group.unhashed task inRest
    have distinct : rep ≠ task :=
      fun isTask => (nodup_cons.mp group.ring.nodup).1 (isTask ▸ inRest)
    rw [if_pos unhashed]
    have chained : Chained table (update attached task none) := by
      refine sound.chained.congr rfl (sound.chained.off unhashed) (fun slot => ?_)
        fun other own => ⟨rfl, update_of_ne own ..⟩
      rw [unhashed]
      exact Pprev.noConfusion
    have null : ∀ other, other ≠ task → other ≠ rep → attached other = some nr →
        table.pprev other = .null := by
      intro other _ notRep known
      exact group.unhashed other
        ((mem_cons.mp ((group.members other).mpr known)).resolve_left notRep)
    obtain ⟨after, left, done⟩ := sound.leave has rfl rfl chained (fun _ _ _ => rfl)
      (.inr ⟨rep, distinct, repHas, group.hashed, null⟩) 0
    exact ⟨after, 0, left, done, .inr ⟨rfl, rep, distinct, repHas⟩⟩

end

end Groups

end MagxKernel.Pid
