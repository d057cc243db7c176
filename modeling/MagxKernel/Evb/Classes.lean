import Mathlib.Data.List.Nodup
import Mathlib.Logic.Function.Basic

namespace MagxKernel.Evb

open List Function

/-- `EvClassInfo_t` without its lock and link; an `EciEventQ` of 0 is `NULL`. -/
structure ClassInfo where
  eciClass : Nat
  eciName : List UInt8
  eciAccessCode : Nat
  eciUseCount : Nat
  eciEventQ : Nat
deriving DecidableEq

/-- The hash chains of a group and the event queues that are allocated. A chain begins with the
entry of `EgiClassHash`; its last entry, the one without `EciNext`, is blank. -/
structure Group where
  chain : Nat → List ClassInfo
  queues : Nat → Bool

inductive EvError where
  | classExists
  | classBusy
  | classAccess

def Group.registered (group : Group) (hash : Nat) : List ClassInfo := (group.chain hash).dropLast

def evFindEventBase (hashSize : Nat) (group : Group) (classID : Nat) : Option ClassInfo :=
  (group.registered (classID % hashSize)).find? fun info => info.eciClass = classID

def evCheckEventClass (hashSize : Nat) (group : Group) (className : List UInt8) : Option Nat :=
  (List.range hashSize).findSome? fun hash =>
    ((group.registered hash).find? fun info => info.eciName = className).map ClassInfo.eciClass

/-- What is checked before a class is removed; `admin` is `capable(CAP_SYS_ADMIN)`. -/
def checkRemoval (admin : Bool) (accessCode : Nat) (info : ClassInfo) : Except EvError Unit :=
  if info.eciUseCount ≠ 0 then .error .classBusy
  else if info.eciAccessCode ≠ accessCode ∧ admin = false then .error .classAccess
  else .ok ()

section Remove

variable (admin : Bool) (classID accessCode : Nat)

/-- The loop over the entries behind the first one: the entry that is deleted and those left. -/
def removeBehind : List ClassInfo → Except EvError (ClassInfo × List ClassInfo)
  | hashDel :: next :: rest =>
      if hashDel.eciClass = classID then
        (checkRemoval admin accessCode hashDel).map fun _ => (hashDel, next :: rest)
      else (removeBehind (next :: rest)).map fun done => (done.1, hashDel :: done.2)
  | _ => .error .classExists

def removeClass : List ClassInfo → Except EvError (ClassInfo × List ClassInfo)
  | hashBase :: hashDel :: rest =>
      if hashBase.eciClass = classID then
        (checkRemoval admin accessCode hashBase).map fun _ => (hashDel,
          { hashBase with
            eciClass := hashDel.eciClass
            eciName := hashDel.eciName
            eciEventQ := hashDel.eciEventQ } :: rest)
      else (removeBehind admin classID accessCode (hashDel :: rest)).map fun done =>
        (done.1, hashBase :: done.2)
  | _ => .error .classExists

/-- The entry taken off a chain is freed together with its event queue. -/
def Group.unlink (group : Group) (hash : Nat) (done : ClassInfo × List ClassInfo) : Group where
  chain := update group.chain hash done.2
  queues := if done.1.eciEventQ = 0 then group.queues
    else update group.queues done.1.eciEventQ false

def evInternalUnRegisterEventClass (hashSize : Nat) (group : Group) : Except EvError Group :=
  (removeClass admin classID accessCode (group.chain (classID % hashSize))).map
    (group.unlink (classID % hashSize))

end Remove

/-- What registration sees to: each class is on the chain of its id, ids and names are unique,
each class has a queue of its own, and the blank behind a class has none. -/
structure Registry (hashSize : Nat) (group : Group) : Prop where
  positive : 0 < hashSize
  placed : ∀ hash < hashSize, ∀ info ∈ group.registered hash, info.eciClass % hashSize = hash
  ids : ∀ hash < hashSize, ((group.registered hash).map ClassInfo.eciClass).Nodup
  names : ∀ hash < hashSize, ∀ other < hashSize, ∀ info ∈ group.registered hash,
    ∀ info' ∈ group.registered other, info.eciName = info'.eciName → info.eciClass = info'.eciClass
  queues : ∀ hash < hashSize, ∀ other < hashSize, ∀ info ∈ group.registered hash,
    ∀ info' ∈ group.registered other, info.eciEventQ = info'.eciEventQ → info = info'
  allocated : ∀ hash < hashSize, ∀ info ∈ group.registered hash,
    info.eciEventQ ≠ 0 ∧ group.queues info.eciEventQ = true
  blank : ∀ hash < hashSize, group.registered hash ≠ [] →
    ∀ info ∈ (group.chain hash).getLast?, info.eciEventQ = 0

/-- All other classes are as they were, and the class is found neither by id nor by name. -/
structure Unregistered (hashSize : Nat) (group after : Group) (gone : ClassInfo) : Prop where
  others : ∀ hash < hashSize, ∀ info ∈ group.registered hash, info ≠ gone →
    info ∈ after.registered hash ∧ after.queues info.eciEventQ = true
  byId : evFindEventBase hashSize after gone.eciClass = none
  byName : evCheckEventClass hashSize after gone.eciName = none

section Proofs

variable {hashSize : Nat} {group after : Group} {gone : ClassInfo} {admin : Bool}
  {classID accessCode : Nat} {done : ClassInfo × List ClassInfo}

theorem map_ok {α β : Type} {result : Except EvError α} {f : α → β} {value : β}
    (mapped : result.map f = .ok value) : ∃ found, result = .ok found ∧ f found = value := by
  cases result with
  | error err => cases mapped
  | ok found => exact ⟨found, rfl, Except.ok.inj mapped⟩

theorem removeBehind_ok {chain : List ClassInfo}
    (ran : removeBehind admin classID accessCode chain = .ok done) :
    done.1.eciClass = classID ∧ ∃ front back, back ≠ [] ∧ chain = front ++ done.1 :: back ∧
      done.2 = front ++ back := by
  fun_induction removeBehind admin classID accessCode chain generalizing done with
  | case1 hashDel next rest here =>
    obtain ⟨_, _, rfl⟩ := map_ok ran
    exact ⟨here, [], next :: rest, cons_ne_nil next rest, rfl, rfl⟩
  | case2 hashDel next rest elsewhere ih =>
    obtain ⟨later, further, rfl⟩ := map_ok ran
    obtain ⟨here, front, back, some_, whole, left⟩ := ih further
    exact ⟨here, hashDel :: front, back, some_, congrArg (hashDel :: ·) whole,
      congrArg (hashDel :: ·) left⟩
  | case3 => cases ran

theorem Registry.same (registry : Registry hashSize group) {hash : Nat} (below : hash < hashSize)
    {info : ClassInfo} (listed : info ∈ group.registered hash)
    (member : gone ∈ group.registered hash) (class_eq : info.eciClass = gone.eciClass) :
    info = gone :=
  inj_on_of_nodup_map (registry.ids hash below) listed member class_eq

theorem registered_unlink (hash other : Nat) (done : ClassInfo × List ClassInfo) :
    (group.unlink hash done).registered other =
      if other = hash then done.2.dropLast else group.registered other := by
  change (update group.chain hash done.2 other).dropLast = _
  rw [update_apply]
  split <;> rfl

/-- A class is taken out of its chain, and no queue but its own is freed. -/
theorem Registry.kept (registry : Registry hashSize group)
    (member : gone ∈ group.registered (gone.eciClass % hashSize)) (front back : List ClassInfo)
    (whole : group.registered (gone.eciClass % hashSize) = front ++ gone :: back)
    (left : done.2.dropLast = front ++ back) (freed : done.1.eciEventQ = 0 ∨ done.1 = gone) :
    Unregistered hashSize group (group.unlink (gone.eciClass % hashSize) done) gone := by
  have small := Nat.mod_lt gone.eciClass registry.positive
  have ids := registry.ids _ small
  rw [whole, map_append, map_cons] at ids
  have fewer : ∀ hash < hashSize,
      ∀ info ∈ (group.unlink (gone.eciClass % hashSize) done).registered hash, info ∈
        group.registered hash ∧ info.eciClass ≠ gone.eciClass := by
    intro hash below info inside
    rw [registered_unlink] at inside
    split at inside
    · rename_i here
      rw [left] at inside
      rw [here, whole]
      refine ⟨mem_append.mpr ((mem_append.mp inside).imp_right (.tail _)), fun same => ?_⟩
      refine (nodup_middle.mp ids).notMem ?_
      rw [← map_append, ← same]
      exact mem_map_of_mem inside
    · rename_i away
      exact ⟨inside, fun same => away (same ▸ (registry.placed hash below info inside).symm)⟩
  refine ⟨fun hash below info listed other => ⟨?_, ?_⟩, ?_, ?_⟩
  · rw [registered_unlink]
    split
    · rename_i here
      rw [here, whole] at listed
      rw [left]
      simpa [other] using listed
    · exact listed
  · have allocated := (registry.allocated hash below info listed).2
    unfold Group.unlink
    dsimp only
    split
    · exact allocated
    · rename_i some_
      rw [freed.resolve_left some_, update_of_ne fun same =>
        other (registry.queues hash below _ small info listed gone member same)]
      exact allocated
  · refine find?_eq_none.mpr fun info inside same => ?_
    exact (fewer _ small info inside).2 (of_decide_eq_true same)
  · refine findSome?_eq_none_iff.mpr fun hash looked => ?_
    refine Option.map_eq_none_iff.mpr (find?_eq_none.mpr fun info inside same => ?_)
    have below := mem_range.mp looked
    obtain ⟨older, different⟩ := fewer hash below info inside
    exact different
      (registry.names hash below _ small info older gone member (of_decide_eq_true same))

end Proofs

/-- A class can be removed with no harm to the others unless it is in the array entry of its chain
and not alone there. -/
theorem evInternalUnRegisterEventClass_keeps_iff (hashSize : Nat) (group after : Group)
    (registry : Registry hashSize group) (gone : ClassInfo) (admin : Bool) (accessCode : Nat)
    (member : gone ∈ group.registered (gone.eciClass % hashSize))
    (done : evInternalUnRegisterEventClass admin gone.eciClass accessCode hashSize group =
      .ok after) :
    Unregistered hashSize group after gone ↔
      (group.chain (gone.eciClass % hashSize)).head? ≠ some gone ∨
        (group.registered (gone.eciClass % hashSize)).length = 1 := by
  obtain ⟨removed, ran, rfl⟩ := map_ok done
  have small := Nat.mod_lt gone.eciClass registry.positive
  have same := fun info listed => @Registry.same _ _ gone registry _ small info listed member
  cases chain : group.chain (gone.eciClass % hashSize) with
  | nil => rw [chain] at ran; cases ran
  | cons hashBase behind =>
    cases behind with
    | nil => rw [chain] at ran; cases ran
    | cons hashDel rest =>
      have registered : group.registered (gone.eciClass % hashSize) =
          hashBase :: (hashDel :: rest).dropLast := by
        unfold Group.registered
        rw [chain]
        rfl
      rw [chain, removeClass] at ran
      split at ran
      · rename_i here
        obtain ⟨_, _, rfl⟩ := map_ok ran
        obtain rfl := same hashBase (by rw [registered]; exact .head _) here
        cases rest with
        | nil =>
          refine iff_of_true (registry.kept member [] [] registered rfl (.inl ?_)) (.inr ?_)
          · refine registry.blank _ small (by rw [registered]; exact cons_ne_nil _ _) hashDel ?_
            rw [chain]
            rfl
          · rw [registered]
            rfl
        | cons next rest =>
          -- the successor's queue is freed although its class has moved to the array
          have listed : hashDel ∈ group.registered (hashBase.eciClass % hashSize) := by
            rw [registered]
            exact .tail _ (.head _)
          have some_ := (registry.allocated _ small hashDel listed).1
          have ids := registry.ids _ small
          rw [registered] at ids
          refine iff_of_false (fun kept => ?_) ?_
          · have still := (kept.others _ small hashDel listed fun equal =>
              (nodup_cons.mp ids).1 (equal ▸ .head _)).2
            simp [Group.unlink, some_] at still
          · rw [registered]
            simp
      · rename_i elsewhere
        obtain ⟨found, further, rfl⟩ := map_ok ran
        obtain ⟨here, front, back, some_, whole, left⟩ := removeBehind_ok further
        rw [whole, dropLast_append_of_ne_nil (cons_ne_nil _ back),
          dropLast_cons_of_ne_nil some_] at registered
        have isGone : found.1 = gone :=
          same found.1 (by rw [registered]; simp) here
        refine iff_of_true (registry.kept member (hashBase :: front) back.dropLast
          (registered.trans (by rw [isGone]; rfl)) ?_ (.inr isGone)) (.inl fun first => ?_)
        · rw [left, ← cons_append, dropLast_append_of_ne_nil some_]
        · exact elsewhere (congrArg ClassInfo.eciClass (Option.some.inj first))

/-- A group with one hash entry and two classes without subscribers. -/
def twoClasses : Group where
  chain := fun _ => [⟨0, [67], 5, 0, 1⟩, ⟨1, [68], 7, 0, 2⟩, ⟨0, [], 0, 0, 0⟩]
  queues := fun queue => queue == 1 || queue == 2

theorem twoClasses_registry : Registry 1 twoClasses := by
  constructor <;> decide

theorem evInternalUnRegisterEventClass_keeps_iff_second :
    Unregistered 1 twoClasses (twoClasses.unlink 0 (⟨1, [68], 7, 0, 2⟩,
      [⟨0, [67], 5, 0, 1⟩, ⟨0, [], 0, 0, 0⟩])) ⟨1, [68], 7, 0, 2⟩ :=
  (evInternalUnRegisterEventClass_keeps_iff 1 twoClasses _ twoClasses_registry
    ⟨1, [68], 7, 0, 2⟩ false 7 (by decide) rfl).mpr (.inl (by decide))

/-- The first class is removed, and the queue of the other one is freed. -/
theorem evInternalUnRegisterEventClass_frees_queue :
    ∃ after, evInternalUnRegisterEventClass false 0 5 1 twoClasses = .ok after ∧
      after.registered 0 = [⟨1, [68], 5, 0, 2⟩] ∧ after.queues 2 = false :=
  ⟨_, rfl, rfl, rfl⟩

end MagxKernel.Evb
