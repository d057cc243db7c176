import MagxKernel.Lib.MachineInt
import MagxKernel.Lib.Runs

namespace MagxKernel.SysvIpc

open List Option
open MachineInt (s32 s32_of_range)

abbrev ipcmni : Nat := 32768
abbrev seqMultiplier : Nat := ipcmni
abbrev ushrtMax : Nat := 0xffff
abbrev intMax : Nat := 2 ^ 31 - 1

/-- `struct kern_ipc_perm`, without the spinlock and the access mode. -/
structure KernIpcPerm where
  deleted : Bool
  key : Int
  uid : Nat
  gid : Nat
  cuid : Nat
  cgid : Nat
  seq : Nat
deriving DecidableEq

/-- `struct ipc_ids`. The entries are the array `entries->p` of `entries->size`
pointers; `seq` is an `unsigned short`. -/
structure IpcIds where
  inUse : Int
  maxId : Int
  seq : Nat
  seqMax : Nat
  entries : List (Option KernIpcPerm)
deriving DecidableEq

/-- Without memory for the array the service is disabled: the set has no slot. -/
def ipcInitIds (size : Nat) (allocated : Bool) : IpcIds :=
  let size := if size > ipcmni then ipcmni else size
  let seqLimit := intMax / seqMultiplier
  { inUse := 0
    maxId := -1
    seq := 0
    seqMax := if seqLimit > ushrtMax then ushrtMax else seqLimit
    entries := List.replicate (if allocated then size else 0) none }

/-- The credentials of `current` that a new object takes over. -/
structure Credentials where
  euid : Nat
  egid : Nat
deriving DecidableEq

namespace IpcIds

/-- The limit that holds for the search, and the set with the larger array. A limit
below the present size leaves the array as it is. -/
def growAry (ids : IpcIds) (newsize : Int) (allocated : Bool) : Int × IpcIds :=
  let size : Int := ids.entries.length
  let newsize := if newsize > ipcmni then (ipcmni : Int) else newsize
  if newsize ≤ size then (newsize, ids)
  else if !allocated then (size, ids)
  else
    let added := List.replicate (newsize.toNat - ids.entries.length) none
    (newsize, { ids with entries := ids.entries ++ added })

/-- The slot of the new object, or -1 when every slot below the limit is taken. -/
def ipcAddid (ids : IpcIds) (new : KernIpcPerm) (size : Int) (allocated : Bool)
    (current : Credentials) : Int × IpcIds :=
  let (size, ids) := ids.growAry size allocated
  match (ids.entries.take size.toNat).findIdx? Option.isNone with
  | none => (-1, ids)
  | some id =>
      let seq := (ids.seq + 1) % 2 ^ 16
      let new := { new with
        cuid := current.euid, uid := current.euid
        gid := current.egid, cgid := current.egid
        seq := ids.seq, deleted := false }
      (id, { ids with
        inUse := ids.inUse + 1
        maxId := if (id : Int) > ids.maxId then id else ids.maxId
        seq := if seq > ids.seqMax then 0 else seq
        entries := ids.entries.set id (some new) })

/-- The loop of `ipc_rmid`: the last taken slot below `lid`, or -1. -/
def lastBelow (entries : List (Option KernIpcPerm)) : Nat → Int
  | 0 => -1
  | lid + 1 =>
      match entries[lid]? with
      | some (some _) => lid
      | _ => lastBelow entries lid

/-- A slot outside the array and an empty slot are a `BUG`, which has no result. -/
def ipcRmid (ids : IpcIds) (id : Int) : Option (KernIpcPerm × IpcIds) :=
  let lid := id.tmod seqMultiplier
  if lid < 0 then none
  else
    match ids.entries[lid.toNat]? with
    | none => none
    | some none => none
    | some (some p) =>
        let entries := ids.entries.set lid.toNat none
        some ({ p with deleted := true },
          { ids with
            inUse := ids.inUse - 1
            maxId := if lid = ids.maxId then lastBelow entries lid.toNat else ids.maxId
            entries := entries })

end IpcIds

def ipcBuildid (id : Int) (seq : Nat) : Int := s32 (seqMultiplier * seq + id)

/-- Zero when the identifier belongs to the object. -/
def ipcCheckid (ipcp : KernIpcPerm) (uid : Int) : Int :=
  if uid.tdiv seqMultiplier ≠ ipcp.seq then 1 else 0

inductive Op where
  | addid (new : KernIpcPerm) (size : Int) (allocated : Bool) (current : Credentials)
  | rmid (id : Int)
deriving DecidableEq

def step (ids : IpcIds) : Op → Option IpcIds
  | .addid new size allocated current => some (ids.ipcAddid new size allocated current).2
  | .rmid id => (ids.ipcRmid id).map Prod.snd

/-- One for an operation that adds an object. -/
def adds (ids : IpcIds) : Op → Nat
  | .addid new size allocated current =>
      if (ids.ipcAddid new size allocated current).1 = -1 then 0 else 1
  | .rmid _ => 0

/-- The number of objects that a run adds. -/
def additions : IpcIds → List Op → Nat
  | _, [] => 0
  | ids, op :: ops =>
      match step ids op with
      | none => 0
      | some next => adds ids op + additions next ops

namespace IpcIds

/-- The object in a slot, or none also outside the array. -/
def entry (ids : IpcIds) (slot : Nat) : Option KernIpcPerm := ids.entries[slot]?.join

theorem entry_eq_some (ids : IpcIds) (slot : Nat) (p : KernIpcPerm) :
    ids.entry slot = some p ↔ ids.entries[slot]? = some (some p) := by
  rw [entry, join_eq_some_iff]

theorem entry_bound {ids : IpcIds} {slot : Nat} {p : KernIpcPerm}
    (found : ids.entry slot = some p) : slot < ids.entries.length := by
  rw [entry_eq_some] at found
  exact (List.getElem?_eq_some_iff.mp found).1

/-- The number of non-null entries. -/
def live (ids : IpcIds) : Nat := ids.entries.countP Option.isSome

end IpcIds

section SetEntry

variable {ids next : IpcIds} {id : Nat} {value : Option KernIpcPerm}

theorem entry_set (bound : id < ids.entries.length)
    (entries : next.entries = ids.entries.set id value) (slot : Nat) :
    next.entry slot = if slot = id then value else ids.entry slot := by
  rw [IpcIds.entry, IpcIds.entry, entries, getElem?_set]
  by_cases same : slot = id
  · rw [if_pos same.symm, if_pos bound, if_pos same]
    rfl
  · rw [if_neg (Ne.symm same), if_neg same]

theorem live_fill (bound : id < ids.entries.length) (empty : ids.entry id = none)
    (filled : value.isSome) (entries : next.entries = ids.entries.set id value) :
    next.live = ids.live + 1 := by
  have old : ids.entries[id] = none := by
    rw [IpcIds.entry, getElem?_eq_getElem bound] at empty
    exact empty
  rw [IpcIds.live, entries, countP_set bound, old, if_pos filled]
  rfl

theorem live_clear {p : KernIpcPerm} (taken : ids.entry id = some p)
    (entries : next.entries = ids.entries.set id none) : next.live + 1 = ids.live := by
  have bound := IpcIds.entry_bound taken
  have old : ids.entries[id] = some p := by
    rw [IpcIds.entry_eq_some, getElem?_eq_getElem bound] at taken
    exact Option.some.inj taken
  have counted : 0 < ids.entries.countP Option.isSome := by
    rw [countP_pos_iff]
    exact ⟨some p, old ▸ getElem_mem bound, rfl⟩
  rw [IpcIds.live, entries, countP_set bound, old, IpcIds.live]
  simp only [isSome_some, isSome_none, if_true, Bool.false_eq_true, if_false]
  omega

end SetEntry

/-- `grow_ary` only appends empty slots. -/
structure Grown (ids : IpcIds) (limit : Int) (grown : IpcIds) : Prop where
  entries : ∃ added, grown = { ids with entries := ids.entries ++ List.replicate added none }
  limit : limit.toNat ≤ grown.entries.length
  small : ids.entries.length ≤ ipcmni → grown.entries.length ≤ ipcmni

theorem growAry_grown (ids : IpcIds) (newsize : Int) (allocated : Bool) :
    Grown ids (ids.growAry newsize allocated).1 (ids.growAry newsize allocated).2 := by
  have same : ∃ added,
      ids = { ids with entries := ids.entries ++ List.replicate added none } :=
    ⟨0, by simp⟩
  simp only [IpcIds.growAry]
  generalize bounded : (if newsize > (ipcmni : Int) then (ipcmni : Int) else newsize) = wanted
  split
  next fits => exact ⟨same, by dsimp only; omega, id⟩
  next larger =>
    split
    next => exact ⟨same, by dsimp only; omega, id⟩
    next =>
      refine ⟨⟨_, rfl⟩, ?_, ?_⟩
      · simp only [length_append, length_replicate]
        omega
      · intro small
        simp only [length_append, length_replicate]
        omega

section Grown

variable {ids grown : IpcIds} {limit : Int}

theorem Grown.entry (larger : Grown ids limit grown) (slot : Nat) :
    grown.entry slot = ids.entry slot := by
  obtain ⟨added, rfl⟩ := larger.entries
  simp only [IpcIds.entry, getElem?_append]
  split
  next => rfl
  next outside =>
    rw [getElem?_eq_none (Nat.not_lt.mp outside), getElem?_replicate]
    split
    next => rfl
    next => rfl

theorem Grown.live (larger : Grown ids limit grown) : grown.live = ids.live := by
  obtain ⟨added, rfl⟩ := larger.entries
  simp [IpcIds.live, countP_append, countP_replicate]

end Grown

/-- What `ipc_addid` can do: fail with every slot below the limit taken, or plant the
object in an empty slot. -/
inductive AddCases (ids : IpcIds) (new : KernIpcPerm) (current : Credentials) :
    Int → IpcIds → Prop
  | full (limit : Int) (grown : IpcIds) (larger : Grown ids limit grown) :
      AddCases ids new current (-1) grown
  | added (limit : Int) (grown next : IpcIds) (id : Nat) (planted : KernIpcPerm)
      (larger : Grown ids limit grown) (bound : id < grown.entries.length)
      (empty : grown.entry id = none)
      (entries : next.entries = grown.entries.set id (some planted))
      (seq : planted.seq = ids.seq)
      (inUse : next.inUse = ids.inUse + 1)
      (maxId : next.maxId = if (id : Int) > ids.maxId then (id : Int) else ids.maxId)
      (nextSeq : next.seq =
        if (ids.seq + 1) % 2 ^ 16 > ids.seqMax then 0 else (ids.seq + 1) % 2 ^ 16)
      (seqMax : next.seqMax = ids.seqMax) : AddCases ids new current id next

theorem ipcAddid_cases (ids : IpcIds) (new : KernIpcPerm) (size : Int) (allocated : Bool)
    (current : Credentials) :
    AddCases ids new current (ids.ipcAddid new size allocated current).1
      (ids.ipcAddid new size allocated current).2 := by
  have larger := growAry_grown ids size allocated
  obtain ⟨added, same⟩ := larger.entries
  simp only [IpcIds.ipcAddid]
  split
  next missing => exact .full _ _ larger
  next id found =>
    obtain ⟨bound, empty, _⟩ := findIdx?_eq_some_iff_getElem.mp found
    rw [length_take] at bound
    have inside : id < (ids.growAry size allocated).2.entries.length := by omega
    refine .added _ _ _ id _ larger inside ?_ rfl ?_ ?_ ?_ ?_ ?_
    · rw [getElem_take, isNone_iff_eq_none] at empty
      rw [IpcIds.entry, getElem?_eq_getElem inside, empty]
      rfl
    all_goals simp only [same]

end MagxKernel.SysvIpc
