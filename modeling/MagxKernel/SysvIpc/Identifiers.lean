import MagxKernel.SysvIpc.Ids

namespace MagxKernel.SysvIpc

open MachineInt (s32 s32_of_range)

/-- What the counters of the set say about its entries. -/
structure Sound (ids : IpcIds) : Prop where
  inUse : ids.inUse = ids.live
  top : ∀ slot p, ids.entry slot = some p → (slot : Int) ≤ ids.maxId
  last : ids.maxId = -1 ∨ ∃ slot : Nat, ids.maxId = slot ∧ ∃ p, ids.entry slot = some p
  seqMax : ids.seqMax = 65535
  seq : ids.seq ≤ 65535
  seqs : ∀ slot p, ids.entry slot = some p → p.seq ≤ 65535
  small : ids.entries.length ≤ 32768

theorem ipcInitIds_sound (size : Nat) (allocated : Bool) : Sound (ipcInitIds size allocated) := by
  have empty : ∀ slot p, (ipcInitIds size allocated).entry slot ≠ some p := by
    intro slot p found
    rw [IpcIds.entry_eq_some, ipcInitIds, List.getElem?_replicate] at found
    simp at found
  have largest : (ipcInitIds size allocated).seqMax = 65535 := by
    change (if (2 ^ 31 - 1) / 32768 > 65535 then 65535 else (2 ^ 31 - 1) / 32768) = 65535
    decide
  refine ⟨?_, ?_, .inl rfl, largest, Nat.zero_le _, ?_, ?_⟩
  · simp [IpcIds.live, ipcInitIds, List.countP_replicate]
  · intro slot p found
    exact absurd found (empty slot p)
  · intro slot p found
    exact absurd found (empty slot p)
  · simp only [ipcInitIds, List.length_replicate]
    split
    next =>
      split
      next => exact Nat.le_refl _
      next other => exact Nat.not_lt.mp other
    next => exact Nat.zero_le _

variable {ids : IpcIds}

/-- The counter of the additions wraps behind the largest sequence number. -/
theorem seq_next (seq : Nat) :
    (if (seq + 1) % 2 ^ 16 > 65535 then 0 else (seq + 1) % 2 ^ 16) = (seq + 1) % 65536 := by
  split
  next beyond =>
    omega
  next => rfl

/-- The search down from `lid` finds the last taken slot below it. -/
theorem lastBelow_spec (ids : IpcIds) (lid : Nat) :
    (IpcIds.lastBelow ids.entries lid = -1 ∨ ∃ slot : Nat,
      IpcIds.lastBelow ids.entries lid = slot ∧ ∃ p, ids.entry slot = some p) ∧
    ∀ slot p, slot < lid → ids.entry slot = some p →
      (slot : Int) ≤ IpcIds.lastBelow ids.entries lid := by
  induction lid with
  | zero => exact ⟨.inl rfl, fun slot _ below => absurd below (Nat.not_lt_zero slot)⟩
  | succ lid ih =>
    rw [IpcIds.lastBelow]
    split
    next p found =>
      refine ⟨.inr ⟨lid, rfl, p, (ids.entry_eq_some lid p).mpr found⟩, ?_⟩
      intro slot _ below _
      omega
    next other =>
      refine ⟨ih.1, ?_⟩
      intro slot p below found
      apply ih.2 slot p _ found
      have apart : slot ≠ lid := by
        rintro rfl
        exact other p ((ids.entry_eq_some slot p).mp found)
      omega

/-- What `ipc_rmid` does when it returns. -/
structure Removed (ids : IpcIds) (slot : Nat) (old : KernIpcPerm) (next : IpcIds) : Prop where
  taken : ids.entry slot = some old
  entries : next.entries = ids.entries.set slot none
  inUse : next.inUse = ids.inUse - 1
  maxId : next.maxId =
    if (slot : Int) = ids.maxId then IpcIds.lastBelow next.entries slot else ids.maxId
  seq : next.seq = ids.seq
  seqMax : next.seqMax = ids.seqMax

theorem ipcRmid_removed (id : Int) (p : KernIpcPerm) (next : IpcIds)
    (removed : ids.ipcRmid id = some (p, next)) :
    ∃ slot : Nat, id.tmod seqMultiplier = slot ∧ ∃ old, p = { old with deleted := true } ∧
      Removed ids slot old next := by
  simp only [IpcIds.ipcRmid] at removed
  split at removed
  · cases removed
  rename_i positive
  obtain ⟨slot, value⟩ := Int.eq_ofNat_of_zero_le (Int.not_lt.mp positive)
  rw [value, Int.toNat_natCast] at removed
  split at removed
  next => cases removed
  next => cases removed
  next old found =>
    cases removed
    exact ⟨slot, value, old, rfl, (ids.entry_eq_some slot old).mpr found, rfl, rfl, rfl, rfl, rfl⟩

/-- The sequence counter of a set to which `count` objects were added after the one
with `seq`, and the age of the object in `slot` if it is one of them. -/
structure After (slot seq count : Nat) (ids : IpcIds) : Prop where
  counter : ids.seq = (seq + 1 + count) % 65536
  young : ∀ p, ids.entry slot = some p →
    ∃ age, 1 ≤ age ∧ age ≤ count ∧ p.seq = (seq + age) % 65536

section

variable (sound : Sound ids)

include sound

theorem Sound.grown {limit : Int} {grown : IpcIds} (larger : Grown ids limit grown) :
    Sound grown := by
  have entry := larger.entry
  have live := larger.live
  have small := larger.small sound.small
  obtain ⟨added, rfl⟩ := larger.entries
  refine ⟨?_, ?_, ?_, sound.seqMax, sound.seq, ?_, small⟩
  · rw [live]
    exact sound.inUse
  · intro slot p found
    rw [entry] at found
    exact sound.top slot p found
  · simp only [entry]
    exact sound.last
  · intro slot p found
    rw [entry] at found
    exact sound.seqs slot p found

theorem ipcAddid_sound (new : KernIpcPerm) (size : Int) (allocated : Bool) (current : Credentials) :
    Sound (ids.ipcAddid new size allocated current).2 := by
  have cases_ := ipcAddid_cases ids new size allocated current
  generalize (ids.ipcAddid new size allocated current).1 = result at cases_
  cases cases_ with
  | full limit _ larger => exact sound.grown larger
  | added limit grown _ id planted larger bound empty entries seq inUse maxId nextSeq seqMax =>
    have entry := entry_set bound entries
    refine ⟨?_, ?_, ?_, seqMax.trans sound.seqMax, ?_, ?_, ?_⟩
    · rw [inUse, live_fill bound empty rfl entries, larger.live, sound.inUse]
      rfl
    · intro slot p found
      rw [maxId]
      rw [entry] at found
      split at found
      next same =>
        subst same
        split
        next => exact Int.le_refl _
        next => omega
      next =>
        rw [larger.entry] at found
        have below := sound.top slot p found
        split
        next => omega
        next => exact below
    · right
      rw [maxId]
      split
      next => exact ⟨id, rfl, planted, by rw [entry, if_pos rfl]⟩
      next lower =>
        rcases sound.last with none_ | ⟨slot, value, p, found⟩
        · omega
        · refine ⟨slot, value, ?_⟩
          rw [entry, larger.entry]
          split
          next => exact ⟨planted, rfl⟩
          next => exact ⟨p, found⟩
    · rw [nextSeq, sound.seqMax, seq_next]
      omega
    · intro slot p found
      rw [entry, larger.entry] at found
      split at found
      next =>
        cases found
        rw [seq]
        exact sound.seq
      next => exact sound.seqs slot p found
    · rw [entries, List.length_set]
      exact larger.small sound.small

theorem removed_sound {slot : Nat} {old : KernIpcPerm} {next : IpcIds}
    (removed : Removed ids slot old next) : Sound next := by
  have entry := entry_set (IpcIds.entry_bound removed.taken) removed.entries
  have kept : ∀ other p, next.entry other = some p → other ≠ slot ∧ ids.entry other = some p := by
    intro other p found
    rw [entry] at found
    split at found
    next => cases found
    next apart => exact ⟨apart, found⟩
  refine ⟨?_, ?_, ?_, removed.seqMax.trans sound.seqMax, ?_, ?_, ?_⟩
  · have fewer := live_clear removed.taken removed.entries
    rw [removed.inUse, sound.inUse]
    omega
  · intro other p found
    obtain ⟨apart, before⟩ := kept other p found
    have below := sound.top other p before
    rw [removed.maxId]
    split
    next wasTop => exact (lastBelow_spec next slot).2 other p (by omega) found
    next => exact below
  · rw [removed.maxId]
    split
    next wasTop => exact (lastBelow_spec next slot).1
    next lower =>
      rcases sound.last with none_ | ⟨top, value, p, found⟩
      · omega
      · refine .inr ⟨top, value, p, ?_⟩
        rw [entry, if_neg (by omega)]
        exact found
  · rw [removed.seq]
    exact sound.seq
  · intro other p found
    exact sound.seqs other p (kept other p found).2
  · rw [removed.entries, List.length_set]
    exact sound.small

theorem step_sound (op : Op) (next : IpcIds) (stepped : step ids op = some next) : Sound next := by
  cases op with
  | addid new size allocated current =>
    cases stepped
    exact ipcAddid_sound sound new size allocated current
  | rmid id =>
    obtain ⟨⟨p, after⟩, removed, rfl⟩ := Option.map_eq_some_iff.mp stepped
    obtain ⟨slot, _, old, _, taken⟩ := ipcRmid_removed id p after removed
    exact removed_sound sound taken

/-- The identifier of a live object fits an `int`. -/
theorem ipcBuildid_exact (slot : Nat) (p : KernIpcPerm) (found : ids.entry slot = some p) :
    ipcBuildid slot p.seq = seqMultiplier * p.seq + slot ∧
      (seqMultiplier * p.seq + slot : Int) < 2 ^ 31 := by
  have below := IpcIds.entry_bound found
  have small := sound.small
  have seq := sound.seqs slot p found
  have fits : (32768 * p.seq + slot : Int) < 2 ^ 31 := by omega
  refine ⟨s32_of_range _ ?_ fits, fits⟩
  change (-2 ^ 31 : Int) ≤ 32768 * p.seq + slot
  omega

theorem ipcBuildid_injective (left right : Nat) (p q : KernIpcPerm)
    (foundLeft : ids.entry left = some p) (foundRight : ids.entry right = some q)
    (same : ipcBuildid left p.seq = ipcBuildid right q.seq) : left = right := by
  rw [(ipcBuildid_exact sound left p foundLeft).1,
    (ipcBuildid_exact sound right q foundRight).1] at same
  have leftBound := IpcIds.entry_bound foundLeft
  have rightBound := IpcIds.entry_bound foundRight
  have small := sound.small
  change (32768 * p.seq + left : Int) = 32768 * q.seq + right at same
  omega

theorem ipcAddid_after {slot seq count : Nat} (after : After slot seq count ids) (new : KernIpcPerm)
    (size : Int) (allocated : Bool) (current : Credentials) :
    After slot seq (count + adds ids (.addid new size allocated current))
      (ids.ipcAddid new size allocated current).2 := by
  have cases_ := ipcAddid_cases ids new size allocated current
  rw [adds]
  generalize (ids.ipcAddid new size allocated current).1 = result at cases_ ⊢
  generalize (ids.ipcAddid new size allocated current).2 = next at cases_ ⊢
  cases cases_ with
  | full limit _ larger =>
    have entry := larger.entry
    obtain ⟨added, rfl⟩ := larger.entries
    refine ⟨after.counter, ?_⟩
    intro p found
    rw [entry] at found
    exact after.young p found
  | added limit grown _ id planted larger bound empty entries planted_seq inUse maxId nextSeq =>
    rw [if_neg (by omega)]
    refine ⟨?_, ?_⟩
    · rw [nextSeq, sound.seqMax, seq_next, after.counter]
      omega
    · intro p found
      rw [entry_set bound entries, larger.entry] at found
      split at found
      next =>
        cases found
        refine ⟨count + 1, by omega, by omega, ?_⟩
        rw [planted_seq, after.counter]
        congr 1
        omega
      next =>
        obtain ⟨age, first, most, value⟩ := after.young p found
        exact ⟨age, first, by omega, value⟩

end

theorem removed_after {slot seq count : Nat} (after : After slot seq count ids) {other : Nat}
    {old : KernIpcPerm} {next : IpcIds} (removed : Removed ids other old next) :
    After slot seq count next := by
  refine ⟨removed.seq.trans after.counter, ?_⟩
  intro p found
  rw [entry_set (IpcIds.entry_bound removed.taken) removed.entries] at found
  split at found
  next => cases found
  next => exact after.young p found

theorem run_after {slot seq : Nat} (ops : List Op) (final : IpcIds) :
    ∀ count ids, Sound ids → After slot seq count ids → Runs.run step ids ops = some final →
      Sound final ∧ After slot seq (count + additions ids ops) final := by
  induction ops with
  | nil =>
    intro count ids sound after executed
    cases executed
    exact ⟨sound, after⟩
  | cons op ops ih =>
    intro count ids sound after executed
    obtain ⟨next, stepped, rest⟩ := Option.bind_eq_some_iff.mp executed
    have nextAfter : After slot seq (count + adds ids op) next := by
      cases op with
      | addid new size allocated current =>
        cases stepped
        exact ipcAddid_after sound after new size allocated current
      | rmid id =>
        obtain ⟨⟨p, after'⟩, removed, rfl⟩ := Option.map_eq_some_iff.mp stepped
        obtain ⟨other, _, old, _, taken⟩ := ipcRmid_removed id p after' removed
        exact removed_after after taken
    have result := ih (count + adds ids op) next (step_sound sound op next stepped) nextAfter rest
    rw [additions, stepped]
    rw [Nat.add_assoc] at result
    exact result

/-- The counter alone, without a slot to watch. -/
theorem run_counter (ops : List Op) (final : IpcIds) (sound : Sound ids) (seq : Nat)
    (counter : ids.seq = (seq + 1) % 65536) (executed : Runs.run step ids ops = some final) :
    Sound final ∧ final.seq = (seq + 1 + additions ids ops) % 65536 := by
  -- a slot outside every array stays empty
  have outside : ∀ p, ids.entry 32768 ≠ some p := by
    intro p found
    have bound := IpcIds.entry_bound found
    have small := sound.small
    omega
  have result := run_after ops final 0 ids sound
    ⟨counter, fun p found => absurd found (outside p)⟩ executed
  rw [Nat.zero_add] at result
  exact ⟨result.1, result.2.counter⟩

theorem ipcCheckid_buildid (slot seq : Nat) (now : KernIpcPerm) (small : slot < 32768)
    (fits : seq ≤ 65535) (passes : ipcCheckid now (ipcBuildid slot seq) = 0) : now.seq = seq := by
  have exact_ : ipcBuildid slot seq = ((32768 * seq + slot : Nat) : Int) := by
    change s32 ((32768 : Nat) * (seq : Nat) + (slot : Nat)) = _
    exact s32_of_range _ (by omega) (by omega)
  rw [ipcCheckid, exact_] at passes
  split at passes
  · cases passes
  have quotient : (((32768 * seq + slot : Nat) : Int)).tdiv (seqMultiplier : Nat) =
      (((32768 * seq + slot) / 32768 : Nat) : Int) := rfl
  omega

section

variable (sound : Sound ids) (new : KernIpcPerm) (limit : Int) (grown : Bool)
  (current : Credentials) (slot : Nat) (result : (ids.ipcAddid new limit grown current).1 = slot)
  (p : KernIpcPerm) (found : (ids.ipcAddid new limit grown current).2.entry slot = some p)

include sound new limit grown current slot result p found

/-- The object that an addition planted, and the counter after it. -/
theorem ipcAddid_planted :
    p.seq = ids.seq ∧ (ids.ipcAddid new limit grown current).2.seq = (ids.seq + 1) % 65536 := by
  have cases_ := ipcAddid_cases ids new limit grown current
  rw [result] at cases_
  generalize answer : (slot : Int) = position at cases_
  cases cases_ with
  | full => omega
  | added limit larger _ id planted grows bound empty entries seq inUse maxId nextSeq =>
    obtain rfl : slot = id := Int.natCast_inj.mp answer
    rw [entry_set bound entries, if_pos rfl] at found
    cases found
    refine ⟨seq, ?_⟩
    rw [nextSeq, sound.seqMax, seq_next]

theorem stale_identifier (before after : List Op) (present rest final : IpcIds) (id : Int)
    (removed now : KernIpcPerm)
    (ran : Runs.run step (ids.ipcAddid new limit grown current).2 before = some present)
    (left : present.ipcRmid id = some (removed, rest)) (same : id.tmod seqMultiplier = slot)
    (ended : Runs.run step rest after = some final) (there : final.entry slot = some now)
    (passes : ipcCheckid now (ipcBuildid slot p.seq) = 0) :
    65536 ≤ additions (ids.ipcAddid new limit grown current).2 before + additions rest after := by
  have added := ipcAddid_sound sound new limit grown current
  obtain ⟨seq, counter⟩ := ipcAddid_planted sound new limit grown current slot result p found
  obtain ⟨presentSound, presentSeq⟩ := run_counter before present added ids.seq counter ran
  obtain ⟨position, value, old, _, taken⟩ := ipcRmid_removed id removed rest left
  obtain rfl : position = slot := Int.natCast_inj.mp (value.symm.trans same)
  -- the slot is empty right after the removal, so every later object in it is young
  have start : After position ids.seq
      (additions (ids.ipcAddid new limit grown current).2 before) rest := by
    refine ⟨taken.seq.trans presentSeq, ?_⟩
    intro q there
    rw [entry_set (IpcIds.entry_bound taken.taken) taken.entries, if_pos rfl] at there
    cases there
  obtain ⟨finalSound, last⟩ := run_after after final _ rest (removed_sound presentSound taken) start
    ended
  obtain ⟨age, first, most, aged⟩ := last.young now there
  have small : position < 32768 := by
    have bound := IpcIds.entry_bound there
    have length := finalSound.small
    omega
  have fits := sound.seq
  have passed := ipcCheckid_buildid position p.seq now small (by omega) passes
  omega

end

/-- A set after any additions and removals: the counters describe the entries, the
identifiers fit an `int` and differ, and the identifier of a removed object is taken
for another one's only after `seqMax + 1` further additions. -/
theorem ipcIds_identifiers (size : Nat) (allocated : Bool) (ops : List Op) (ids : IpcIds)
    (executed : Runs.run step (ipcInitIds size allocated) ops = some ids) :
    ids.inUse = ids.live ∧
    ((ids.maxId = -1 ∧ ∀ slot, ids.entry slot = none) ∨
      ∃ slot : Nat, ids.maxId = slot ∧ (∃ p, ids.entry slot = some p) ∧
        ∀ above, slot < above → ids.entry above = none) ∧
    (∀ slot p, ids.entry slot = some p →
      ipcBuildid slot p.seq = seqMultiplier * p.seq + slot ∧
        (seqMultiplier * p.seq + slot : Int) < 2 ^ 31) ∧
    (∀ left right p q, left ≠ right → ids.entry left = some p → ids.entry right = some q →
      ipcBuildid left p.seq ≠ ipcBuildid right q.seq) ∧
    (∀ new limit grown current, ∀ slot : Nat,
      (ids.ipcAddid new limit grown current).1 = slot →
      ∀ p, (ids.ipcAddid new limit grown current).2.entry slot = some p →
      ∀ before present id removed rest after final now,
        Runs.run step (ids.ipcAddid new limit grown current).2 before = some present →
        present.ipcRmid id = some (removed, rest) → id.tmod seqMultiplier = slot →
        Runs.run step rest after = some final → final.entry slot = some now →
        ipcCheckid now (ipcBuildid slot p.seq) = 0 →
        ids.seqMax + 1 ≤
          additions (ids.ipcAddid new limit grown current).2 before + additions rest after) := by
  have sound : Sound ids := by
    apply Runs.run_invariant (fun _ op next before _ => step_sound before op next) ops _ ids
      (ipcInitIds_sound size allocated)
      (Runs.along_of_forall (fun _ _ => trivial) ops _) executed
  refine ⟨sound.inUse, ?_, ipcBuildid_exact sound, ?_, ?_⟩
  · have above : ∀ slot, ids.maxId < (slot : Nat) → ids.entry slot = none := by
      intro slot beyond
      cases found : ids.entry slot with
      | none => rfl
      | some p =>
        have below := sound.top slot p found
        omega
    rcases sound.last with none_ | ⟨slot, value, taken⟩
    · exact .inl ⟨none_, fun slot => above slot (by omega)⟩
    · exact .inr ⟨slot, value, taken, fun higher beyond => above higher (by omega)⟩
  · intro left right p q apart foundLeft foundRight same
    exact apart (ipcBuildid_injective sound left right p q foundLeft foundRight same)
  · intro new limit grown current slot result p found before present id removed rest after final
      now ran left same ended there passes
    rw [sound.seqMax]
    exact stale_identifier sound new limit grown current slot result p found before after present
      rest final id removed now ran left same ended there passes

/-- Two objects, the first removed and its slot filled again: the old identifier does
not pass for the new object. -/
theorem ipcIds_identifiers_reuse :
    ∃ ids, Runs.run step (ipcInitIds 4 true)
        [.addid ⟨false, 1, 0, 0, 0, 0, 0⟩ 4 true ⟨0, 0⟩,
          .addid ⟨false, 2, 0, 0, 0, 0, 0⟩ 4 true ⟨0, 0⟩,
          .rmid 0, .addid ⟨false, 3, 0, 0, 0, 0, 0⟩ 4 true ⟨0, 0⟩] = some ids ∧
      ids.inUse = 2 ∧ ids.inUse = ids.live ∧
      ids.entries.map (Option.map fun p => ipcCheckid p (ipcBuildid 0 0)) =
        [some 1, some 1, none, none] := by
  have value : (Runs.run step (ipcInitIds 4 true)
      [.addid ⟨false, 1, 0, 0, 0, 0, 0⟩ 4 true ⟨0, 0⟩,
        .addid ⟨false, 2, 0, 0, 0, 0, 0⟩ 4 true ⟨0, 0⟩,
        .rmid 0, .addid ⟨false, 3, 0, 0, 0, 0, 0⟩ 4 true ⟨0, 0⟩]).map (fun ids => (ids.inUse,
          ids.entries.map (Option.map fun p => ipcCheckid p (ipcBuildid 0 0)))) =
      some (2, [some 1, some 1, none, none]) := by decide +kernel
  obtain ⟨ids, executed, value⟩ := Option.map_eq_some_iff.mp value
  rw [Prod.mk.injEq] at value
  exact ⟨ids, executed, value.1, (ipcIds_identifiers 4 true _ ids executed).1, value.2⟩

end MagxKernel.SysvIpc
