import MagxKernel.SwapMap.SwapInfo

namespace MagxKernel.SwapMap

open Function List

/-- The search bounds enclose every free slot, and the counter counts the allocated ones. -/
structure Sound (area : Area) : Prop where
  header : area.info.swapMap 0 = swapMapBad
  within : area.info.highestBit < area.info.max
  enclosed : ∀ offset, offset < area.info.max → area.info.swapMap offset = 0 →
    area.info.lowestBit ≤ offset ∧ offset ≤ area.info.highestBit
  counted : area.info.inusePages = area.allocated.length
  nodup : area.allocated.Nodup
  taken : ∀ offset, offset ∈ area.allocated ↔
    offset < area.info.max ∧ area.info.swapMap offset ≠ 0 ∧ area.info.swapMap offset ≠ swapMapBad

section Searches

variable {swapMap : Nat → Nat}

theorem firstFree_some {start last offset : Nat}
    (found : firstFree swapMap start last = some offset) :
    swapMap offset = 0 ∧ start ≤ offset ∧ offset ≤ last ∧
      ∀ before, start ≤ before → before < offset → swapMap before ≠ 0 := by
  rw [firstFree, find?_range'_eq_some] at found
  obtain ⟨free, member, earlier⟩ := found
  rw [mem_range'_1] at member
  refine ⟨by simpa using free, member.1, by omega, ?_⟩
  intro before low high
  simpa using earlier before low high

theorem firstFree_none {start last : Nat} (missing : firstFree swapMap start last = none)
    (offset : Nat) (low : start ≤ offset) (high : offset ≤ last) : swapMap offset ≠ 0 := by
  rw [firstFree, find?_eq_none] at missing
  have used := missing offset (mem_range'_1.mpr ⟨low, by omega⟩)
  simpa using used

theorem firstUsed_none {start : Nat} (missing : firstUsed swapMap start = none) :
    swapMap start = 0 := by
  rw [firstUsed, find?_eq_none] at missing
  have free := missing start (mem_range'_1.mpr ⟨Nat.le_refl _, by simp⟩)
  simpa using free

theorem emptyCluster_some {highestBit fuel start offset : Nat}
    (found : emptyCluster swapMap highestBit fuel start = some offset) :
    swapMap offset = 0 ∧ offset ≤ highestBit := by
  induction fuel generalizing start with
  | zero => cases found
  | succ fuel ih =>
    obtain ⟨fits, found⟩ := Option.ite_none_right_eq_some.mp found
    split at found
    next nr _ => exact ih found
    next missing =>
      cases found
      refine ⟨firstUsed_none missing, ?_⟩
      change offset + 256 - 1 ≤ highestBit at fits
      omega

end Searches

/-- A slot was free and is handed out; every other free slot stays inside the bounds. -/
structure Granted (before : SwapInfo) (offset : Nat) (after : SwapInfo) : Prop where
  free : before.swapMap offset = 0
  inside : offset < before.max
  swapMap : after.swapMap = Function.update before.swapMap offset 1
  max : after.max = before.max
  inusePages : after.inusePages = before.inusePages + 1
  within : after.highestBit < after.max
  enclosed : ∀ other, other < before.max → other ≠ offset → before.swapMap other = 0 →
    after.lowestBit ≤ other ∧ other ≤ after.highestBit

theorem gotPage_granted (si : SwapInfo) (offset : Nat)
    (free : si.swapMap offset = 0) (low : offset ≤ si.highestBit) (within : si.highestBit < si.max)
    (enclosed : ∀ other, other < si.max → other ≠ offset → si.swapMap other = 0 →
      si.lowestBit ≤ other ∧ other ≤ si.highestBit) :
    Granted si offset (si.gotPage offset).2 := by
  have upper : (if offset = si.highestBit then si.highestBit - 1 else si.highestBit) ≤
      si.highestBit := by
    split
    next => exact Nat.sub_le _ _
    next => exact Nat.le_refl _
  have bounds : ∀ other, other < si.max → other ≠ offset → si.swapMap other = 0 →
      (if offset = si.lowestBit then si.lowestBit + 1 else si.lowestBit) ≤ other ∧
        other ≤ (if offset = si.highestBit then si.highestBit - 1 else si.highestBit) := by
    intro other inside apart isFree
    have old := enclosed other inside apart isFree
    constructor
    · split
      next => omega
      next => exact old.1
    · split
      next => omega
      next => exact old.2
  simp only [SwapInfo.gotPage]
  generalize (if offset = si.lowestBit then si.lowestBit + 1 else si.lowestBit) = lowest at *
  generalize (if offset = si.highestBit then si.highestBit - 1 else si.highestBit) = highest at *
  refine ⟨free, by omega, rfl, rfl, rfl, ?_, ?_⟩
  · change (if lowest > highest then 0 else highest) < si.max
    split
    next => omega
    next => omega
  · intro other inside apart isFree
    have inner := bounds other inside apart isFree
    -- bounds that have crossed enclose no slot, so there is no other free one
    have order : ¬lowest > highest := by omega
    rw [if_neg order, if_neg order]
    exact inner

/-- What the scan relies on: the header is never free, and the bounds enclose every free slot. -/
structure Searchable (si : SwapInfo) : Prop where
  header : si.swapMap 0 ≠ 0
  within : si.highestBit < si.max
  enclosed : ∀ offset, offset < si.max → si.swapMap offset = 0 →
    si.lowestBit ≤ offset ∧ offset ≤ si.highestBit

/-- What a scan gives: a slot that was free, or the proof that there is none. -/
inductive Scanned (before : SwapInfo) : Nat × SwapInfo → Prop
  | granted (offset : Nat) (after : SwapInfo) (positive : offset ≠ 0)
      (grant : Granted before offset after) : Scanned before (offset, after)
  | full (after : SwapInfo) (used : ∀ offset, offset < before.max → before.swapMap offset ≠ 0)
      (swapMap : after.swapMap = before.swapMap) (max : after.max = before.max)
      (inusePages : after.inusePages = before.inusePages) (within : after.highestBit < after.max) :
      Scanned before (0, after)

section Scan

variable {si : SwapInfo}

theorem Scanned.cluster {result : Nat × SwapInfo} (clusterNr clusterNext : Nat)
    (scanned : Scanned { si with clusterNr := clusterNr, clusterNext := clusterNext } result) :
    Scanned si result := by
  cases scanned with
  | granted offset after positive grant =>
    exact .granted offset after positive { grant with }
  | full after used swapMap max inusePages within =>
    exact .full after used swapMap max inusePages within

section

variable (searchable : Searchable si)

include searchable

theorem Searchable.cluster (clusterNr clusterNext : Nat) :
    Searchable { si with clusterNr := clusterNr, clusterNext := clusterNext } :=
  { searchable with }

theorem Searchable.pos {offset : Nat} (free : si.swapMap offset = 0) : offset ≠ 0 := by
  rintro rfl
  exact searchable.header free

theorem scanFine_scanned : Scanned si si.scanFine := by
  rw [SwapInfo.scanFine]
  split
  next offset found =>
    obtain ⟨free, low, high, earlier⟩ := firstFree_some found
    have later : ∀ other, other < si.max → other ≠ offset → si.swapMap other = 0 →
        offset + 1 ≤ other ∧ other ≤ si.highestBit := by
      intro other inside apart isFree
      have bounds := searchable.enclosed other inside isFree
      have behind : ¬other < offset := fun before => earlier other bounds.1 before isFree
      exact ⟨by omega, bounds.2⟩
    have grant := gotPage_granted { si with lowestBit := offset + 1 } offset free
      high searchable.within later
    exact .granted offset _ (searchable.pos free) { grant with }
  next missing =>
    have within := searchable.within
    refine .full _ ?_ rfl rfl rfl (by change 0 < si.max; omega)
    intro offset inside isFree
    have bounds := searchable.enclosed offset inside isFree
    exact firstFree_none missing offset bounds.1 bounds.2 isFree

theorem gotPage_scanned (offset : Nat) (free : si.swapMap offset = 0)
    (high : offset ≤ si.highestBit) :
    Scanned si (si.gotPage offset) :=
  .granted offset _ (searchable.pos free) (gotPage_granted si offset free high
    searchable.within fun other inside _ => searchable.enclosed other inside)

theorem scanCluster_scanned : Scanned si si.scanCluster := by
  rw [SwapInfo.scanCluster]
  split
  next offset found =>
    have cluster := emptyCluster_some found
    exact gotPage_scanned searchable offset cluster.1 cluster.2
  next => exact scanFine_scanned searchable

theorem scanSwapMap_scanned : Scanned si si.scanSwapMap := by
  rw [SwapInfo.scanSwapMap]
  split
  next =>
    apply Scanned.cluster swapfileCluster si.clusterNext
    exact scanCluster_scanned (searchable.cluster _ _)
  next =>
    split
    next offset found =>
      obtain ⟨free, _, high, _⟩ := firstFree_some found
      apply Scanned.cluster (si.clusterNr - 1) (offset + 1)
      exact gotPage_scanned (searchable.cluster _ _) offset free high
    next =>
      apply Scanned.cluster swapfileCluster (Nat.max si.clusterNext (si.highestBit + 1))
      exact scanCluster_scanned (searchable.cluster _ _)

end

end Scan

section Steps

variable {area : Area}

section

variable (sound : Sound area)

include sound

theorem Sound.searchable : Searchable area.info := by
  refine { sound with header := ?_ }
  rw [sound.header]
  decide

variable (offset : Nat)

theorem Sound.ne_zero (good : area.info.swapMap offset ≠ swapMapBad) : offset ≠ 0 := by
  rintro rfl
  exact good sound.header

/-- One entry of the map gets another value. -/
theorem Sound.setEntry {after : SwapInfo} {allocated : List Nat} {offset count : Nat}
    (positive : offset ≠ 0) (swapMap : after.swapMap = update area.info.swapMap offset count)
    (max : after.max = area.info.max) (within : after.highestBit < after.max)
    (enclosed : ∀ other < area.info.max,
      (if other = offset then count else area.info.swapMap other) = 0 →
        after.lowestBit ≤ other ∧ other ≤ after.highestBit)
    (counted : after.inusePages = allocated.length) (nodup : allocated.Nodup)
    (here : offset ∈ allocated ↔ offset < area.info.max ∧ count ≠ 0 ∧ count ≠ swapMapBad)
    (others : ∀ other, other ≠ offset → (other ∈ allocated ↔ other ∈ area.allocated)) :
    Sound ⟨after, allocated⟩ := by
  have value : ∀ other, after.swapMap other =
      if other = offset then count else area.info.swapMap other := by
    intro other
    rw [swapMap, update_apply]
  refine ⟨?_, within, ?_, counted, nodup, ?_⟩
  · rw [value, if_neg positive.symm]
    exact sound.header
  · intro other inside isFree
    rw [value] at isFree
    exact enclosed other (max ▸ inside) isFree
  · intro other
    rw [value, max]
    split
    next same =>
      rw [same]
      exact here
    next apart => exact (others other apart).trans (sound.taken other)

theorem granted_sound (after : SwapInfo) (positive : offset ≠ 0)
    (grant : Granted area.info offset after) : Sound ⟨after, offset :: area.allocated⟩ := by
  have fresh : offset ∉ area.allocated := by
    intro member
    exact ((sound.taken offset).mp member).2.1 grant.free
  refine sound.setEntry positive grant.swapMap grant.max grant.within ?_ ?_
    (nodup_cons.mpr ⟨fresh, sound.nodup⟩) ?_ ?_
  · intro other inside isFree
    split at isFree
    · cases isFree
    rename_i apart
    exact grant.enclosed other inside apart isFree
  · rw [grant.inusePages, sound.counted, length_cons]
  · exact iff_of_true mem_cons_self ⟨grant.inside, by decide, by decide⟩
  · intro other apart
    rw [mem_cons, or_iff_right apart]

theorem scan_sound (next : Area) (stepped : step area .scan = some next) : Sound next := by
  have scanned := scanSwapMap_scanned sound.searchable
  cases stepped
  generalize area.info.scanSwapMap = result at scanned ⊢
  cases scanned with
  | granted offset after positive grant =>
    rw [if_neg positive]
    exact granted_sound sound offset after positive grant
  | full after used swapMap max inusePages within =>
    refine ⟨?_, within, ?_, inusePages.trans sound.counted, sound.nodup, ?_⟩
    · rw [swapMap]
      exact sound.header
    · intro offset inside isFree
      rw [swapMap] at isFree
      exact absurd isFree (used offset (by rw [← max]; exact inside))
    · intro offset
      rw [swapMap, max]
      exact sound.taken offset

/-- A used slot gets another count that still says used. -/
theorem recount_sound (offset count : Nat) (positive : count ≠ 0) (good : count ≠ swapMapBad)
    (used : area.info.swapMap offset ≠ 0) (old : area.info.swapMap offset ≠ swapMapBad) :
    Sound ⟨{ area.info with swapMap := update area.info.swapMap offset count },
      area.allocated⟩ := by
  refine sound.setEntry (sound.ne_zero offset old) rfl rfl sound.within ?_ sound.counted
    sound.nodup ?_ fun _ _ => Iff.rfl
  · intro other inside isFree
    split at isFree
    next => exact absurd isFree positive
    next => exact sound.enclosed other inside isFree
  · rw [sound.taken]
    simp [used, old, positive, good]

/-- The last count of a slot is given back: the bounds widen to it. -/
theorem freed_sound (inside : offset < area.info.max) (used : area.info.swapMap offset ≠ 0)
    (good : area.info.swapMap offset ≠ swapMapBad) :
    Sound ⟨{ area.info with
        swapMap := update area.info.swapMap offset 0
        lowestBit := if offset < area.info.lowestBit then offset else area.info.lowestBit
        highestBit := if offset > area.info.highestBit then offset else area.info.highestBit
        inusePages := area.info.inusePages - 1 }, area.allocated.erase offset⟩ := by
  have held : offset ∈ area.allocated := (sound.taken offset).mpr ⟨inside, used, good⟩
  refine sound.setEntry (sound.ne_zero offset good) rfl rfl ?_ ?_ ?_ (sound.nodup.erase offset)
    (iff_of_false sound.nodup.not_mem_erase fun holds => holds.2.1 rfl)
    fun _ => mem_erase_of_ne
  · have within := sound.within
    change (if offset > area.info.highestBit then offset else area.info.highestBit) < area.info.max
    split
    next => exact inside
    next => exact within
  · intro other below isFree
    change (if offset < area.info.lowestBit then offset else area.info.lowestBit) ≤ other ∧
      other ≤ (if offset > area.info.highestBit then offset else area.info.highestBit)
    split at isFree
    next same =>
      exact ⟨by split <;> omega, by split <;> omega⟩
    next =>
      have bounds := sound.enclosed other below isFree
      exact ⟨by split <;> omega, by split <;> omega⟩
  · rw [length_erase_of_mem held, sound.counted]

theorem free_sound (inside : offset < area.info.max) (used : area.info.swapMap offset ≠ 0)
    (next : Area) (stepped : step area (.free offset) = some next) : Sound next := by
  simp only [step, SwapInfo.swapEntryFree, Option.some.injEq] at stepped
  subst stepped
  split
  next small =>
    have good : area.info.swapMap offset ≠ swapMapBad := by
      change area.info.swapMap offset < 32767 at small
      change area.info.swapMap offset ≠ 32768
      omega
    split
    next last =>
      simp only [last]
      exact freed_sound sound offset inside used good
    next more =>
      apply recount_sound sound offset _ more _ used good
      change area.info.swapMap offset < 32767 at small
      change area.info.swapMap offset - 1 ≠ 32768
      omega
  next => exact sound

theorem duplicate_sound (next : Area) (stepped : step area (.duplicate offset) = some next) :
    Sound next := by
  simp only [step, SwapInfo.swapDuplicate, Option.some.injEq] at stepped
  subst stepped
  split
  next valid =>
    split
    next small =>
      change area.info.swapMap offset < 32767 - 1 at small
      apply recount_sound sound offset _ (Nat.succ_ne_zero _) _ valid.2
      · change area.info.swapMap offset ≠ 32768
        omega
      · change area.info.swapMap offset + 1 ≠ 32768
        omega
    next =>
      split
      next most =>
        change area.info.swapMap offset ≤ 32767 at most
        apply recount_sound sound offset _ (by decide) (by decide) valid.2
        change area.info.swapMap offset ≠ 32768
        omega
      next => exact sound
  next => exact sound

theorem step_sound (op : Op) (allowed : Allowed area op) (next : Area)
    (stepped : step area op = some next) : Sound next := by
  cases op with
  | scan => exact scan_sound sound next stepped
  | free offset => exact free_sound sound offset allowed.1 allowed.2 next stepped
  | duplicate offset => exact duplicate_sound sound offset next stepped

end

end Steps

/-- The bad pages are marked as such and every other slot stays free. -/
theorem applyBadpages_values (lastPage maxpages : Nat) (badpages : List Int)
    (result : (Nat → Nat) × Bool) :
    ∀ swapMap, (∀ offset, swapMap offset = 0 ∨ swapMap offset = swapMapBad) →
      ∀ error, applyBadpages lastPage maxpages swapMap error badpages = some result →
      ∀ offset, result.1 offset = 0 ∨ result.1 offset = swapMapBad := by
  induction badpages with
  | nil =>
    intro swapMap values error applied
    cases applied
    exact values
  | cons page pages ih =>
    intro swapMap values error applied
    rw [applyBadpages] at applied
    split at applied
    next => exact ih swapMap values true applied
    next =>
      split at applied
      · cases applied
      refine ih _ ?_ error applied
      intro offset
      rw [update_apply]
      split
      next => exact .inr rfl
      next => exact values offset

theorem setupSwapExtents_pos {maxpages max : Nat} (positive : 0 < maxpages) {runs : Option Nat}
    (mapped : setupSwapExtents maxpages runs = .ok max) : 0 < max := by
  unfold setupSwapExtents at mapped
  split at mapped
  · cases mapped
    exact positive
  · split at mapped
    · cases mapped
    · cases mapped
      exact Nat.pos_of_ne_zero ‹_›

theorem swapon_sound {lastPage : Nat} {badpages : List Int} {swapfilesize : Nat} {vmalloc : Bool}
    {extents : Except Int (Option Nat)} {clusterNext : Nat} {si : SwapInfo}
    (opened : swapon lastPage badpages swapfilesize vmalloc extents clusterNext = some (.ok si)) :
    Sound ⟨si, []⟩ := by
  simp only [swapon] at opened
  generalize (if maxSwpOffset - 1 > lastPage then lastPage else maxSwpOffset - 1) =
    maxpages at opened
  split at opened
  · cases opened
  split at opened
  · cases opened
  split at opened
  next => cases opened
  next => cases opened
  next swapMap applied =>
    have values := applyBadpages_values lastPage maxpages badpages (swapMap, false) _
      (fun _ => .inl rfl) false applied
    split at opened
    · cases opened
    split at opened
    · cases opened
    cases extents with
    | error => cases opened
    | ok runs =>
    cases mapped : setupSwapExtents maxpages runs with
    | error error =>
      rw [Except.bind, mapped] at opened
      cases opened
    | ok max =>
    have positive : 0 < max := setupSwapExtents_pos (by omega) mapped
    rw [Except.bind, mapped] at opened
    cases opened
    refine ⟨?_, by change max - 1 < max; omega, ?_, rfl, nodup_nil, ?_⟩
    · change update swapMap 0 swapMapBad 0 = swapMapBad
      exact update_self _ _ _
    · intro offset inside isFree
      have positive : offset ≠ 0 := by
        rintro rfl
        cases isFree
      change 1 ≤ offset ∧ offset ≤ max - 1
      change offset < max at inside
      omega
    · intro offset
      refine iff_of_false not_mem_nil ?_
      rintro ⟨_, used, good⟩
      change update swapMap 0 swapMapBad offset ≠ 0 at used
      change update swapMap 0 swapMapBad offset ≠ swapMapBad at good
      rw [update_apply] at used good
      split at good
      next => exact good rfl
      next apart =>
        rw [if_neg apart] at used
        rcases values offset with free | bad
        · exact used free
        · exact good bad

/-- An area after any scans and frees: the bounds enclose every free slot, the counter
counts the slots that are allocated, and a scan gives out a free slot as long as there
is one. -/
theorem swapMap_bounds (lastPage : Nat) (badpages : List Int) (swapfilesize : Nat) (vmalloc : Bool)
    (extents : Except Int (Option Nat)) (clusterNext : Nat) (si : SwapInfo)
    (opened : swapon lastPage badpages swapfilesize vmalloc extents clusterNext = some (.ok si))
    (ops : List Op) (final : Area) (permitted : Runs.Along step Allowed ⟨si, []⟩ ops)
    (executed : Runs.run step ⟨si, []⟩ ops = some final) :
    (∀ offset, offset < final.info.max → final.info.swapMap offset = 0 →
      final.info.lowestBit ≤ offset ∧ offset ≤ final.info.highestBit) ∧
    (final.info.inusePages = final.allocated.length ∧ final.allocated.Nodup ∧
      ∀ offset, offset ∈ final.allocated ↔ offset < final.info.max ∧
        final.info.swapMap offset ≠ 0 ∧ final.info.swapMap offset ≠ swapMapBad) ∧
    (final.info.scanSwapMap.1 ≠ 0 →
      final.info.scanSwapMap.1 < final.info.max ∧
        final.info.swapMap final.info.scanSwapMap.1 = 0 ∧
        final.info.scanSwapMap.2.swapMap =
          Function.update final.info.swapMap final.info.scanSwapMap.1 1) ∧
    (final.info.scanSwapMap.1 = 0 →
      ∀ offset, offset < final.info.max → final.info.swapMap offset ≠ 0) := by
  have sound : Sound final := by
    apply Runs.run_invariant (fun _ op next before allowed => step_sound before op allowed next)
      ops _ final _ permitted executed
    exact swapon_sound opened
  have scanned := scanSwapMap_scanned sound.searchable
  refine ⟨sound.enclosed, ⟨sound.counted, sound.nodup, sound.taken⟩, ?_⟩
  generalize final.info.scanSwapMap = result at scanned ⊢
  cases scanned with
  | granted offset after positive grant =>
    exact ⟨fun _ => ⟨grant.inside, grant.free, grant.swapMap⟩, fun zero => absurd zero positive⟩
  | full after used => exact ⟨absurd rfl, fun _ => used⟩

/-- A file with a bad page and four that are mapped: the two good slots are handed out, and a
freed one again. -/
theorem swapMap_bounds_fourPages :
    ∃ si final, swapon 9 [2] 0 true (.ok (some 4)) 0 = some (.ok si) ∧
      Runs.run step ⟨si, []⟩ [.scan, .scan, .free 1, .scan] = some final ∧
      final.allocated = [1, 3] ∧ final.info.inusePages = final.allocated.length := by
  refine ⟨_, _, rfl, rfl, by decide +kernel, ?_⟩
  exact (swapMap_bounds 9 [2] 0 true (.ok (some 4)) 0 _ rfl [.scan, .scan, .free 1, .scan] _
    (by decide +kernel) rfl).2.1.1

end MagxKernel.SwapMap
