import MagxKernel.Pid.Bitmap

namespace MagxKernel.Pid

open Function

def reservedPids : Nat := 300

/-- The bits of a map, all clear before it has a page. -/
def Pidmap.bits (map : Pidmap) : Nat → Bool := map.page.getD fun _ => false

def inUse (pidmapArray : Nat → Pidmap) (pid : Nat) : Bool :=
  (pidmapArray (pid / bitsPerPage)).bits (pid % bitsPerPage)

def findNextOffset (page : Nat → Bool) (offset : Nat) : Nat :=
  ((List.range' offset (bitsPerPage - offset)).find? (!page ·)).getD bitsPerPage

/-- The `do` loop over the bits of a page, up to the one that it takes. -/
def scanPage (page : Nat → Bool) (goesOn : Nat → Prop) [DecidablePred goesOn] :
    (fuel offset : Nat) → Option Nat
  | 0, _ => none
  | fuel + 1, offset =>
    if page offset = false then some offset
    else
      let offset := findNextOffset page offset
      if offset < bitsPerPage ∧ goesOn offset then scanPage page goesOn fuel offset else none

/-- The condition of the `do` loop on a pid, with `left` more turns of the outer one. -/
abbrev GoesOn (pidMax last left pid : Nat) : Prop :=
  pid < pidMax ∧ (left ≠ 0 ∨ pid < last ∨ (last + 1) % bitsPerPage = 0)

/-- Set a bit and count it. -/
def take (pidmapArray : Nat → Pidmap) (map offset : Nat) : Nat → Pidmap :=
  update pidmapArray map
    ⟨(pidmapArray map).nrFree - 1, some (update (pidmapArray map).bits offset true)⟩

/-- The last turns of the loop over the maps. A page is allocated on first use if there is
`memory` for it. -/
def scanMaps (memory : Bool) (pidMax last : Nat) : (left map offset : Nat) → (Nat → Pidmap) →
    Option Nat × (Nat → Pidmap)
  | 0, _, _, pidmapArray => (none, pidmapArray)
  | left + 1, map, offset, pidmapArray =>
    let page := (pidmapArray map).bits
    if (pidmapArray map).page = none ∧ memory = false then (none, pidmapArray)
    else
      match if (pidmapArray map).nrFree = 0 then none else scanPage page
        (fun bit => GoesOn pidMax last left (map * bitsPerPage + bit)) bitsPerPage offset with
      | some bit => (some (map * bitsPerPage + bit), take pidmapArray map bit)
      | none =>
        let pidmapArray := update pidmapArray map { pidmapArray map with page := some page }
        if map < (pidMax - 1) / bitsPerPage then
          scanMaps memory pidMax last left (map + 1) 0 pidmapArray
        else if last = reservedPids then (none, pidmapArray)
        else scanMaps memory pidMax last left 0 reservedPids pidmapArray

/-- `alloc_pidmap` with the new `last_pid`; no pid is `-1`. -/
def allocPidmap (memory : Bool) (pidMax lastPid : Nat) (pidmapArray : Nat → Pidmap) :
    Option Nat × Nat × (Nat → Pidmap) :=
  let pid := if pidMax ≤ lastPid + 1 then reservedPids else lastPid + 1
  let offset := pid % bitsPerPage
  let maxScan := (pidMax + bitsPerPage - 1) / bitsPerPage - if offset = 0 then 1 else 0
  let scan := scanMaps memory pidMax lastPid (maxScan + 1) (pid / bitsPerPage) offset pidmapArray
  (scan.1, scan.1.getD lastPid, scan.2)

/-- A scan takes a pid that was free, or finds all that it tests in use. -/
inductive Scanned (pidMax : Nat) (tested : Nat → Prop) (before : Nat → Pidmap) :
    Option Nat × (Nat → Pidmap) → Prop
  | taken (pid : Nat) (inside : 1 ≤ pid ∧ pid < pidMax) (free : inUse before pid = false) :
      Scanned pidMax tested before (some pid, take before (pid / bitsPerPage) (pid % bitsPerPage))
  | full (used : ∀ pid, tested pid → inUse before pid = true) :
      Scanned pidMax tested before (none, before)

/-- The counter of a map is 0 only when all its bits are set. -/
def Pidmap.Counted (map : Pidmap) : Prop :=
  map.nrFree = 0 → ∀ bit < bitsPerPage, map.bits bit = true

theorem findNextOffset_spec (page : Nat → Bool) (offset : Nat) :
    (∀ bit, offset ≤ bit → bit < findNextOffset page offset → bit < bitsPerPage → page bit = true) ∧
      (findNextOffset page offset < bitsPerPage →
        offset ≤ findNextOffset page offset ∧ page (findNextOffset page offset) = false) := by
  unfold findNextOffset
  cases found : (List.range' offset (bitsPerPage - offset)).find? (!page ·) with
  | none =>
    rw [List.find?_range'_eq_none] at found
    refine ⟨fun bit low _ inside => ?_, fun less => absurd less (Nat.lt_irrefl _)⟩
    simpa using found bit low (by omega)
  | some next =>
    rw [List.find?_range'_eq_some] at found
    obtain ⟨clear, member, before⟩ := found
    refine ⟨fun bit low less _ => by simpa using before bit low less, fun _ => ⟨?_, ?_⟩⟩
    · exact (List.mem_range'_1.mp member).1
    · simpa using clear

/-- The bit that a loop over a page takes is clear; otherwise none is, where the loop goes on. -/
def Takes (page : Nat → Bool) (goesOn : Nat → Prop) (offset : Nat) : Option Nat → Prop
  | some bit => page bit = false ∧ bit < bitsPerPage ∧ offset ≤ bit ∧ (bit = offset ∨ goesOn bit)
  | none => page offset = true ∧
      ∀ bit, offset ≤ bit → bit < bitsPerPage → goesOn bit → page bit = true

/-- A bit that the loop finds clear is still clear when the loop comes to it. -/
theorem scanPage_takes {page : Nat → Bool} {goesOn : Nat → Prop} [DecidablePred goesOn]
    {offset : Nat} (fuel : Nat) (inside : offset < bitsPerPage)
    (closed : ∀ low high, low ≤ high → goesOn high → goesOn low) :
    Takes page goesOn offset (scanPage page goesOn (fuel + 2) offset) := by
  obtain ⟨before, next⟩ := findNextOffset_spec page offset
  rw [scanPage]
  cases first : page offset with
  | false => exact ⟨first, inside, Nat.le_refl _, .inl rfl⟩
  | true =>
    rw [if_neg nofun]
    dsimp only
    split
    · rename_i goes
      obtain ⟨low, clear⟩ := next goes.1
      rw [scanPage, if_pos clear]
      exact ⟨clear, goes.1, low, .inr goes.2⟩
    · rename_i stops
      refine ⟨first, fun bit low inside goes => before bit low ?_ inside⟩
      by_contra late
      have le := Nat.le_of_not_lt late
      exact stops ⟨Nat.lt_of_le_of_lt le inside, closed _ _ le goes⟩

/-- The pids that the last turns of the loop over the maps test. -/
def Tested (pidMax last : Nat) : (left map offset pid : Nat) → Prop
  | 0, _, _, _ => False
  | left + 1, map, offset, pid =>
    (pid / bitsPerPage = map ∧ offset ≤ pid % bitsPerPage ∧ GoesOn pidMax last left pid) ∨
      if map < (pidMax - 1) / bitsPerPage then Tested pidMax last left (map + 1) 0 pid
      else last ≠ reservedPids ∧ Tested pidMax last left 0 reservedPids pid

section

variable {pidMax last pid : Nat} {before : Nat → Pidmap}

theorem Scanned.weaken {tested more : Nat → Prop} {result : Option Nat × (Nat → Pidmap)}
    (scanned : Scanned pidMax tested before result)
    (used : ∀ pid, more pid → inUse before pid = true ∨ tested pid) :
    Scanned pidMax more before result := by
  cases scanned with
  | taken pid inside free => exact .taken pid inside free
  | full all => exact .full fun pid test => (used pid test).elim id (all pid)

theorem scanMaps_scanned (above : reservedPids < pidMax) (counted : ∀ map, (before map).Counted)
    (left map offset : Nat) (inside : offset < bitsPerPage)
    (start : 1 ≤ map * bitsPerPage + offset ∧ map * bitsPerPage + offset < pidMax) :
    Scanned pidMax (Tested pidMax last left map offset) before
      (scanMaps true pidMax last left map offset before) := by
  induction left generalizing map offset with
  | zero => exact .full fun _ none => none.elim
  | succ left ih =>
    have turn : Takes (before map).bits
      (fun bit => GoesOn pidMax last left (map * bitsPerPage + bit))
        offset (if (before map).nrFree = 0 then none else scanPage (before map).bits
          (fun bit => GoesOn pidMax last left (map * bitsPerPage + bit)) bitsPerPage offset) := by
      split
      · rename_i zero
        exact ⟨counted map zero offset inside, fun bit _ inside _ => counted map zero bit inside⟩
      · exact scanPage_takes 32766 inside fun low high le goes => by omega
    rw [scanMaps, if_neg (by simp)]
    generalize (if (before map).nrFree = 0 then none else _) = found at turn ⊢
    cases found with
    | some bit =>
      obtain ⟨clear, small, low, goes⟩ := turn
      have quotient : (map * bitsPerPage + bit) / bitsPerPage = map := by
        rw [Nat.mul_comm, Nat.mul_add_div (by decide), Nat.div_eq_of_lt small, Nat.add_zero]
      have remainder : (map * bitsPerPage + bit) % bitsPerPage = bit := Nat.mul_add_mod_of_lt small
      have taken := @Scanned.taken pidMax (Tested pidMax last (left + 1) map offset) before
        (map * bitsPerPage + bit) ⟨by omega, by omega⟩
      unfold inUse at taken
      rw [quotient, remainder] at taken
      exact taken clear
    | none =>
      have used : ∀ pid, (pid / bitsPerPage = map ∧ offset ≤ pid % bitsPerPage ∧
          GoesOn pidMax last left pid) → inUse before pid = true := by
        rintro pid ⟨rfl, low, goes⟩
        exact turn.2 _ low (Nat.mod_lt _ (by decide)) (by dsimp only; rwa [Nat.div_add_mod'])
      -- a map without a page has bits to take
      have same : update before map { before map with page := some (before map).bits } =
          before := by
        rw [update_eq_self_iff]
        have set := turn.1
        generalize before map = entry at set ⊢
        cases entry with | mk nrFree page =>
        cases page with
        | none => cases set
        | some page => rfl
      dsimp only
      rw [same]
      split
      · rename_i more
        refine (ih (map + 1) 0 (by decide) ?_).weaken fun pid tested => ?_
        · have bits : bitsPerPage = 32768 := rfl
          rw [bits] at more ⊢
          omega
        · rw [Tested, if_pos more] at tested
          exact tested.imp_left (used pid)
      · rename_i final
        split
        · rename_i stop
          refine .full fun pid tested => ?_
          rw [Tested, if_neg final] at tested
          exact tested.elim (used pid) fun wraps => absurd stop wraps.1
        · refine (ih 0 reservedPids (by decide) ⟨by decide, by omega⟩).weaken fun pid tested => ?_
          rw [Tested, if_neg final] at tested
          exact tested.imp (used pid) And.right

theorem tested_of_near (k left map offset : Nat) (page : pid / bitsPerPage = map + k)
    (low : k = 0 → offset ≤ pid % bitsPerPage) (goes : GoesOn pidMax last left pid) :
    Tested pidMax last (left + k + 1) map offset pid := by
  induction k generalizing map offset with
  | zero => exact .inl ⟨page, low rfl, goes⟩
  | succ k ih =>
    have le := @Nat.div_le_div_right pid (pidMax - 1) bitsPerPage (by omega)
    refine .inr ?_
    rw [if_pos (by omega)]
    exact ih (map + 1) 0 (by omega) fun _ => Nat.zero_le _

theorem tested_of_wrapped (k left map offset : Nat) (top : map + k = (pidMax - 1) / bitsPerPage)
    (wraps : last ≠ reservedPids) (tested : Tested pidMax last left 0 reservedPids pid) :
    Tested pidMax last (left + k + 1) map offset pid := by
  induction k generalizing map offset with
  | zero =>
    refine .inr ?_
    rw [if_neg (by omega)]
    exact ⟨wraps, tested⟩
  | succ k ih =>
    refine .inr ?_
    rw [if_pos (by omega)]
    exact ih (map + 1) 0 (by omega)

theorem tested_all {first maxScan : Nat} (reserved : reservedPids ≤ pid) (inside : pid < pidMax)
    (other : pid ≠ last) (starts : first = if pidMax ≤ last + 1 then reservedPids else last + 1)
    (scans : maxScan = (pidMax + bitsPerPage - 1) / bitsPerPage -
      if first % bitsPerPage = 0 then 1 else 0) :
    Tested pidMax last (maxScan + 1) (first / bitsPerPage) (first % bitsPerPage) pid := by
  simp only [show bitsPerPage = 32768 from rfl, show reservedPids = 300 from rfl] at *
  by_cases behind : first ≤ pid
  · obtain ⟨k, page⟩ : ∃ k, pid / 32768 = first / 32768 + k :=
      ⟨pid / 32768 - first / 32768, by omega⟩
    obtain ⟨left, total⟩ : ∃ left, maxScan = left + 1 + k :=
      ⟨maxScan - 1 - k, by split at starts <;> split at scans <;> omega⟩
    have low : k = 0 → first % 32768 ≤ pid % 32768 := by omega
    rw [total]
    exact tested_of_near k (left + 1) _ _ page low ⟨inside, .inl (Nat.succ_ne_zero left)⟩
  · obtain ⟨k, top⟩ : ∃ k, first / 32768 + k = (pidMax - 1) / 32768 :=
      ⟨(pidMax - 1) / 32768 - first / 32768, by split at starts <;> omega⟩
    obtain ⟨left, total⟩ : ∃ left, maxScan = left + pid / 32768 + 1 + k :=
      ⟨maxScan - (pid / 32768 + 1 + k), by split at starts <;> split at scans <;> omega⟩
    have low : pid / 32768 = 0 → 300 ≤ pid % 32768 := by omega
    have less : last ≠ 300 ∧ pid < last := by split at starts <;> omega
    rw [total]
    exact tested_of_wrapped k _ _ _ top less.1 (tested_of_near (pid / 32768) left 0 300
      (Nat.zero_add _).symm low ⟨inside, .inr (.inl less.2)⟩)

end

/-- A pid is found when one is free, save for the one given out last. -/
theorem allocPidmap_scanned (pidMax lastPid : Nat) (pidmapArray : Nat → Pidmap)
    (above : reservedPids < pidMax) (counted : ∀ map, (pidmapArray map).Counted) :
    ∃ found after, allocPidmap true pidMax lastPid pidmapArray =
        (found, found.getD lastPid, after) ∧
      Scanned pidMax (fun pid => reservedPids ≤ pid ∧ pid < pidMax ∧ pid ≠ lastPid) pidmapArray
        (found, after) := by
  unfold allocPidmap
  generalize starts : (if pidMax ≤ lastPid + 1 then reservedPids else lastPid + 1) = first
  have start : 1 ≤ first ∧ first < pidMax := by
    have low : reservedPids = 300 := rfl
    split at starts <;> omega
  refine ⟨_, _, rfl, (@scanMaps_scanned pidMax lastPid _ above counted _ (first / bitsPerPage)
    (first % bitsPerPage) (Nat.mod_lt first (by decide)) ?_).weaken fun pid tested => .inr ?_⟩
  · rwa [Nat.div_add_mod']
  · exact tested_all tested.1 tested.2.1 tested.2.2 starts.symm rfl

/-- The pids 0 and 301 are in use, and 300 was given out last. -/
def lastFreed : Nat → Pidmap := fun _ => ⟨32766, some fun bit => bit == 0 || bit == 301⟩

theorem lastFreed_counted (map : Nat) : (lastFreed map).Counted := nofun

theorem allocPidmap_scanned_lastFreed :
    ∃ found after, allocPidmap true 302 300 lastFreed = (found, found.getD 300, after) ∧
      Scanned 302 (fun pid => reservedPids ≤ pid ∧ pid < 302 ∧ pid ≠ 300) lastFreed
        (found, after) :=
  allocPidmap_scanned 302 300 lastFreed (by decide) lastFreed_counted

theorem allocPidmap_skips_last :
    (∀ map, (lastFreed map).Counted) ∧ (allocPidmap true 302 300 lastFreed).1 = none ∧
      inUse lastFreed 300 = false :=
  ⟨lastFreed_counted, by decide +kernel, rfl⟩

end MagxKernel.Pid
