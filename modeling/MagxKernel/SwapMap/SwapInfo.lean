import MagxKernel.Lib.Runs
import Mathlib.Algebra.Group.Nat.Defs

namespace MagxKernel.SwapMap

open Function

abbrev swapfileCluster : Nat := 256
abbrev swapMapMax : Nat := 0x7fff
abbrev swapMapBad : Nat := 0x8000
abbrev maxSwapBadpages : Nat := 637
abbrev einval : Int := 22
abbrev enomem : Int := 12

/-- The largest offset that a page table entry of the architecture can hold. -/
abbrev maxSwpOffset : Nat := 2 ^ 23 - 1

/-- The part of `struct swap_info_struct` that the allocator works on. `swapMap` is
an array of `max` counters. -/
structure SwapInfo where
  swapMap : Nat → Nat
  lowestBit : Nat
  highestBit : Nat
  clusterNext : Nat
  clusterNr : Nat
  max : Nat
  inusePages : Nat

/-- The loop of `sys_swapon` over the list of bad pages: the map, and whether an entry
was out of range. A page behind the end of the map would be written outside it. -/
def applyBadpages (lastPage maxpages : Nat) :
    (Nat → Nat) → Bool → List Int → Option ((Nat → Nat) × Bool)
  | swapMap, error, [] => some (swapMap, error)
  | swapMap, error, page :: pages =>
      if page ≤ 0 ∨ page ≥ lastPage then applyBadpages lastPage maxpages swapMap true pages
      else if page ≥ maxpages then none
      else
        applyBadpages lastPage maxpages (update swapMap page.toNat swapMapBad) error pages

/-- The `max` that `setup_swap_extents` leaves: a block device is one extent, a file has a
page for each aligned run of blocks, as far as `max` goes. -/
def setupSwapExtents (max : Nat) : Option Nat → Except Int Nat
  | none => .ok max
  | some runs => if Nat.min runs max = 0 then .error (-einval) else .ok (Nat.min runs max)

/-- `sys_swapon` from the version check of the header on. `extents` says how many aligned runs
of blocks a file has, or with which error they cannot be mapped. `clusterNext` is what the slot
of `swap_info` was left with; `vmalloc` says whether the map can be allocated. -/
def swapon (lastPage : Nat) (badpages : List Int) (swapfilesize : Nat) (vmalloc : Bool)
    (extents : Except Int (Option Nat)) (clusterNext : Nat) : Option (Except Int SwapInfo) :=
  let maxpages := if maxSwpOffset - 1 > lastPage then lastPage else maxSwpOffset - 1
  if badpages.length > maxSwapBadpages then some (.error (-einval))
  else if !vmalloc ∨ maxpages = 0 then some (.error (-enomem))
  else
    match applyBadpages lastPage maxpages (fun _ => 0) false badpages with
    | none => none
    | some (_, true) => some (.error (-einval))
    | some (swapMap, false) =>
        let nrGoodPages : Int := lastPage - badpages.length - 1
        if swapfilesize ≠ 0 ∧ maxpages > swapfilesize then some (.error (-einval))
        else if nrGoodPages = 0 then some (.error (-einval))
        else
          some ((extents.bind (setupSwapExtents maxpages)).map fun max =>
            { swapMap := update swapMap 0 swapMapBad
              lowestBit := 1
              highestBit := max - 1
              clusterNext := clusterNext
              clusterNr := 0
              max := max
              inusePages := 0 })

/-- The first free slot from `start` to `last`. -/
def firstFree (swapMap : Nat → Nat) (start last : Nat) : Option Nat :=
  (List.range' start (last + 1 - start)).find? fun offset => swapMap offset = 0

/-- The first used slot of a cluster. -/
def firstUsed (swapMap : Nat → Nat) (start : Nat) : Option Nat :=
  (List.range' start swapfileCluster).find? fun nr => swapMap nr ≠ 0

/-- The loop at `check_next_cluster`. Each round starts behind the last one, so that
as many rounds as there are slots are enough. -/
def emptyCluster (swapMap : Nat → Nat) (highestBit : Nat) : Nat → Nat → Option Nat
  | 0, _ => none
  | fuel + 1, offset =>
      if offset + swapfileCluster - 1 ≤ highestBit then
        match firstUsed swapMap offset with
        | some nr => emptyCluster swapMap highestBit fuel (nr + 1)
        | none => some offset
      else none

namespace SwapInfo

/-- From the label `got_page` on. -/
def gotPage (si : SwapInfo) (offset : Nat) : Nat × SwapInfo :=
  let lowestBit := if offset = si.lowestBit then si.lowestBit + 1 else si.lowestBit
  let highestBit := if offset = si.highestBit then si.highestBit - 1 else si.highestBit
  let crossed := lowestBit > highestBit
  (offset, { si with
    lowestBit := if crossed then si.max else lowestBit
    highestBit := if crossed then 0 else highestBit
    swapMap := update si.swapMap offset 1
    inusePages := si.inusePages + 1
    clusterNext := offset + 1 })

/-- No luck, so now go finegrined as usual. -/
def scanFine (si : SwapInfo) : Nat × SwapInfo :=
  match firstFree si.swapMap si.lowestBit si.highestBit with
  | some offset => { si with lowestBit := offset + 1 }.gotPage offset
  | none => (0, { si with lowestBit := si.max, highestBit := 0 })

/-- A new cluster: an empty one if there is any. -/
def scanCluster (si : SwapInfo) : Nat × SwapInfo :=
  match emptyCluster si.swapMap si.highestBit (si.highestBit + 1 - si.lowestBit) si.lowestBit with
  | some offset => si.gotPage offset
  | none => si.scanFine

/-- `scan_swap_map`: the slot, or 0, and the area afterwards. The present cluster goes
on while it lasts; its loop leaves `cluster_next` behind the last slot it has seen. -/
def scanSwapMap (si : SwapInfo) : Nat × SwapInfo :=
  if si.clusterNr = 0 then { si with clusterNr := swapfileCluster }.scanCluster
  else
    match firstFree si.swapMap si.clusterNext si.highestBit with
    | some offset =>
        { si with clusterNr := si.clusterNr - 1, clusterNext := offset + 1 }.gotPage offset
    | none =>
        { si with
          clusterNr := swapfileCluster
          clusterNext := Nat.max si.clusterNext (si.highestBit + 1) }.scanCluster

/-- `swap_entry_free`: the new count and the area. -/
def swapEntryFree (p : SwapInfo) (offset : Nat) : Nat × SwapInfo :=
  let count := p.swapMap offset
  if count < swapMapMax then
    let count := count - 1
    let freed := { p with swapMap := update p.swapMap offset count }
    if count = 0 then
      (count, { freed with
        lowestBit := if offset < p.lowestBit then offset else p.lowestBit
        highestBit := if offset > p.highestBit then offset else p.highestBit
        inusePages := p.inusePages - 1 })
    else (count, freed)
  else (count, p)

/-- `swap_duplicate` on an offset of the area. -/
def swapDuplicate (p : SwapInfo) (offset : Nat) : Nat × SwapInfo :=
  if offset < p.max ∧ p.swapMap offset ≠ 0 then
    if p.swapMap offset < swapMapMax - 1 then
      (1, { p with swapMap := update p.swapMap offset (p.swapMap offset + 1) })
    else if p.swapMap offset ≤ swapMapMax then
      (1, { p with swapMap := update p.swapMap offset swapMapMax })
    else (0, p)
  else (0, p)

end SwapInfo

/-- An area with the slots that were allocated and not freed since. -/
structure Area where
  info : SwapInfo
  allocated : List Nat

inductive Op where
  | scan
  | free (offset : Nat)
  | duplicate (offset : Nat)
deriving DecidableEq

def step (area : Area) : Op → Option Area
  | .scan =>
      let result := area.info.scanSwapMap
      some ⟨result.2, if result.1 = 0 then area.allocated else result.1 :: area.allocated⟩
  | .free offset =>
      let result := area.info.swapEntryFree offset
      some ⟨result.2, if result.1 = 0 then area.allocated.erase offset else area.allocated⟩
  | .duplicate offset => some ⟨(area.info.swapDuplicate offset).2, area.allocated⟩

/-- A slot is freed only while it is used, which `swap_info_get` checks. -/
def Allowed (area : Area) : Op → Prop
  | .free offset => offset < area.info.max ∧ area.info.swapMap offset ≠ 0
  | .scan | .duplicate _ => True

instance (area : Area) (op : Op) : Decidable (Allowed area op) :=
  match op with
  | .free offset =>
      inferInstanceAs (Decidable (offset < area.info.max ∧ area.info.swapMap offset ≠ 0))
  | .scan | .duplicate _ => inferInstanceAs (Decidable True)

end MagxKernel.SwapMap
