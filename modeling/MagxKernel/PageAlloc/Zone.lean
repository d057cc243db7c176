import MagxKernel.Lib.BuddyBlocks

namespace MagxKernel.PageAlloc

open BuddyBlocks

/-- One order of the allocator: the pages heading its free blocks, newest first,
and one bit for every pair of blocks. -/
structure FreeArea where
  freeList : List Nat
  map : Nat → Bool

/-- Pages are named by their distance from `zone_mem_map`. -/
structure Zone where
  spannedPages : Nat
  freePages : Nat
  freeArea : Nat → FreeArea

namespace Zone

/-- The range half of `bad_range`; page indices start at `zone_start_pfn`. -/
def badRange (zone : Zone) (page : Nat) : Bool := decide (zone.spannedPages ≤ page)

def setArea (zone : Zone) (order : Nat) (area : FreeArea) : Zone :=
  { zone with freeArea := Function.update zone.freeArea order area }

/-- `__change_bit` on the map of one order. -/
def changeBit (zone : Zone) (order index : Nat) : Zone :=
  let area := zone.freeArea order
  zone.setArea order { area with map := Function.update area.map index (!area.map index) }

/-- `list_add` at the head of one free list. -/
def listAdd (zone : Zone) (order page : Nat) : Zone :=
  let area := zone.freeArea order
  zone.setArea order { area with freeList := page :: area.freeList }

/-- `list_del` unlinks the page from whichever list its `lru` entry is on. -/
def listDel (zone : Zone) (page : Nat) : Zone :=
  { zone with freeArea := fun order =>
      { zone.freeArea order with freeList := (zone.freeArea order).freeList.erase page } }

/-- `MARK_USED` -/
def markUsed (zone : Zone) (index order : Nat) : Zone :=
  zone.changeBit order (index >>> (1 + order))

end Zone

/-- The coalescing loop of `__free_pages_bulk`; `levels` counts the orders left
below `MAX_ORDER - 1`. The mask `~0UL << (order + 1)` clears the low bits of the
page index. No result means that `BUG_ON` fired. -/
def freePagesLoop : (levels order pageIdx index : Nat) → Zone → Option Zone
  | 0, order, pageIdx, _, zone => some (zone.listAdd order pageIdx)
  | levels + 1, order, pageIdx, index, zone =>
    let toggled := zone.changeBit order index
    if (zone.freeArea order).map index then
      let buddy1 := pageIdx ^^^ 2 ^ order
      if toggled.badRange buddy1 || toggled.badRange pageIdx then none
      else freePagesLoop levels (order + 1) (pageIdx >>> (order + 1) <<< (order + 1))
        (index >>> 1) (toggled.listDel buddy1)
    else some (toggled.listAdd order pageIdx)

/-- `__free_pages_bulk` -/
def freePagesBulk (maxOrder : Nat) (zone : Zone) (pageIdx order : Nat) : Option Zone :=
  if pageIdx % 2 ^ order ≠ 0 then none
  else freePagesLoop (maxOrder - 1 - order) order pageIdx (pageIdx >>> (1 + order))
    { zone with freePages := zone.freePages + 2 ^ order }

/-- `expand` splits the block from order `high` down to order `low`. -/
def expand (page low : Nat) : (high : Nat) → Zone → Option Zone
  | 0, zone => some zone
  | high + 1, zone =>
    if low < high + 1 then
      let size := 2 ^ high
      if zone.badRange (page + size) then none
      else expand page low high ((zone.listAdd high (page + size)).markUsed (page + size) high)
    else some zone

/-- The scan of `__rmqueue`; `levels` counts the orders from `currentOrder` to
`MAX_ORDER`. The inner option is the returned page or `NULL`. -/
def rmqueueScan (maxOrder order : Nat) :
    (levels currentOrder : Nat) → Zone → Option (Zone × Option Nat)
  | 0, _, zone => some (zone, none)
  | levels + 1, currentOrder, zone =>
    match (zone.freeArea currentOrder).freeList with
    | [] => rmqueueScan maxOrder order levels (currentOrder + 1) zone
    | page :: _ =>
      let unlinked := zone.listDel page
      let marked := if currentOrder ≠ maxOrder - 1 then unlinked.markUsed page currentOrder
        else unlinked
      (expand page order currentOrder
        { marked with freePages := marked.freePages - 2 ^ order }).map (·, some page)

/-- `__rmqueue` -/
def rmqueue (maxOrder : Nat) (zone : Zone) (order : Nat) : Option (Zone × Option Nat) :=
  rmqueueScan maxOrder order (maxOrder - order) order zone

/-- The zone with the blocks its callers hold. -/
structure State where
  zone : Zone
  allocated : List Block

inductive Op where
  | free (block : Block)
  | alloc (order : Nat)

/-- One call from outside; allocations hand their block to the caller. -/
def step (maxOrder : Nat) (state : State) : Op → Option State
  | .free block =>
    (freePagesBulk maxOrder state.zone block.start block.order).map
      (⟨·, state.allocated.erase block⟩)
  | .alloc order =>
    (rmqueue maxOrder state.zone order).map fun
      | (zone, none) => ⟨zone, state.allocated⟩
      | (zone, some page) => ⟨zone, ⟨page, order⟩ :: state.allocated⟩

/-- Callers free what they hold and ask for orders below `MAX_ORDER`. -/
def Allowed (maxOrder : Nat) (state : State) : Op → Prop
  | .free block => block ∈ state.allocated
  | .alloc order => order < maxOrder

/-- After `zone_init_free_lists` every list is empty and every bit clear; boot
memory is handed over as disjoint aligned blocks inside the zone. -/
structure Boot (maxOrder : Nat) (state : State) : Prop where
  noPages : state.zone.freePages = 0
  empty : ∀ order, (state.zone.freeArea order).freeList = []
  clear : ∀ order index, (state.zone.freeArea order).map index = false
  held : ∀ block ∈ state.allocated,
    block.order < maxOrder ∧ block.Aligned ∧ block.stop ≤ state.zone.spannedPages
  apart : state.allocated.Pairwise Block.Apart

end MagxKernel.PageAlloc
