import Mathlib.Algebra.Group.Nat.Defs
import Mathlib.Data.List.FinRange

namespace MagxKernel.Idr

abbrev idrBits : Nat := 5
abbrev idrSize : Nat := 1 <<< idrBits
abbrev idrMask : Nat := idrSize - 1
abbrev maxIdShift : Nat := 31
abbrev maxIdBit : Nat := 1 <<< maxIdShift
abbrev maxIdMask : Nat := maxIdBit - 1
abbrev maxLevel : Nat := (maxIdShift + idrBits - 1) / idrBits
abbrev idrFreeMax : Nat := maxLevel + maxLevel

abbrev eagain : Int := 11
abbrev enospc : Int := 28

abbrev Slot := Fin idrSize

variable {α : Type}

/-- `struct idr_layer`; the bitmap is the function of its bits. -/
structure Layer (Pointer : Type) where
  bitmap : Slot → Bool
  ary : Slot → Pointer
  count : Int

/-- What an entry of `ary` points to: nothing, the user's object or a layer. -/
inductive Ptr (α : Type) where
  | null
  | user (value : α)
  | layer (layer : Layer (Ptr α))

def Ptr.isNull : Ptr α → Bool
  | .null => true
  | _ => false

namespace Layer

def zero : Layer (Ptr α) := ⟨fun _ => false, fun _ => .null, 0⟩

def setSlot (p : Layer (Ptr α)) (slot : Slot) (child : Ptr α) : Layer (Ptr α) :=
  { p with ary := Function.update p.ary slot child }

/-- `__set_bit` and `__clear_bit` -/
def setBit (p : Layer (Ptr α)) (slot : Slot) (value : Bool) : Layer (Ptr α) :=
  { p with bitmap := Function.update p.bitmap slot value }

def addCount (p : Layer (Ptr α)) (change : Int) : Layer (Ptr α) :=
  { p with count := p.count + change }

/-- The comparison with `IDR_FULL`. -/
def isFull (p : Layer (Ptr α)) : Bool := decide (∀ slot, p.bitmap slot = true)

end Layer

/-- The list of free layers with its counter. The link takes the place of
`ary[0]`, whose old value is not read again. -/
structure Pool (α : Type) where
  idFree : List (Layer (Ptr α))
  idFreeCnt : Nat

/-- `struct idr`, with the layers that have gone back to the slab cache, which
hands them out as they are. -/
structure State (α : Type) where
  top : Ptr α
  layers : Nat
  pool : Pool α
  cache : List (Layer (Ptr α))

def allocLayer (pool : Pool α) : Option (Layer (Ptr α) × Pool α) :=
  match pool.idFree with
  | [] => none
  | p :: rest => some (p.setSlot 0 .null, ⟨rest, pool.idFreeCnt - 1⟩)

def freeLayer (pool : Pool α) (p : Layer (Ptr α)) : Pool α :=
  ⟨p :: pool.idFree, pool.idFreeCnt + 1⟩

/-- The loop of `idr_pre_get` while `budget` allocations still succeed. -/
def preGetLoop : (budget : Nat) → Pool α → List (Layer (Ptr α)) →
    Int × Pool α × List (Layer (Ptr α))
  | 0, pool, cache => if pool.idFreeCnt < idrFreeMax then (0, pool, cache) else (1, pool, cache)
  | budget + 1, pool, cache =>
    if pool.idFreeCnt < idrFreeMax then
      match cache with
      | [] => preGetLoop budget (freeLayer pool .zero) []
      | new :: cache => preGetLoop budget (freeLayer pool new) cache
    else (1, pool, cache)

def idrPreGet (state : State α) (budget : Nat) : Int × State α :=
  let (code, pool, cache) := preGetLoop budget state.pool state.cache
  (code, { state with pool := pool, cache := cache })

def slotOf (id level : Nat) : Slot :=
  ⟨(id >>> (idrBits * level)) &&& idrMask, by
    exact Nat.lt_of_le_of_lt Nat.and_le_right (by decide)⟩

/-- `find_next_bit`: none for the size of the map. -/
def findNextBit (bits : Slot → Bool) (start : Slot) : Option Slot :=
  (List.finRange idrSize).find? fun slot => decide (start ≤ slot) && bits slot

/-- An entry of `pa` with the slot taken in it. -/
structure Frame (α : Type) where
  layer : Layer (Ptr α)
  slot : Slot

/-- Link a subtree back into the layers above it. -/
def plug : Ptr α → List (Frame α) → Ptr α
  | ptr, [] => ptr
  | ptr, frame :: path => plug (.layer (frame.layer.setSlot frame.slot ptr)) path

/-- The loop that marks full layers in the layer above. -/
def markFull : (n : Nat) → Layer (Ptr α) → List (Frame α) → Ptr α
  | _, p, [] => .layer p
  | n, p, frame :: path =>
    if p.isFull then
      markFull (n >>> idrBits)
        ((frame.layer.setSlot frame.slot (.layer p)).setBit (slotOf (n >>> idrBits) 0) true) path
    else plug (.layer p) (frame :: path)

/-- What `sub_alloc` returns: an id, -1, -2 with the new starting id, or -3. -/
inductive Verdict where
  | done (id : Nat)
  | noMemory
  | exhausted (startingId : Nat)
  | noSpace

structure Outcome (α : Type) where
  verdict : Verdict
  top : Ptr α
  pool : Pool α

/-- The `while (1)` loop of `sub_alloc`, from the layer `p` at level `l`; `path`
is `pa[l + 1]` and what follows, its end the NULL entry. -/
def subAllocLoop (ptr : Ptr α) : (fuel id l : Nat) → Layer (Ptr α) → List (Frame α) → Pool α →
    Option (Outcome α)
  | 0, _, _, _, _, _ => none
  | fuel + 1, id, l, p, path, pool =>
    let n := slotOf id l
    match findNextBit (fun slot => !p.bitmap slot) n with
    | none =>
      let id := (id ||| (1 <<< (idrBits * (l + 1)) - 1)) + 1
      match path with
      | [] => some ⟨.exhausted id, .layer p, pool⟩
      | frame :: path =>
        subAllocLoop ptr fuel id (l + 1) (frame.layer.setSlot frame.slot (.layer p)) path pool
    | some m =>
      let sh := idrBits * l
      let id := if m ≠ n then (id >>> sh ^^^ n.val ^^^ m.val) <<< sh else id
      if maxIdBit ≤ id then some ⟨.noSpace, plug (.layer p) path, pool⟩
      else
        match l with
        | 0 =>
          let p := ((p.setSlot m ptr).setBit m true).addCount 1
          some ⟨.done id, markFull id p path, pool⟩
        | l + 1 =>
          match p.ary m with
          | .user _ => none
          | .layer child => subAllocLoop ptr fuel id l child (⟨p, m⟩ :: path) pool
          | .null =>
            match allocLayer pool with
            | none => some ⟨.noMemory, plug (.layer p) path, pool⟩
            | some (new, pool) =>
              let p := (p.setSlot m (.layer new)).addCount 1
              subAllocLoop ptr fuel id l new (⟨p, m⟩ :: path) pool

/-- `sub_alloc`; the entry `pa[layers]` must lie inside the array. Down, up and
down again are at most three turns of the loop for each level. -/
def subAlloc (ptr : Ptr α) (id : Nat) (top : Layer (Ptr α)) (layers : Nat) (pool : Pool α) :
    Option (Outcome α) :=
  if maxLevel ≤ layers then none
  else subAllocLoop ptr (3 * maxLevel) id (layers - 1) top [] pool

/-- A new top layer over `p`. -/
def pushLayer (new p : Layer (Ptr α)) : Layer (Ptr α) :=
  let new := { new.setSlot 0 (.layer p) with count := 1 }
  if p.isFull then new.setBit 0 true else new

/-- Free the layers that were put over the old top; `above` counts them. -/
def tearDown : (above : Nat) → Layer (Ptr α) → Pool α → Pool α
  | 0, _, pool => pool
  | above + 1, p, pool =>
    let pool' := freeLayer pool ⟨fun _ => false, Function.update p.ary 0 .null, 0⟩
    match p.ary 0 with
    | .layer below => tearDown above below pool'
    | _ => pool'

/-- The loop that adds layers until the id fits: the new top and the number of
layers, or none after a failed allocation. `left` is `MAX_LEVEL - layers`. -/
def growLoop (id : Nat) : (left layers above : Nat) → Layer (Ptr α) → Pool α →
    Option (Layer (Ptr α) × Nat) × Pool α
  | 0, layers, _, p, pool => (some (p, layers), pool)
  | left + 1, layers, above, p, pool =>
    if 1 <<< (layers * idrBits) ≤ id then
      if p.count = 0 then growLoop id left (layers + 1) above p pool
      else
        match allocLayer pool with
        | none => (none, tearDown above p pool)
        | some (new, pool) => growLoop id left (layers + 1) (above + 1) (pushLayer new p) pool
    else (some (p, layers), pool)

/-- From the label `build_up` to the call of `sub_alloc`: layers, distance from
the old top, top layer and pool. -/
def currentTop (state : State α) : Option (Option (Nat × Nat × Layer (Ptr α) × Pool α)) :=
  match state.top with
  | .user _ => none
  | .layer p => some (some (state.layers, 0, p, state.pool))
  | .null => some ((allocLayer state.pool).map fun (p, pool) => (1, 1, p, pool))

/-- `idr_get_new_above_int`. Every jump back to `build_up` comes with an id that
needs one more layer. -/
def getNewAboveInt (ptr : Ptr α) : (turns id : Nat) → State α → Option (Verdict × State α)
  | 0, _, _ => none
  | turns + 1, id, state =>
    (currentTop state).bind fun
      | none => some (.noMemory, state)
      | some (layers, above, p, pool) =>
        match growLoop id (maxLevel - layers) layers above p pool with
        | (none, pool) => some (.noMemory, { state with pool := pool })
        | (some (p, layers), pool) =>
          (subAlloc ptr id p layers pool).bind fun outcome =>
            let state := ⟨outcome.top, layers, outcome.pool, state.cache⟩
            match outcome.verdict with
            | .exhausted id => getNewAboveInt ptr turns id state
            | verdict => some (verdict, state)

/-- The error code with the id that is stored through the pointer. -/
def idrGetNewAbove (state : State α) (ptr : Ptr α) (startingId : Nat) :
    Option (Int × Option Nat × State α) :=
  (getNewAboveInt ptr (maxLevel + 1) startingId state).map fun (verdict, state) =>
    match verdict with
    | .done id => (0, some id, state)
    | .noMemory => (-eagain, none, state)
    | _ => (-enospc, none, state)

def idrGetNew (state : State α) (ptr : Ptr α) : Option (Int × Option Nat × State α) :=
  idrGetNewAbove state ptr 0

/-- The way down of `sub_remove`, which clears the bits it passes. -/
def removeWalk (id : Nat) : (level : Nat) → Ptr α → List (Frame α) → Option (Ptr α × List (Frame α))
  | 0, ptr, path => some (ptr, path)
  | _ + 1, .null, path => some (.null, path)
  | _ + 1, .user _, _ => none
  | level + 1, .layer p, path =>
    let n := slotOf id (level + 1)
    removeWalk id level (p.ary n) (⟨p.setBit n false, n⟩ :: path)

/-- The way up: a layer whose count drops to zero is freed and its entry in the
layer above cleared. -/
def dropUp : List (Frame α) → Layer (Ptr α) → Ptr α × List (Layer (Ptr α))
  | [], p =>
    let p := p.addCount (-1)
    if p.count = 0 then (.null, [p]) else (.layer p, [])
  | frame :: path, p =>
    let p := p.addCount (-1)
    if p.count = 0 then
      let (top, freed) := dropUp path (frame.layer.setSlot frame.slot .null)
      (top, p :: freed)
    else (plug (.layer p) (frame :: path), [])

/-- An id that is not allocated only causes a warning, with the bits on the way
already cleared. -/
def subRemove (state : State α) (id : Nat) : Option (State α) :=
  (removeWalk id (state.layers - 1) state.top []).bind fun
    | (.user _, _) => none
    | (.null, path) => some { state with top := plug .null path }
    | (.layer p, path) =>
      let n := slotOf id 0
      if p.bitmap n then
        let (top, freed) := dropUp path ((p.setBit n false).setSlot n .null)
        let layers := if top.isNull then 0 else state.layers
        some { state with top := top, layers := layers, pool := freed.foldl freeLayer state.pool }
      else some { state with top := plug (.layer p) path }

/-- Replace a top layer with a single entry at 0 by that entry. -/
def dropLayer (state : State α) : State α :=
  match state.top with
  | .layer p =>
    if p.count = 1 ∧ 1 < state.layers ∧ (p.ary 0).isNull = false then
      { state with
        top := p.ary 0
        layers := state.layers - 1
        pool := freeLayer state.pool ⟨fun _ => false, p.ary, 0⟩ }
    else state
  | _ => state

/-- Give one layer back to the slab cache when there are more than enough. -/
def trimPool (state : State α) : Option (State α) :=
  if idrFreeMax ≤ state.pool.idFreeCnt then
    (allocLayer state.pool).map fun (p, pool) =>
      { state with pool := pool, cache := p :: state.cache }
  else some state

def idrRemove (state : State α) (id : UInt32) : Option (State α) :=
  (subRemove state (id.toNat &&& maxIdMask)).bind fun state => trimPool (dropLayer state)

def findLoop (id : Nat) : (layers : Nat) → Ptr α → Option (Ptr α)
  | 0, ptr => some ptr
  | _ + 1, .null => some .null
  | _ + 1, .user _ => none
  | layers + 1, .layer p => findLoop id layers (p.ary (slotOf id layers))

def idrFind (state : State α) (id : UInt32) : Option (Ptr α) :=
  let id := id.toNat &&& maxIdMask
  if 1 <<< (state.layers * idrBits) ≤ id then some .null
  else findLoop id state.layers state.top

/-- `idr_init` -/
def idrInit : State α := ⟨.null, 0, ⟨[], 0⟩, []⟩

end MagxKernel.Idr
