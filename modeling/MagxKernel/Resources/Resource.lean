import MagxKernel.Lib.Runs

namespace MagxKernel.Resources

abbrev ebusy : Int := 16
abbrev einval : Int := 22

abbrev ioresourceBusy : UInt32 := 0x80000000

/-- `struct resource`. The list of children that `child` and the `sibling` links
spell is one field; `stop` is `end`. -/
structure Resource where
  start : UInt32
  stop : UInt32
  flags : UInt32
  parent : Option Nat
  children : List Nat

def Resource.busy (res : Resource) : Bool := res.flags &&& ioresourceBusy ≠ 0

/-- The structures in memory. `live` are those that exist: a driver has set them
up, or `kzalloc` has returned them and nobody has freed them. -/
structure State where
  mem : Nat → Resource
  live : List Nat

namespace State

def write (state : State) (address : Nat) (res : Resource) : State :=
  { state with mem := Function.update state.mem address res }

def setChildren (state : State) (address : Nat) (children : List Nat) : State :=
  state.write address { state.mem address with children := children }

def setParent (state : State) (parent : Option Nat) (address : Nat) : State :=
  state.write address { state.mem address with parent := parent }

def setRange (state : State) (address : Nat) (start stop : UInt32) : State :=
  state.write address { state.mem address with start := start, stop := stop }

end State

/-- The loop of `__request_resource`: the first child that overlaps the range, or
the children in front of and behind the place for it. -/
def findSlot (mem : Nat → Resource) (start stop : UInt32) (passed : List Nat) :
    List Nat → Except Nat (List Nat × List Nat)
  | [] => .ok (passed, [])
  | tmp :: rest =>
    if stop < (mem tmp).start then .ok (passed, tmp :: rest)
    else if (mem tmp).stop < start then findSlot mem start stop (passed ++ [tmp]) rest
    else .error tmp

/-- `__request_resource`: the conflict, if there is one. -/
def requestConflict (state : State) (root new : Nat) : Option Nat × State :=
  let start := (state.mem new).start
  let stop := (state.mem new).stop
  if stop < start then (some root, state)
  else if start < (state.mem root).start then (some root, state)
  else if (state.mem root).stop < stop then (some root, state)
  else
    match findSlot state.mem start stop [] (state.mem root).children with
    | .error tmp => (some tmp, state)
    | .ok (before, after) =>
      (none, (state.setChildren root (before ++ new :: after)).setParent (some root) new)

def requestResource (state : State) (root new : Nat) : Int × State :=
  match requestConflict state root new with
  | (some _, after) => (-ebusy, after)
  | (none, after) => (0, after)

/-- A resource without a parent makes the code follow a null pointer. -/
def releaseResource (state : State) (old : Nat) : Option (Int × State) :=
  match (state.mem old).parent with
  | none => none
  | some parent =>
    if old ∈ (state.mem parent).children then
      some (0, (state.setChildren parent ((state.mem parent).children.erase old)).setParent none
        old)
    else some (-einval, state)

/-- What a caller of `allocate_resource` asks for. `alignf` may move the bounds. -/
structure Constraint where
  size : UInt32
  min : UInt32
  max : UInt32
  align : UInt32
  alignf : Option (UInt32 × UInt32 → UInt32 × UInt32)

/-- One turn of the loop of `find_resource`: the bounds after alignment. -/
def Constraint.trim (wanted : Constraint) (start stop : UInt32) : UInt32 × UInt32 :=
  let start := if start < wanted.min then wanted.min else start
  let stop := if wanted.max < stop then wanted.max else stop
  let start := (start + wanted.align - 1) &&& ~~~(wanted.align - 1)
  match wanted.alignf with
  | some alignf => alignf (start, stop)
  | none => (start, stop)

/-- The loop of `find_resource` from the child `this` on: whether a gap was found,
and the bounds that the new resource is left with. -/
def findGap (mem : Nat → Resource) (rootStop : UInt32) (wanted : Constraint) (start : UInt32) :
    List Nat → Bool × UInt32 × UInt32
  | [] =>
    let bounds := wanted.trim start rootStop
    if bounds.1 < bounds.2 && wanted.size ≤ bounds.2 - bounds.1 + 1 then
      (true, bounds.1, bounds.1 + wanted.size - 1)
    else (false, bounds)
  | this :: rest =>
    let bounds := wanted.trim start ((mem this).start - 1)
    if bounds.1 < bounds.2 && wanted.size ≤ bounds.2 - bounds.1 + 1 then
      (true, bounds.1, bounds.1 + wanted.size - 1)
    else findGap mem rootStop wanted ((mem this).stop + 1) rest

/-- `find_resource`: a child that starts at 0 is skipped at once. -/
def findResource (mem : Nat → Resource) (root : Nat) (wanted : Constraint) :
    Bool × UInt32 × UInt32 :=
  match (mem root).children with
  | [] => findGap mem (mem root).stop wanted (mem root).start []
  | this :: rest =>
    if (mem this).start = 0 then findGap mem (mem root).stop wanted ((mem this).stop + 1) rest
    else findGap mem (mem root).stop wanted (mem root).start (this :: rest)

def allocateResource (state : State) (root new : Nat) (wanted : Constraint) : Int × State :=
  let found := findResource state.mem root wanted
  let moved := state.setRange new found.2.1 found.2.2
  if found.1 then requestResource moved root new else (-ebusy, moved)

/-- The children from the first conflict on that fit into the new resource, and
those behind them; `none` when one of them fits only in part. -/
def gather (mem : Nat → Resource) (new : Resource) : List Nat → Option (List Nat × List Nat)
  | [] => none
  | next :: rest =>
    if (mem next).start < new.start || new.stop < (mem next).stop then none
    else
      match rest with
      | [] => some ([next], [])
      | sibling :: _ =>
        if new.stop < (mem sibling).start then some ([next], rest)
        else (gather mem new rest).map fun found => (next :: found.1, found.2)

/-- The new resource takes the place of the children that it covers. -/
def splice (state : State) (parent new : Nat) (before middle after : List Nat) : State :=
  let linked := (state.setParent (some parent) new).setChildren new middle
  let moved := middle.foldl (State.setParent · (some new)) linked
  moved.setChildren parent (before ++ new :: after)

/-- `insert_resource`; every turn goes one level down. -/
def insertResource (state : State) (new : Nat) : (fuel : Nat) → (parent : Nat) →
    Option (Int × State)
  | 0, _ => none
  | fuel + 1, parent =>
    match requestConflict state parent new with
    | (none, after) => some (0, after)
    | (some first, _) =>
      if first = parent then some (-ebusy, state)
      else if (state.mem first).start ≤ (state.mem new).start &&
          (state.mem new).stop ≤ (state.mem first).stop then
        insertResource state new fuel first
      else
        let before := (state.mem parent).children.takeWhile (· ≠ first)
        match gather state.mem (state.mem new)
            ((state.mem parent).children.dropWhile (· ≠ first)) with
        | none => some (-ebusy, state)
        | some (middle, after) => some (0, splice state parent new before middle after)

/-- The neighbours of a child in the list. -/
def neighbours (res : Nat) : List Nat → Option (Option Nat × Option Nat)
  | [] => none
  | first :: rest =>
    if first = res then some (none, rest.head?)
    else
      match rest with
      | [] => none
      | second :: more =>
        if second = res then some (some first, more.head?) else neighbours res rest

/-- The checks of `adjust_resource`. A resource that its parent does not list makes the search
for its predecessor follow a null pointer. -/
def adjustBusy (state : State) (res : Nat) (start stop : UInt32) : Option Bool :=
  (state.mem res).parent.bind fun parent =>
    if start < (state.mem parent).start || (state.mem parent).stop < stop then some true
    else if (state.mem res).children.any fun tmp =>
        (state.mem tmp).start < start || stop < (state.mem tmp).stop then some true
    else (neighbours res (state.mem parent).children).map fun around =>
      (around.2.any fun next => (state.mem next).start ≤ stop) ||
        around.1.any fun tmp => start ≤ (state.mem tmp).stop

def adjustResource (state : State) (res : Nat) (start size : UInt32) : Option (Int × State) :=
  let stop := start + size - 1
  (adjustBusy state res start stop).map fun busy =>
    if busy then (-ebusy, state) else (0, state.setRange res start stop)

/-- The loop of `__request_region`: a conflict that is not busy is entered. -/
def requestRegionAt (state : State) (res : Nat) : (fuel : Nat) → (parent : Nat) → Option State
  | 0, _ => none
  | fuel + 1, parent =>
    match requestConflict state parent res with
    | (none, after) => some { after with live := res :: state.live }
    | (some conflict, _) =>
      if conflict ≠ parent && !(state.mem conflict).busy then
        requestRegionAt state res fuel conflict
      else some state

/-- `__request_region`; `res` is what `kzalloc` returned. -/
def requestRegion (fuel : Nat) (state : State) (res : Option Nat) (parent : Nat)
    (start n : UInt32) : Option State :=
  match res with
  | none => some state
  | some res =>
    requestRegionAt (state.write res ⟨start, start + n - 1, ioresourceBusy, none, []⟩) res fuel
      parent

/-- `__release_region`: the way down through the resources that hold the range.
A freed resource leaves its own children behind. -/
def releaseRegion (state : State) (start n : UInt32) : (fuel : Nat) → (parent : Nat) → Option State
  | 0, _ => none
  | fuel + 1, parent =>
    let stop := start + n - 1
    match (state.mem parent).children.find? fun res =>
      (state.mem res).start ≤ start && stop ≤ (state.mem res).stop with
    | none => some state
    | some res =>
      if !(state.mem res).busy then releaseRegion state start n fuel res
      else if (state.mem res).start ≠ start || (state.mem res).stop ≠ stop then some state
      else
        let unlinked := state.setChildren parent ((state.mem parent).children.erase res)
        some { unlinked with live := unlinked.live.erase res }

inductive Op where
  | declare (res : Nat) (start stop flags : UInt32)
  | request (root new : Nat)
  | insert (parent new : Nat)
  | allocate (root new : Nat) (wanted : Constraint)
  | adjust (res : Nat) (start size : UInt32)
  | release (old : Nat)
  | requestRegion (res : Option Nat) (parent : Nat) (start n : UInt32)
  | releaseRegion (parent : Nat) (start n : UInt32)

/-- A driver sets up its own structure, or calls one of the functions. The ways
down may take one turn more than there are structures. -/
def step (state : State) : Op → Option State
  | .declare res start stop flags =>
    some ⟨Function.update state.mem res ⟨start, stop, flags, none, []⟩,
      if res ∈ state.live then state.live else res :: state.live⟩
  | .request root new => some (requestResource state root new).2
  | .insert parent new =>
    (insertResource state new (state.live.length + 1) parent).map Prod.snd
  | .allocate root new wanted => some (allocateResource state root new wanted).2
  | .adjust res start size => (adjustResource state res start size).map Prod.snd
  | .release old => (releaseResource state old).map Prod.snd
  | .requestRegion res parent start n =>
    requestRegion (state.live.length + 1) state res parent start n
  | .releaseRegion parent start n => releaseRegion state start n (state.live.length + 1) parent

end MagxKernel.Resources
