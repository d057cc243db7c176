import MagxKernel.FileLocks.View

namespace MagxKernel.FileLocks

open IntervalMap Function List

variable {Owner : Type}

/-- The variables of a call while the locks `own` of its owner are still ahead. -/
structure Ready (state : LockState Owner) (request : Nat) (owner : Owner) (type : LockType)
    (first last : Int) (own tail : List Nat) : Prop where
  wanted : state.view request = ⟨owner, true, ⟨type, first, last⟩⟩
  lower : 0 ≤ first
  range : first ≤ last
  upper : last ≤ offsetMax
  owners : ∀ fl ∈ own, (state.view fl).owner = owner
  posix : ∀ fl ∈ own, (state.view fl).posix = true
  locked : ∀ fl ∈ own, (state.view fl).span.tag ≠ .unlck
  bounded : ∀ fl ∈ own, (state.view fl).span.last ≤ offsetMax
  normal : Normal (state.spans own)
  nodup : own.Nodup
  fresh : request ∉ own
  stop : ∀ fl ∈ tail.head?, (state.view fl).owner ≠ owner ∧ fl ≠ request ∧ fl ∉ own
  noWrap : last = offsetMax → ∀ fl ∈ own, first - 1 ≤ (state.view fl).span.last →
    (state.view fl).span.tag ≠ type

theorem spans_congr {before after : LockState Owner} {addresses : List Nat}
    (same : ∀ address ∈ addresses, after.view address = before.view address) :
    after.spans addresses = before.spans addresses :=
  map_congr_left fun address member => by rw [same address member]

section Turn

variable {state next : LockState Owner} {request request' fl : Nat} {owner : Owner}
  {type : LockType} {first last first' last' : Int} {own tail : List Nat}
  (ready : Ready state request owner type first last (fl :: own) tail)

include ready

theorem Ready.distinct : request ≠ fl :=
  fun equal => ready.fresh (by simp [equal])

section

variable (frame : ∀ other, other ≠ fl → other ≠ request → next.view other = state.view other)

include frame

theorem Ready.kept : ∀ other ∈ own, next.view other = state.view other := by
  intro other member
  apply frame
  · exact fun equal => (nodup_cons.mp ready.nodup).1 (equal ▸ member)
  · exact fun equal => ready.fresh (equal ▸ mem_cons_of_mem fl member)

/-- One turn of the loop writes at most the request and the lock it looks at. -/
theorem Ready.advance (either : request' = request ∨ request' = fl)
    (wanted : next.view request' = ⟨owner, true, ⟨type, first', last'⟩⟩) (lower : 0 ≤ first')
    (range : first' ≤ last') (upper : last' ≤ offsetMax) (noWrap : last' = offsetMax → ∀ fl ∈ own,
      first' - 1 ≤ (state.view fl).span.last → (state.view fl).span.tag ≠ type) :
    Ready next request' owner type first' last' own tail := by
  have distinct := nodup_cons.mp ready.nodup
  have same := ready.kept frame
  have carry : ∀ fact : View Owner → Prop, (∀ other ∈ fl :: own, fact (state.view other)) →
      ∀ other ∈ own, fact (next.view other) := by
    intro fact holds other member
    rw [same other member]
    exact holds other (mem_cons_of_mem fl member)
  refine ⟨wanted, lower, range, upper, carry (·.owner = owner) ready.owners,
    carry (·.posix = true) ready.posix, carry (·.span.tag ≠ .unlck) ready.locked,
    carry (·.span.last ≤ offsetMax) ready.bounded, ?_, distinct.2, ?_, ?_, ?_⟩
  · rw [spans_congr same]
    exact ready.normal.tail
  · intro member
    rcases either with rfl | rfl
    · exact ready.fresh (mem_cons_of_mem fl member)
    · exact distinct.1 member
  · intro other member
    obtain ⟨foreign, apart, outside⟩ := ready.stop other member
    simp only [mem_cons, not_or] at outside
    rw [frame other outside.1 apart]
    refine ⟨foreign, ?_, outside.2⟩
    rcases either with rfl | rfl
    · exact apart
    · exact outside.1
  · intro full other member
    rw [same other member]
    exact noWrap full other member

end

end Turn

/-- A stretch of the list that holds locks of one owner. -/
structure Placed (state : LockState Owner) (owner : Owner) (pool segment : List Nat) : Prop where
  owners : ∀ fl ∈ segment, (state.view fl).owner = owner
  posix : ∀ fl ∈ segment, (state.view fl).posix = true
  inside : ∀ fl ∈ segment, fl ∈ pool
  nodup : segment.Nodup

variable {owner : Owner}

theorem Placed.congr {before after : LockState Owner} {pool segment : List Nat}
    (placed : Placed before owner pool segment)
    (same : ∀ fl ∈ segment, (after.view fl).owner = (before.view fl).owner ∧
      (after.view fl).posix = (before.view fl).posix) : Placed after owner pool segment :=
  ⟨fun fl member => (same fl member).1.trans (placed.owners fl member),
    fun fl member => (same fl member).2.trans (placed.posix fl member), placed.inside, placed.nodup⟩

/-- How the call leaves the list: `segment` stands between `base` and `tail`,
and outside `pool` only the lock in front of the range has lost its end. -/
structure Settled (owner : Owner) (before after : LockState Owner)
    (base tail pool segment : List Nat)
    (left : Option Nat) (first : Int) (result : List (Span LockType)) : Prop where
  placed : Placed after owner pool segment
  list : after.iFlock = base ++ (segment ++ tail)
  spans : after.spans segment = result
  frame : ∀ fl, fl ∉ pool → after.view fl =
    if left = some fl then (before.view fl).withLast (first - 1) else before.view fl

variable {left : Option Nat} {first : Int}

/-- Earlier writes inside the pool do not matter. -/
theorem Settled.after {before middle after : LockState Owner} {base tail pool segment : List Nat}
    {result : List (Span LockType)}
    (settled : Settled owner middle after base tail pool segment left first result)
    (frame : ∀ fl, fl ∉ pool → middle.view fl = before.view fl) :
    Settled owner before after base tail pool segment left first result :=
  { settled with
    frame := fun fl outside => by rw [settled.frame fl outside, frame fl outside] }

section

variable {owner : Owner} {before after : LockState Owner}

variable {segment : List Nat} {result : List (Span LockType)}

theorem Settled.uncut {base tail pool : List Nat}
    (settled : Settled owner before after base tail pool segment none first result) (other : Int) :
    Settled owner before after base tail pool segment none other result :=
  { settled with }

theorem Settled.mono {base tail pool pool' : List Nat}
    (settled : Settled owner before after base tail pool segment left first result)
    (larger : ∀ fl ∈ pool, fl ∈ pool') :
    Settled owner before after base tail pool' segment left first result :=
  ⟨{ settled.placed with inside := fun fl member => larger fl (settled.placed.inside fl member) },
    settled.list, settled.spans,
    fun fl outside => settled.frame fl fun member => outside (larger fl member)⟩

theorem Settled.push {base tail pool : List Nat} {fl : Nat}
    (settled : Settled owner before after (base ++ [fl]) tail pool segment left first result)
    (outside : fl ∉ pool) (own : (before.view fl).owner = owner)
    (posix : (before.view fl).posix = true) (cut : left = none ∨ left = some fl) :
    Settled owner before after base tail (fl :: pool) (fl :: segment) none first
      ((if left = some fl then (before.view fl).withLast (first - 1) else before.view fl).span ::
        result) := by
  have here := settled.frame fl outside
  have owner_eq : (after.view fl).owner = owner := by
    rw [here]
    split <;> exact own
  have posix_eq : (after.view fl).posix = true := by
    rw [here]
    split <;> exact posix
  refine ⟨⟨?_, ?_, ?_, ?_⟩, ?_, ?_, ?_⟩
  · exact forall_mem_cons.mpr ⟨owner_eq, settled.placed.owners⟩
  · exact forall_mem_cons.mpr ⟨posix_eq, settled.placed.posix⟩
  · exact forall_mem_cons.mpr ⟨mem_cons_self, fun other member =>
      mem_cons_of_mem fl (settled.placed.inside other member)⟩
  · exact nodup_cons.mpr
      ⟨fun member => outside (settled.placed.inside fl member), settled.placed.nodup⟩
  · rw [settled.list, append_assoc]
    rfl
  · rw [← here, ← settled.spans]
    rfl
  · intro other away
    simp only [mem_cons, not_or] at away
    have uncut : left ≠ some other := by
      rcases cut with rfl | rfl
      · simp
      · exact fun equal => away.1 (Option.some.inj equal).symm
    rw [settled.frame other away.2, if_neg uncut, if_neg (by simp)]

end

section Closing

variable {owner : Owner} {type : LockType} {first last : Int} {base tail pool : List Nat}

section

variable (scan : Scan Owner)

include scan

theorem cutLeft_list : (cutLeft scan).passed ++ (cutLeft scan).rest = scan.passed ++ scan.rest := by
  unfold cutLeft
  split <;> rfl

section

variable (wanted : scan.state.view scan.request = ⟨owner, true, ⟨type, first, last⟩⟩)

include wanted

theorem cutLeft_view (lower : 0 ≤ first) (upper : first ≤ offsetMax) (fl : Nat) :
    (cutLeft scan).state.view fl =
      if scan.left = some fl then (scan.state.view fl).withLast (first - 1)
      else scan.state.view fl := by
  have start : (scan.state.mem scan.request).flStart = first :=
    congrArg (fun view => view.span.first) wanted
  unfold cutLeft
  cases scan.left with
  | none => rfl
  | some left =>
    rw [start, loff_pred _ lower upper]
    simp only [view_locksWakeUpBlocks, view_setEnd]
    by_cases same : left = fl
    · subst same
      simp
    · rw [update_of_ne (Ne.symm same), if_neg (by simpa using same)]

/-- The end of the call when nothing reaches behind the range. -/
theorem settled_cutLeft (segment : List Nat) (placed : Placed scan.state owner pool segment)
    (lower : 0 ≤ first) (upper : first ≤ offsetMax)
    (layout : scan.passed ++ scan.rest = base ++ (segment ++ tail))
    (outside : ∀ fl, scan.left = some fl → fl ∉ pool) :
    Settled owner scan.state (cutLeft scan).commit base tail pool segment scan.left first
      (scan.state.spans segment) := by
  have view : ∀ fl, (cutLeft scan).commit.view fl = if scan.left = some fl then
      (scan.state.view fl).withLast (first - 1) else scan.state.view fl :=
    cutLeft_view scan wanted lower upper
  have same : ∀ fl ∈ segment, (cutLeft scan).commit.view fl = scan.state.view fl := by
    intro fl member
    rw [view, if_neg]
    exact fun cut => outside fl cut (placed.inside fl member)
  refine ⟨?_, ?_, spans_congr same, fun fl _ => view fl⟩
  · apply placed.congr
    intro fl member
    rw [same fl member]
    exact ⟨rfl, rfl⟩
  · exact (cutLeft_list scan).trans layout

/-- The end of the call when the lock `fl` reaches behind the range. -/
theorem settled_cutRight (newFl2 fl : Nat) (holder more : List Nat)
    (placed : Placed scan.state owner pool (holder ++ fl :: more)) (lower : 0 ≤ first)
    (range : first ≤ last)
    (layout : scan.passed ++ scan.rest = base ++ (holder ++ fl :: more ++ tail))
    (outside : ∀ fl, scan.left = some fl → fl ∉ pool) (distinct : scan.request ≠ fl)
    (right : scan.right = some fl) (below : last < offsetMax) :
    Settled owner scan.state (cutLeft (cutRight newFl2 scan)).commit base tail pool
      (holder ++ fl :: more) scan.left first
      (scan.state.spans holder ++
        ((scan.state.view fl).withFirst (last + 1)).span :: scan.state.spans more) := by
  have member : fl ∈ pool := placed.inside fl (by simp)
  have apart : scan.left ≠ some fl := fun cut => outside fl cut member
  have stop : (scan.state.mem scan.request).flEnd = last :=
    congrArg (fun view => view.span.last) wanted
  have cut : cutRight newFl2 scan =
      { scan with state := locksWakeUpBlocks (scan.state.setStart fl (last + 1)) fl } := by
    unfold cutRight
    rw [right]
    simp only [apart, if_false]
    rw [stop, loff_succ _ (by omega) below, right]
  rw [cut]
  generalize moved : locksWakeUpBlocks (scan.state.setStart fl (last + 1)) fl = state
  have view : state.view =
      update scan.state.view fl ((scan.state.view fl).withFirst (last + 1)) := by
    rw [← moved, view_locksWakeUpBlocks, view_setStart]
  have away : ∀ other, other ≠ fl → state.view other = scan.state.view other := by
    intro other ne
    rw [view, update_of_ne ne]
  have here : state.view fl = (scan.state.view fl).withFirst (last + 1) := by
    rw [view, update_self]
  have kept : Placed state owner pool (holder ++ fl :: more) := by
    apply placed.congr
    intro other _
    by_cases same : other = fl
    · rw [same, here]
      exact ⟨rfl, rfl⟩
    · rw [away other same]
      exact ⟨rfl, rfl⟩
  have split := nodup_append.mp placed.nodup
  have settled := settled_cutLeft { scan with state := state }
    (by rw [← wanted]; exact away _ distinct) (holder ++ fl :: more) kept lower (by omega) layout
    outside
  have front : state.spans holder = scan.state.spans holder := by
    apply spans_congr
    intro other member
    exact away other fun same => split.2.2 other member fl (by simp) same
  have back : state.spans more = scan.state.spans more := by
    apply spans_congr
    intro other member
    exact away other fun same => (nodup_cons.mp split.2.1).1 (same ▸ member)
  have result : state.spans (holder ++ fl :: more) = scan.state.spans holder ++
      ((scan.state.view fl).withFirst (last + 1)).span :: scan.state.spans more := by
    rw [← front, ← back, ← here]
    simp [LockState.spans]
  rw [← result]
  apply settled.after
  intro other outer
  exact away other fun same => outer (same ▸ member)

end

end

end Closing

/-- The lock that stands for the request in the list: none for an unlock, and
none before an old lock has taken the request over. -/
def holderOf (type : LockType) (added : Bool) (request : Nat) : List Nat :=
  if added = true ∧ type ≠ .unlck then [request] else []

theorem holderOf_false (type : LockType) (request : Nat) : holderOf type false request = [] := rfl

/-- An unlock counts as added from its first overlapping lock on. -/
theorem holderOf_marked (type : LockType) (added : Bool) (request : Nat) :
    holderOf type (if type = .unlck then true else added) request =
      holderOf type added request := by
  by_cases unlock : type = .unlck <;> simp [holderOf, unlock]

/-- The addresses that the call may write. -/
structure Claimed (type : LockType) (request newFl : Nat) (added : Bool) (left : Option Nat)
    (own pool : List Nat) : Prop where
  request_mem : request ∈ pool
  own_mem : ∀ fl ∈ own, fl ∈ pool
  new_mem : added = false → newFl ∈ pool ∧ newFl ≠ request ∧ newFl ∉ own
  left_outside : ∀ fl, left = some fl → fl ∉ pool
  unlock_left : type = .unlck → added = false → left = none

section Finish

variable {state : LockState Owner} {request newFl : Nat} {added : Bool} {owner : Owner}
  {type : LockType} {first last : Int} {own tail pool : List Nat} {left : Option Nat}

theorem emit_tag (locked : type ≠ .unlck) : emit type.tag first last = [⟨type, first, last⟩] := by
  cases type with
  | rdlck | wrlck => rfl
  | unlck => exact absurd rfl locked

section

variable (ready : Ready state request owner type first last own tail)

include ready

theorem Ready.placed (inside : ∀ fl ∈ own, fl ∈ pool) : Placed state owner pool own :=
  { ready with inside := inside }

theorem Ready.placed_cons {next : LockState Owner} {fl : Nat} (inside : ∀ fl ∈ own, fl ∈ pool)
    (same : ∀ fl ∈ own, next.view fl = state.view fl) (member : fl ∈ pool) (new : fl ∉ own)
    (view : next.view fl = ⟨owner, true, ⟨type, first, last⟩⟩) :
    Placed next owner pool (fl :: own) := by
  have kept : Placed next owner pool own := by
    apply (ready.placed inside).congr
    intro other here
    rw [same other here]
    exact ⟨rfl, rfl⟩
  refine ⟨?_, ?_, ?_, nodup_cons.mpr ⟨new, kept.nodup⟩⟩
  · exact forall_mem_cons.mpr ⟨by rw [view], kept.owners⟩
  · exact forall_mem_cons.mpr ⟨by rw [view], kept.posix⟩
  · exact forall_mem_cons.mpr ⟨member, kept.inside⟩

/-- The state in which the two neighbours of the range are cut: `holder` stands
for the request. -/
structure Prepared (scan : Scan Owner) (state : LockState Owner) (request : Nat) (owner : Owner)
    (type : LockType) (first last : Int) (base own tail pool holder : List Nat)
    (left right : Option Nat) : Prop where
  wanted : scan.state.view scan.request = ⟨owner, true, ⟨type, first, last⟩⟩
  request_eq : scan.request = request
  left_eq : scan.left = left
  right_eq : scan.right = right
  placed : Placed scan.state owner pool (holder ++ own)
  held : scan.state.spans holder = emit type.tag first last
  layout : scan.passed ++ scan.rest = base ++ (holder ++ own ++ tail)
  same : ∀ fl ∈ own, scan.state.view fl = state.view fl
  frame : ∀ fl, fl ∉ pool → scan.state.view fl = state.view fl

theorem finishScan_prepared (newFl2 : Nat) (base : List Nat) (front right : Option Nat)
    (claimed : Claimed type request newFl added left own pool)
    (stored : added = true ∨ type ≠ .unlck) : ∃ scan holder, finishScan newFl newFl2
        ⟨state, base ++ holderOf type added request, own ++ tail, request, added, front, right⟩ =
          (cutLeft (cutRight newFl2 scan)).commit ∧
      (holderOf type added request = [] → scan.passed = base) ∧
      Prepared scan state request owner type first last base own tail pool holder front right := by
  cases added with
  | true =>
    refine ⟨⟨state, base ++ holderOf type true request, own ++ tail, request, true, front, right⟩,
      holderOf type true request, rfl, fun none => by simp [none], ready.wanted, rfl, rfl, rfl,
      ?_, ?_, ?_, fun _ _ => rfl, fun _ _ => rfl⟩
    · by_cases locked : type = .unlck
      · simpa [holderOf, locked] using ready.placed claimed.own_mem
      · simpa [holderOf, locked] using ready.placed_cons claimed.own_mem (fun _ _ => rfl)
          claimed.request_mem ready.fresh ready.wanted
    · by_cases locked : type = .unlck
      · subst locked
        rfl
      · rw [emit_tag locked]
        simp [holderOf, locked, LockState.spans, ready.wanted]
    · simp [append_assoc]
  | false =>
    have locked : type ≠ .unlck := stored.resolve_left (by decide)
    obtain ⟨member, distinct, new⟩ := claimed.new_mem rfl
    have wantedType : (state.mem request).flType = type :=
      congrArg (fun view => view.span.tag) ready.wanted
    have view := view_locksCopyLock state newFl request
    have away : ∀ fl, fl ≠ newFl → (locksCopyLock state newFl request).view fl = state.view fl := by
      intro fl ne
      rw [view, update_of_ne ne]
    have here : (locksCopyLock state newFl request).view newFl =
        ⟨owner, true, ⟨type, first, last⟩⟩ := by
      rw [view, update_self, ready.wanted]
    have same : ∀ fl ∈ own, (locksCopyLock state newFl request).view fl = state.view fl :=
      fun fl inside => away fl fun equal => new (equal ▸ inside)
    refine ⟨⟨locksCopyLock state newFl request, base, newFl :: (own ++ tail), request, false, front,
      right⟩, [newFl], ?_, fun _ => rfl, ?_, rfl, rfl, rfl, ?_, ?_, ?_, same, ?_⟩
    · simp [finishScan, insertNew, holderOf, wantedType, locked]
    · exact (away request distinct.symm).trans ready.wanted
    · exact ready.placed_cons claimed.own_mem same member new here
    · rw [emit_tag locked]
      simp [LockState.spans, here]
    · simp
    · exact fun fl outside => away fl fun equal => outside (equal ▸ member)

theorem finishScan_stop (newFl2 : Nat) (base : List Nat)
    (claimed : Claimed type request newFl added left own pool) :
    ∃ segment, Settled owner state (finishScan newFl newFl2
        ⟨state, base ++ holderOf type added request, own ++ tail, request, added, left, none⟩)
      base tail pool segment left first (emit type.tag first last ++ state.spans own) := by
  have upper : first ≤ offsetMax := Int.le_trans ready.range ready.upper
  by_cases stored : added = true ∨ type ≠ .unlck
  · obtain ⟨scan, holder, finished, _, prepared⟩ :=
      finishScan_prepared ready newFl2 base left none claimed stored
    have uncut : cutRight newFl2 scan = scan := by
      unfold cutRight
      rw [prepared.right_eq]
    rw [finished, uncut]
    refine ⟨holder ++ own, ?_⟩
    have settled := settled_cutLeft scan prepared.wanted (holder ++ own) prepared.placed
      ready.lower upper prepared.layout (by rw [prepared.left_eq]; exact claimed.left_outside)
    have result : scan.state.spans (holder ++ own) =
        emit type.tag first last ++ state.spans own := by
      rw [← prepared.held, ← spans_congr prepared.same]
      exact map_append
    rw [result, prepared.left_eq] at settled
    exact settled.after prepared.frame
  · obtain ⟨waiting, unlock⟩ := not_or.mp stored
    obtain rfl : added = false := by simpa using waiting
    obtain rfl : type = .unlck := by simpa using unlock
    obtain rfl : left = none := claimed.unlock_left rfl rfl
    have wantedType : (state.mem request).flType = .unlck :=
      congrArg (fun view => view.span.tag) ready.wanted
    have nothing : finishScan newFl newFl2
        ⟨state, base ++ holderOf .unlck false request, own ++ tail, request, false, none, none⟩ =
        (cutLeft ⟨state, base, own ++ tail, request, false, none, none⟩).commit := by
      simp [finishScan, holderOf, wantedType, cutLeft]
    rw [nothing]
    have settled := settled_cutLeft ⟨state, base, own ++ tail, request, false, none, none⟩
      ready.wanted own (ready.placed claimed.own_mem) ready.lower upper rfl claimed.left_outside
    exact ⟨own, settled⟩

end

theorem finishScan_right (newFl2 : Nat) (base : List Nat) {fl : Nat} {more : List Nat}
    (ready : Ready state request owner type first last (fl :: more) tail)
    (claimed : Claimed type request newFl added left (fl :: more) pool)
    (stored : added = true ∨ type ≠ .unlck) (reaches : last < (state.view fl).span.last) :
    ∃ segment, Settled owner state (finishScan newFl newFl2
        ⟨state, base ++ holderOf type added request, fl :: more ++ tail, request, added, left,
          some fl⟩)
      base tail pool segment left first (emit type.tag first last ++
        ((state.view fl).withFirst (last + 1)).span :: state.spans more) := by
  have below : last < offsetMax := by
    have bounded := ready.bounded fl (by simp)
    omega
  obtain ⟨scan, holder, finished, _, prepared⟩ :=
    finishScan_prepared ready newFl2 base left (some fl) claimed stored
  rw [finished]
  refine ⟨holder ++ fl :: more, ?_⟩
  have distinct : scan.request ≠ fl := prepared.request_eq ▸ ready.distinct
  have settled := settled_cutRight scan prepared.wanted newFl2 fl holder more prepared.placed
    ready.lower ready.range prepared.layout
    (by rw [prepared.left_eq]; exact claimed.left_outside) distinct prepared.right_eq below
  have back : scan.state.spans more = state.spans more :=
    spans_congr (forall_mem_cons.mp prepared.same).2
  rw [prepared.held, prepared.left_eq, back, prepared.same fl (by simp)] at settled
  exact settled.after prepared.frame

/-- The range lies strictly inside the lock `fl` of another type: the second
spare lock becomes its front part. -/
theorem finishScan_split {newFl2 fl : Nat} {more : List Nat} (base : List Nat)
    (ready : Ready state request owner type first last (fl :: more) tail)
    (claimed : Claimed type request newFl added none (fl :: more) pool)
    (stored : added = true ∨ type ≠ .unlck) (empty : holderOf type added request = [])
    (spare : newFl2 ∉ pool) (reaches : last < (state.view fl).span.last) :
    ∃ segment, Settled owner state (finishScan newFl newFl2
        ⟨state, base ++ holderOf type added request, fl :: more ++ tail, request, added, some fl,
          some fl⟩)
      base tail (newFl2 :: pool) segment none first (((state.view fl).withLast (first - 1)).span ::
        (emit type.tag first last ++
          ((state.view fl).withFirst (last + 1)).span :: state.spans more)) := by
  have below : last < offsetMax := by
    have bounded := ready.bounded fl (by simp)
    omega
  obtain ⟨scan, holder, finished, front, prepared⟩ :=
    finishScan_prepared ready newFl2 base (some fl) (some fl) claimed stored
  have passed := front empty
  have rest : scan.rest = holder ++ fl :: more ++ tail := by
    have layout := prepared.layout
    rw [passed] at layout
    exact append_cancel_left layout
  have inside : ∀ other ∈ pool, other ≠ newFl2 := fun other member equal => spare (equal ▸ member)
  have member : fl ∈ pool := claimed.own_mem fl (by simp)
  -- the copy is a lock that the call has passed and whose end it will cut
  generalize copied : locksCopyLock scan.state newFl2 fl = state'
  have view : state'.view = update scan.state.view newFl2 (scan.state.view fl) := by
    rw [← copied, view_locksCopyLock]
  have away : ∀ other, other ≠ newFl2 → state'.view other = scan.state.view other := by
    intro other ne
    rw [view, update_of_ne ne]
  have here : state'.view newFl2 = state.view fl := by
    rw [view, update_self, prepared.same fl (by simp)]
  let split : Scan Owner :=
    { scan with state := state', rest := newFl2 :: scan.rest, left := some newFl2 }
  have cut : cutRight newFl2 scan = cutRight newFl2 split := by
    have ne : newFl2 ≠ fl := (inside fl member).symm
    simp [cutRight, split, prepared.right_eq, prepared.left_eq, copied, ne]
  have kept : Placed state' owner pool (holder ++ fl :: more) := by
    apply prepared.placed.congr
    intro other within
    rw [away other (inside other (prepared.placed.inside other within))]
    exact ⟨rfl, rfl⟩
  have wanted : state'.view split.request = ⟨owner, true, ⟨type, first, last⟩⟩ := by
    rw [← prepared.wanted]
    apply away
    rw [prepared.request_eq]
    exact inside request claimed.request_mem
  have distinct : split.request ≠ fl := prepared.request_eq ▸ ready.distinct
  have layout : split.passed ++ split.rest =
      base ++ [newFl2] ++ (holder ++ fl :: more ++ tail) := by
    simp [split, rest, passed]
  have outside : ∀ other, split.left = some other → other ∉ pool := by
    simpa [split] using spare
  have settled := settled_cutRight split wanted newFl2 fl holder more kept ready.lower ready.range
    layout outside distinct prepared.right_eq below
  have front : state'.spans holder = emit type.tag first last := by
    rw [← prepared.held]
    apply spans_congr
    intro other within
    exact away other (inside other (prepared.placed.inside other (by simp [within])))
  have back : state'.spans more = state.spans more := by
    apply spans_congr
    intro other within
    rw [away other (inside other (claimed.own_mem other (by simp [within]))),
      prepared.same other (by simp [within])]
  have owned : (state'.view newFl2).owner = owner := by
    rw [here, ready.owners fl (by simp)]
  have posix : (state'.view newFl2).posix = true := by
    rw [here, ready.posix fl (by simp)]
  have pushed := settled.push spare owned posix (.inr rfl)
  rw [if_pos rfl, front, back, here, away fl (inside fl member),
    prepared.same fl (by simp)] at pushed
  rw [finished, cut]
  refine ⟨_, pushed.after ?_⟩
  intro other outer
  simp only [mem_cons, not_or] at outer
  exact (away other outer.1).trans (prepared.frame other outer.2)

end Finish

section Turns

variable {state next : LockState Owner} {request request' fl newFl : Nat} {added : Bool}
  {owner : Owner} {type : LockType} {first last : Int} {own tail pool : List Nat}
  {left : Option Nat}

theorem Ready.filled (ready : Ready state request owner type first last own tail) (other : Nat)
    (member : other ∈ own) : (state.view other).span.first ≤ (state.view other).span.last :=
  ready.normal.nonempty _ (mem_map_of_mem member)

section

variable (ready : Ready state request owner type first last (fl :: own) tail)

include ready

theorem Ready.later (other : Nat) (member : other ∈ own) :
    (state.view fl).span.last < (state.view other).span.first :=
  (ready.normal.before (state.view other).span (mem_map_of_mem member)).1

/-- The request was merged with the lock `fl` of its own type. -/
theorem Ready.join (joined : next.view = (joinLocks state request fl).view)
    (either : request' = request ∨ request' = fl) (same : type = (state.view fl).span.tag)
    (touches : first - 1 ≤ (state.view fl).span.last) (lower : 0 ≤ (state.view fl).span.first) :
    (∀ other, other ≠ fl → other ≠ request → next.view other = state.view other) ∧
      Ready next request' owner type (min first (state.view fl).span.first)
        (max last (state.view fl).span.last) own tail := by
  have range := ready.range
  have start := ready.lower
  have upper := ready.upper
  have bounded := ready.bounded fl (by simp)
  rw [view_joinLocks _ _ _ ready.distinct, ready.wanted] at joined
  have frame : ∀ other, other ≠ fl → other ≠ request → next.view other = state.view other := by
    intro other first second
    rw [joined, update_of_ne first, update_of_ne second]
  refine ⟨frame, ready.advance frame either ?_ (by omega) (by omega) (by omega) ?_⟩
  · rcases either with rfl | rfl
    · rw [joined, update_of_ne ready.distinct, update_self]
      rfl
    · rw [joined, update_self]
      simp [View.withRange, ready.owners _ (mem_cons_self), ready.posix _ (mem_cons_self), ← same]
  · intro full other member _
    have after := ready.later other member
    have end_ := ready.filled other (by simp [member])
    have last_ := ready.bounded other (by simp [member])
    have wrapped : last = offsetMax := by omega
    exact absurd same.symm (ready.noWrap wrapped fl (by simp) touches)

/-- A lock inside the range is dropped, or takes the request over. -/
theorem Ready.drop
    (frame : ∀ other, other ≠ fl → other ≠ request → next.view other = state.view other)
    (either : request' = request ∨ request' = fl)
    (wanted : next.view request' = state.view request) :
    Ready next request' owner type first last own tail := by
  apply ready.advance frame either (wanted.trans ready.wanted) ready.lower ready.range ready.upper
  exact fun full other member => ready.noWrap full other (by simp [member])

end

theorem Claimed.rest (claimed : Claimed type request newFl added left (fl :: own) pool) :
    Claimed type request newFl true left own pool :=
  ⟨claimed.request_mem, (forall_mem_cons.mp claimed.own_mem).2, by simp,
    claimed.left_outside, by simp⟩

theorem Claimed.takeover (claimed : Claimed type request newFl added left (fl :: own) pool) :
    Claimed type fl newFl true left own pool :=
  { claimed.rest with request_mem := claimed.own_mem fl (by simp), new_mem := by simp }

end Turns

/-- The caller's request and the two spare locks lie outside the list. -/
structure Spare (request newFl newFl2 : Nat) (own : List Nat) : Prop where
  distinct : newFl ≠ request ∧ newFl2 ≠ request ∧ newFl2 ≠ newFl
  outside : ∀ fl ∈ own, fl ≠ request ∧ fl ≠ newFl ∧ fl ≠ newFl2

theorem Spare.claimed {request newFl newFl2 : Nat} {own : List Nat}
    (spare : Spare request newFl newFl2 own) (type : LockType) (added : Bool) (left : Option Nat)
    (outside : ∀ fl, left = some fl → fl ∉ own ++ [request, newFl])
    (unlock : type = .unlck → added = false → left = none) :
    Claimed type request newFl added left own (own ++ [request, newFl]) := by
  refine ⟨by simp, fun fl member => by simp [member], fun _ => ⟨by simp, spare.distinct.1, ?_⟩,
    outside, unlock⟩
  exact fun member => (spare.outside newFl member).2.1 rfl

section

variable {request newFl newFl2 fl : Nat} {own : List Nat}

theorem Spare.tail (spare : Spare request newFl newFl2 (fl :: own)) :
    Spare request newFl newFl2 own :=
  ⟨spare.distinct, (forall_mem_cons.mp spare.outside).2⟩

theorem mem_pool (member : fl ∈ own ++ [request, newFl]) :
    fl ∈ own ++ [request, newFl, newFl2] := by
  simp only [mem_append, mem_cons] at member ⊢
  tauto

theorem Spare.not_mem (spare : Spare request newFl newFl2 (fl :: own)) (nodup : (fl :: own).Nodup) :
    fl ∉ own ++ [request, newFl, newFl2] := by
  have fresh := (nodup_cons.mp nodup).1
  have apart := spare.outside fl (by simp)
  simp [fresh, apart]

end

/-- A call that continues with `scan` leaves `result` as the locks of its owner. -/
def Leaves (state : LockState Owner) (request newFl newFl2 : Nat) (owner : Owner)
    (base own tail : List Nat) (first : Int) (scan : Scan Owner) (result : List (Span LockType)) :
    Prop :=
  ∃ segment, Settled owner state (finishScan newFl newFl2 scan) base tail
    (own ++ [request, newFl, newFl2]) segment none first result

section Leaves

variable {state : LockState Owner} {request newFl newFl2 fl : Nat} {owner : Owner}
  {type : LockType} {first last : Int} {own tail : List Nat}

section

variable {base : List Nat} (ready : Ready state request owner type first last (fl :: own) tail)
  (spare : Spare request newFl newFl2 (fl :: own))

include ready spare

theorem leaves_skip {scan : Scan Owner} {result : List (Span LockType)}
    (rest : Leaves state request newFl newFl2 owner (base ++ [fl]) own tail first scan result) :
    Leaves state request newFl newFl2 owner base (fl :: own) tail first scan
      ((state.view fl).span :: result) := by
  obtain ⟨segment, settled⟩ := rest
  exact ⟨fl :: segment, settled.push (spare.not_mem ready.nodup) (ready.owners fl (by simp))
    (ready.posix fl (by simp)) (.inl rfl)⟩

theorem leaves_split (reaches : last < (state.view fl).span.last) :
    Leaves state request newFl newFl2 owner base (fl :: own) tail first
      ⟨state, base, fl :: own ++ tail, request, if type = .unlck then true else false, some fl,
        some fl⟩
      (((state.view fl).withLast (first - 1)).span :: (emit type.tag first last ++
        ((state.view fl).withFirst (last + 1)).span :: state.spans own)) := by
  have unheld := (holderOf_marked type false request).trans (holderOf_false type request)
  have fresh : newFl2 ∉ fl :: own ++ [request, newFl] := by
    have apart := spare.distinct
    intro member
    simp only [mem_append, mem_cons, not_mem_nil, or_false] at member
    rcases member with member | equal | equal
    · exact (spare.outside newFl2 (by simpa using member)).2.2 rfl
    · exact apart.2.1 equal
    · exact apart.2.2 equal
  obtain ⟨segment, settled⟩ := finishScan_split base ready
    (spare.claimed type (if type = .unlck then true else false) none (by simp) (by simp))
    (by by_cases unlock : type = .unlck <;> simp [unlock]) unheld fresh reaches
  rw [unheld, append_nil] at settled
  refine ⟨segment, settled.mono ?_⟩
  intro other member
  simp only [mem_append, mem_cons] at member ⊢
  tauto

end

end Leaves

variable [DecidableEq Owner]

theorem processLocks_cons (state : LockState Owner) (passed : List Nat) (request : Nat)
    (added : Bool) (left : Option Nat) (fl : Nat) (rest : List Nat)
    (own : (state.view request).owner = (state.view fl).owner) :
    processLocks state passed request added left (fl :: rest) =
      let wanted := (state.view request).span
      let lock := (state.view fl).span
      if wanted.tag = lock.tag then
        if lock.last < loff (wanted.first - 1) then
          processLocks state (passed ++ [fl]) request added left rest
        else if loff (wanted.last + 1) < lock.first then
          ⟨state, passed, fl :: rest, request, added, left, none⟩
        else if added then
          processLocks (locksWakeUpBlocks (joinLocks state request fl) fl)
            passed request added left rest
        else processLocks (joinLocks state request fl) (passed ++ [fl]) fl true left rest
      else if lock.last < wanted.first then
        processLocks state (passed ++ [fl]) request added left rest
      else if wanted.last < lock.first then
        ⟨state, passed, fl :: rest, request, added, left, none⟩
      else
        let added := if wanted.tag = .unlck then true else added
        let left := if lock.first < wanted.first then some fl else left
        if wanted.last < lock.last then
          ⟨state, passed, fl :: rest, request, added, left, some fl⟩
        else if wanted.first ≤ lock.first then
          if added then processLocks (locksWakeUpBlocks state fl) passed request added left rest
          else processLocks (replaceLock state request fl) (passed ++ [fl]) fl true left rest
        else processLocks state (passed ++ [fl]) request added left rest := by
  have same : posixSameOwner (state.mem request) (state.mem fl) = true := decide_eq_true own
  rw [processLocks]
  simp only [same, Bool.not_true, Bool.false_eq_true, if_false]
  rfl

theorem processLocks_stop (state : LockState Owner) (passed : List Nat) (request : Nat)
    (added : Bool) (left : Option Nat) (tail : List Nat)
    (stop : ∀ fl ∈ tail.head?, (state.view request).owner ≠ (state.view fl).owner) :
    processLocks state passed request added left tail =
      ⟨state, passed, tail, request, added, left, none⟩ := by
  cases tail with
  | nil => rfl
  | cons fl rest =>
    have other : posixSameOwner (state.mem request) (state.mem fl) = false :=
      decide_eq_false (stop fl rfl)
    rw [processLocks]
    simp [other]

theorem some_eq_tag {type lock : LockType} (locked : lock ≠ .unlck) :
    some lock = type.tag ↔ type = lock := by
  cases type <;> simp [LockType.tag, eq_comm]
  exact locked

/-- From the first lock that does not begin in front of the range on, the loop
swallows locks as `absorb` does. -/
theorem processLocks_after {type : LockType} {tail pool : List Nat} {newFl : Nat} (newFl2 : Nat)
    (base own : List Nat) (state : LockState Owner) (request : Nat) (added : Bool) (last : Int)
    (ready : Ready state request owner type first last own tail)
    (claimed : Claimed type request newFl added left own pool)
    (later : ∀ fl ∈ own, first ≤ (state.view fl).span.first) :
    ∃ segment, Settled owner state (finishScan newFl newFl2 (processLocks state
        (base ++ holderOf type added request) request added left (own ++ tail)))
      base tail pool segment left first
      (assignFront type.tag first last (state.spans own)) := by
  induction own generalizing state request added last with
  | nil =>
    rw [nil_append, processLocks_stop]
    · exact finishScan_stop ready newFl2 base claimed
    · intro fl member
      rw [ready.wanted]
      exact (ready.stop fl member).1.symm
  | cons fl own ih =>
    have starts := later fl (by simp)
    have filled := ready.filled fl (by simp)
    have locked := ready.locked fl (by simp)
    have lower := ready.lower
    have upper := ready.upper
    have range := ready.range
    have same_owner : (state.view request).owner = (state.view fl).owner := by
      rw [ready.wanted, ready.owners fl (by simp)]
    have stop := finishScan_stop ready newFl2 base claimed
    -- every other turn goes on with one lock less
    have onward : ∀ (next : LockState Owner) (passed : List Nat) (request' : Nat) (last' : Int),
        passed = base ++ holderOf type true request' →
        (∀ other, other ≠ fl → other ≠ request → next.view other = state.view other) →
        Ready next request' owner type first last' own tail →
        Claimed type request' newFl true left own pool →
        ∃ segment, Settled owner state (finishScan newFl newFl2
          (processLocks next passed request' true left (own ++ tail))) base tail pool segment left
          first (assignFront type.tag first last' (state.spans own)) := by
      intro next passed request' last' at_ frame ready' claimed'
      have kept := ready.kept frame
      obtain ⟨segment, settled⟩ := ih next request' true last' ready' claimed' (by
        intro other member
        rw [kept other member]
        exact later other (by simp [member]))
      rw [spans_congr kept, ← at_] at settled
      refine ⟨segment, settled.after ?_⟩
      intro other outside
      apply frame
      · exact fun equal => outside (equal ▸ claimed.own_mem fl (by simp))
      · exact fun equal => outside (equal ▸ claimed.request_mem)
    rw [cons_append, processLocks_cons _ _ _ _ _ _ _ same_owner, ready.wanted]
    change ∃ segment, Settled owner state _ base tail pool segment left first
      (assignFront type.tag first last ((state.view fl).span :: state.spans own))
    rw [assignFront, absorb]
    dsimp only
    by_cases same : type = (state.view fl).span.tag
    · have wraps : last < offsetMax := by
        have apart := ready.noWrap
        by_contra full
        exact apart (by omega) fl (by simp) (by omega) same.symm
      rw [if_pos same, if_pos ((some_eq_tag locked).mpr same), loff_pred _ lower (by omega),
        loff_succ _ (by omega) wraps, if_neg (by omega)]
      by_cases apart : last + 1 < (state.view fl).span.first
      · rw [if_pos apart, if_pos apart]
        exact stop
      rw [if_neg apart, if_neg apart]
      cases added with
      | true =>
        obtain ⟨frame, joined⟩ := ready.join (view_locksWakeUpBlocks _ fl) (.inl rfl) same
          (by omega) (by omega)
        rw [Int.min_eq_left starts] at joined
        exact onward _ _ request _ rfl frame joined claimed.rest
      | false =>
        obtain ⟨frame, joined⟩ := ready.join rfl (.inr rfl) same (by omega) (by omega)
        rw [Int.min_eq_left starts] at joined
        exact onward _ _ fl _ (by simp [holderOf, same, locked]) frame joined claimed.takeover
    · have different : some (state.view fl).span.tag ≠ type.tag :=
        fun equal => same ((some_eq_tag locked).mp equal)
      rw [if_neg same, if_neg different, if_neg (by omega)]
      by_cases apart : last < (state.view fl).span.first
      · rw [if_pos apart, if_pos apart]
        exact stop
      have inner : ¬ (state.view fl).span.first < first := by omega
      rw [if_neg apart, if_neg apart, if_neg inner, if_pos starts]
      rw [← holderOf_marked]
      generalize marked : (if type = .unlck then true else added) = added'
      have claimed' : Claimed type request newFl added' left (fl :: own) pool := by
        rw [← marked]
        split
        · exact { claimed.rest with own_mem := claimed.own_mem, new_mem := by simp }
        · exact claimed
      by_cases reaches : last < (state.view fl).span.last
      · rw [if_pos reaches, if_pos reaches]
        apply finishScan_right newFl2 base ready claimed' _ reaches
        by_cases unlock : type = .unlck
        · exact .inl (by simp [← marked, unlock])
        · exact .inr unlock
      rw [if_neg reaches, if_neg reaches]
      cases added' with
      | true =>
        have woken := view_locksWakeUpBlocks state fl
        apply onward _ _ request last rfl _ (ready.drop _ (.inl rfl) (congrFun woken request))
          claimed.rest
        · exact fun other _ _ => congrFun woken other
        · exact fun other _ _ => congrFun woken other
      | false =>
        have unlock : type ≠ .unlck := by
          intro unlock
          simp [unlock] at marked
        have view := view_replaceLock state request fl
        have frame : ∀ other, other ≠ fl → other ≠ request →
            (replaceLock state request fl).view other = state.view other := by
          intro other ne _
          rw [view, update_of_ne ne]
        have wanted : (replaceLock state request fl).view fl = state.view request := by
          rw [view, update_self, ready.wanted, ready.owners fl (by simp),
            ready.posix fl (by simp)]
        exact onward _ _ fl last (by simp [holderOf, unlock]) frame
          (ready.drop frame (.inr rfl) wanted) claimed.takeover

section Assign

variable {state : LockState Owner} {request newFl newFl2 fl : Nat} {owner : Owner}
  {type : LockType} {first last : Int} {own tail : List Nat}

theorem leaves_after (base : List Nat)
    (ready : Ready state request owner type first last own tail)
    (spare : Spare request newFl newFl2 own)
    (later : ∀ fl ∈ own, first ≤ (state.view fl).span.first) :
    Leaves state request newFl newFl2 owner base own tail first
      (processLocks state base request false none (own ++ tail))
      (assignFront type.tag first last (state.spans own)) := by
  obtain ⟨segment, settled⟩ := processLocks_after newFl2 base own state request
    false last ready (spare.claimed type false none (by simp) (by simp)) later
  rw [holderOf_false, append_nil] at settled
  exact ⟨segment, settled.mono fun _ => mem_pool⟩

section

variable {base : List Nat} (ready : Ready state request owner type first last (fl :: own) tail)

include ready

theorem leaves_join (same : type = (state.view fl).span.tag)
    (touches : first - 1 ≤ (state.view fl).span.last) (started : 0 ≤ (state.view fl).span.first) :
    Leaves state request newFl newFl2 owner base (fl :: own) tail first
      (processLocks (joinLocks state request fl) (base ++ [fl]) fl true none (own ++ tail))
      (assignFront type.tag (min first (state.view fl).span.first)
        (max last (state.view fl).span.last) (state.spans own)) := by
  have locked := ready.locked fl (by simp)
  obtain ⟨frame, joined⟩ := ready.join rfl (.inr rfl) same touches started
  have claimed : Claimed type fl newFl true none own (fl :: own ++ [request, newFl, newFl2]) :=
    ⟨by simp, fun other member => by simp [member], by simp, by simp, by simp⟩
  have kept := ready.kept frame
  obtain ⟨segment, settled⟩ := processLocks_after newFl2 base own _ fl true _
    joined claimed (by
      intro other member
      have after := ready.later other member
      rw [kept other member]
      omega)
  have held : holderOf type true fl = [fl] := by
    have stored : type ≠ .unlck := by rwa [same]
    simp [holderOf, stored]
  rw [spans_congr kept, held] at settled
  refine ⟨segment, (settled.uncut first).after ?_⟩
  intro other outside
  simp only [mem_append, mem_cons, not_or] at outside
  exact frame other outside.1.1 outside.2.1

theorem leaves_cut (spare : Spare request newFl newFl2 (fl :: own))
    (overlaps : first ≤ (state.view fl).span.last) :
    Leaves state request newFl newFl2 owner base (fl :: own) tail first
      (processLocks state (base ++ [fl]) request (if type = .unlck then true else false) (some fl)
        (own ++ tail))
      (((state.view fl).withLast (first - 1)).span ::
        assignFront type.tag first last (state.spans own)) := by
  have rest : Ready state request owner type first last own tail :=
    ready.drop (fun _ _ _ => rfl) (.inl rfl) rfl
  have outside := spare.not_mem ready.nodup
  obtain ⟨segment, settled⟩ := processLocks_after newFl2 (base ++ [fl]) own state
    request (if type = .unlck then true else false) last rest
    (spare.tail.claimed type _ (some fl)
      (fun other equal member => by
        cases equal
        exact outside (mem_pool member))
      (fun unlock => by simp [unlock]))
    (by
      intro other member
      have after := ready.later other member
      omega)
  have unheld := (holderOf_marked type false request).trans (holderOf_false type request)
  rw [unheld, append_nil] at settled
  have pushed := (settled.mono fun _ => mem_pool).push outside (ready.owners fl (by simp))
    (ready.posix fl (by simp)) (.inr rfl)
  rw [if_pos rfl] at pushed
  exact ⟨fl :: segment, pushed⟩

end

end Assign

/-- The loop and what follows it overwrite the range in the owner's locks. -/
theorem processLocks_assign {type : LockType} {first last : Int} {tail : List Nat}
    {newFl newFl2 : Nat} {state : LockState Owner} {request : Nat} (own base : List Nat)
    (ready : Ready state request owner type first last own tail)
    (started : ∀ fl ∈ own, 0 ≤ (state.view fl).span.first)
    (spare : Spare request newFl newFl2 own) :
    Leaves state request newFl newFl2 owner base own tail first
      (processLocks state base request false none (own ++ tail))
      (assign type.tag first last (state.spans own)) := by
  induction own generalizing base with
  | nil =>
    have stop := leaves_after base ready spare (by simp)
    rw [show state.spans [] = [] from rfl, assignFront, absorb, append_nil] at stop
    exact stop
  | cons fl own ih =>
    have locked := ready.locked fl (by simp)
    have lower := ready.lower
    have upper := ready.upper
    have range := ready.range
    have filled := ready.filled fl (by simp)
    have same_owner : (state.view request).owner = (state.view fl).owner := by
      rw [ready.wanted, ready.owners fl (by simp)]
    have rest := ih (base ++ [fl]) (ready.drop (fun _ _ _ => rfl) (.inl rfl) rfl)
      (forall_mem_cons.mp started).2 spare.tail
    have skip := leaves_skip ready spare rest
    change Leaves state request newFl newFl2 owner base (fl :: own) tail first _
      (assign type.tag first last ((state.view fl).span :: state.spans own))
    by_cases inner : first ≤ (state.view fl).span.first
    · rw [assign_of_le filled inner]
      apply leaves_after base ready spare
      intro other member
      rcases mem_cons.mp member with rfl | member
      · exact inner
      · have after := ready.later other member
        omega
    rw [assign, cons_append, processLocks_cons _ _ _ _ _ _ _ same_owner, ready.wanted]
    by_cases same : type = (state.view fl).span.tag
    · rw [if_pos same, if_pos ((some_eq_tag locked).mpr same), loff_pred _ lower (by omega)]
      by_cases before : (state.view fl).span.last < first - 1
      · rw [if_pos before, if_pos before]
        exact skip
      have wraps : last < offsetMax := by
        by_contra full
        exact ready.noWrap (by omega) fl (by simp) (by omega) same.symm
      have meets : ¬last + 1 < (state.view fl).span.first := by omega
      rw [if_neg before, if_neg before, loff_succ _ (by omega) wraps, if_neg meets, if_neg meets]
      exact leaves_join ready same (by omega) (started fl (by simp))
    · rw [if_neg fun equal => same ((some_eq_tag locked).mp equal)]
      dsimp only
      rw [if_neg same]
      by_cases before : (state.view fl).span.last < first
      · rw [if_pos before, if_pos before]
        exact skip
      rw [if_neg before, if_neg before, if_neg (by omega), if_neg inner]
      have starts : (state.view fl).span.first < first := by omega
      rw [if_pos starts, if_pos starts]
      by_cases reaches : last < (state.view fl).span.last
      · rw [if_pos reaches, if_pos reaches]
        exact leaves_split ready spare reaches
      · rw [if_neg reaches, if_neg reaches]
        exact leaves_cut ready spare (by omega)

end MagxKernel.FileLocks
