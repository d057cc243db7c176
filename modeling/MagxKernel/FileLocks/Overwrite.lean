import MagxKernel.FileLocks.Scan
import MagxKernel.Lib.ListGroups
import MagxKernel.Lib.Runs

namespace MagxKernel.FileLocks

open IntervalMap ListGroups Runs List Function

variable {Owner : Type}

def LockState.owners (state : LockState Owner) : List Owner :=
  state.iFlock.map fun fl => (state.view fl).owner

/-- One call: the caller's request with its address, and what the two
allocations return. -/
structure Call (Owner : Type) where
  request : Nat
  lock : FileLock Owner
  newFl : Option Nat
  newFl2 : Option Nat

/-- The caller fills in its request; the links stay as they are. -/
def Call.fill (call : Call Owner) (state : LockState Owner) : LockState Owner :=
  state.write call.request
    { call.lock with
      flNext := (state.mem call.request).flNext
      flBlock := (state.mem call.request).flBlock }

/-- A POSIX request for a valid range, stored outside the list like the two
locks from the allocator. -/
structure Call.Valid (call : Call Owner) (state : LockState Owner) : Prop where
  posix : call.lock.flPosix = true
  lower : 0 ≤ call.lock.flStart
  range : call.lock.flStart ≤ call.lock.flEnd
  upper : call.lock.flEnd ≤ offsetMax
  request_outside : call.request ∉ state.iFlock
  newFl_outside : ∀ fl ∈ call.newFl, fl ∉ state.iFlock ∧ fl ≠ call.request
  newFl2_outside : ∀ fl ∈ call.newFl2, fl ∉ state.iFlock ∧ fl ≠ call.request ∧ call.newFl ≠ some fl

/-- The request does not end at the last byte, or its owner has nothing that it
would have to be merged with. -/
def Call.NoWrap (call : Call Owner) (state : LockState Owner) : Prop :=
  call.lock.flEnd = offsetMax → ∀ fl ∈ state.iFlock, (state.view fl).owner = call.lock.flOwner →
    call.lock.flStart - 1 ≤ (state.view fl).span.last → (state.view fl).span.tag ≠ call.lock.flType

/-- The place of one owner's locks in the list. -/
structure Segments (state : LockState Owner) (owner : Owner) (front own back : List Nat) :
    Prop where
  list : state.iFlock = front ++ (own ++ back)
  front_ne : ∀ fl ∈ front, (state.view fl).owner ≠ owner
  own_eq : ∀ fl ∈ own, (state.view fl).owner = owner
  back_ne : ∀ fl ∈ back, (state.view fl).owner ≠ owner

/-- A request whose address and spare locks lie outside a well-formed list. -/
structure Applicable (state : LockState Owner) (request newFl newFl2 : Nat) (owner : Owner)
    (type : LockType) (first last : Int) : Prop where
  wanted : state.view request = ⟨owner, true, ⟨type, first, last⟩⟩
  lower : 0 ≤ first
  range : first ≤ last
  upper : last ≤ offsetMax
  spare : Spare request newFl newFl2 state.iFlock
  noWrap : last = offsetMax → ∀ fl ∈ state.iFlock, (state.view fl).owner = owner →
    first - 1 ≤ (state.view fl).span.last → (state.view fl).span.tag ≠ type

/-- The list after the call: the owner's stretch is replaced, and no lock
outside it has changed. -/
structure Replaced (state after : LockState Owner) (owner : Owner) (type : LockType)
    (first last : Int) (front own back segment : List Nat) : Prop where
  old : Segments state owner front own back
  new : Segments after owner front segment back
  posix : ∀ fl ∈ segment, (after.view fl).posix = true
  nodup : (front ++ (segment ++ back)).Nodup
  outside : ∀ fl ∈ front ++ back, after.view fl = state.view fl
  spans : after.spans segment = assign type.tag first last (state.spans own)
  back_nil : own = [] → back = []

theorem Replaced.owners_grouped {state after : LockState Owner} {owner : Owner} {type : LockType}
    {first last : Int} {front own back segment : List Nat}
    (replaced : Replaced state after owner type first last front own back segment)
    (contiguous : Grouped state.owners) : Grouped after.owners := by
  have kept : ∀ part ⊆ front ++ back, part.map (fun fl => (after.view fl).owner) =
      part.map fun fl => (state.view fl).owner := fun part inside =>
    map_congr_left fun fl member => by rw [replaced.outside fl (inside member)]
  unfold LockState.owners at contiguous ⊢
  rw [replaced.old.list, map_append, map_append] at contiguous
  rw [replaced.new.list, map_append, map_append, kept front (by simp),
    kept back (by simp)]
  have parts : Parts owner (front.map fun fl => (state.view fl).owner)
      (own.map fun fl => (state.view fl).owner) (back.map fun fl => (state.view fl).owner) := by
    refine ⟨?_, ?_, ?_, ?_⟩
    · simpa using replaced.old.front_ne
    · simpa using replaced.old.own_eq
    · simpa using replaced.old.back_ne
    · intro empty
      rw [replaced.back_nil (map_eq_nil_iff.mp empty)]
      rfl
  exact contiguous.replace parts _ (by simpa using replaced.new.own_eq)

/-- Only the locks in the list count. -/
structure SameList (before after : LockState Owner) : Prop where
  list : after.iFlock = before.iFlock
  view : ∀ fl ∈ before.iFlock, after.view fl = before.view fl

theorem iFlock_locksDeleteBlock (state : LockState Owner) (waiter : Nat) :
    (locksDeleteBlock state waiter).iFlock = state.iFlock := by
  unfold locksDeleteBlock unlinkBlock
  split <;> rfl

theorem iFlock_locksInsertBlock (state : LockState Owner) (blocker waiter : Nat) :
    (locksInsertBlock state blocker waiter).iFlock = state.iFlock := by
  unfold locksInsertBlock
  extract_lets single queued linked
  have kept : linked.iFlock = state.iFlock := by
    change single.iFlock = state.iFlock
    dsimp only [single]
    split
    · exact iFlock_locksDeleteBlock state waiter
    · rfl
  split <;> exact kept

theorem fill_view (call : Call Owner) (state : LockState Owner) :
    (call.fill state).view = update state.view call.request call.lock.view :=
  view_write state call.request _

variable {state : LockState Owner} {call : Call Owner}

theorem Call.Valid.sameList (valid : call.Valid state) : SameList state (call.fill state) := by
  refine ⟨rfl, ?_⟩
  intro fl member
  rw [fill_view, update_of_ne]
  exact fun equal => valid.request_outside (equal ▸ member)

theorem Call.Valid.applicable {new new2 : Nat} (valid : call.Valid state)
    (noWrap : call.NoWrap state) (first : call.newFl = some new)
    (second : call.newFl2 = some new2) :
    Applicable (call.fill state) call.request new new2 call.lock.flOwner call.lock.flType
      call.lock.flStart call.lock.flEnd := by
  obtain ⟨new_outside, new_ne⟩ := valid.newFl_outside new first
  obtain ⟨new2_outside, new2_ne, apart⟩ := valid.newFl2_outside new2 second
  have same := valid.sameList
  refine ⟨?_, valid.lower, valid.range, valid.upper, ⟨⟨new_ne, new2_ne, ?_⟩, ?_⟩, ?_⟩
  · rw [fill_view, update_self, FileLock.view, valid.posix]
  · intro equal
    rw [equal] at apart
    exact apart first
  · intro fl member
    refine ⟨?_, ?_, ?_⟩
    · exact fun equal => valid.request_outside (equal ▸ member)
    · exact fun equal => new_outside (equal ▸ member)
    · exact fun equal => new2_outside (equal ▸ member)
  · intro full fl member
    rw [same.view fl member]
    exact noWrap full fl member

variable [DecidableEq Owner]

/-- The locks of one owner in list order. -/
def LockState.locksOf (state : LockState Owner) (owner : Owner) : List (Span LockType) :=
  state.spans (state.iFlock.filter fun fl => decide ((state.view fl).owner = owner))

/-- The type of lock that an owner holds on a byte. -/
def LockState.lockAt (state : LockState Owner) (owner : Owner) (byte : Int) : Option LockType :=
  tagAt (state.locksOf owner) byte

/-- The locks of every owner stand together, sorted, disjoint, and merged where
they could be. -/
structure WellFormed (state : LockState Owner) : Prop where
  nodup : state.iFlock.Nodup
  posix : ∀ fl ∈ state.iFlock, (state.view fl).posix = true
  locked : ∀ fl ∈ state.iFlock, (state.view fl).span.tag ≠ .unlck
  lower : ∀ fl ∈ state.iFlock, 0 ≤ (state.view fl).span.first
  upper : ∀ fl ∈ state.iFlock, (state.view fl).span.last ≤ offsetMax
  contiguous : Grouped state.owners
  normal : ∀ owner, Normal (state.locksOf owner)

def lockCall (fuel : Nat) (state : LockState Owner) (call : Call Owner) :
    Option (Int × LockState Owner) :=
  posixLockFile fuel (call.fill state) call.request call.newFl call.newFl2

def lockStep (fuel : Nat) (state : LockState Owner) (call : Call Owner) :
    Option (LockState Owner) :=
  (lockCall fuel state call).map Prod.snd

/-- The owner's bytes in the range carry the requested type, and nothing else
has changed for anybody. -/
structure Overwritten (lock : FileLock Owner) (before after : LockState Owner) : Prop where
  own : ∀ byte, after.lockAt lock.flOwner byte =
    if lock.flStart ≤ byte ∧ byte ≤ lock.flEnd then lock.flType.tag
    else before.lockAt lock.flOwner byte
  others : ∀ owner, owner ≠ lock.flOwner →
    ∀ byte, after.lockAt owner byte = before.lockAt owner byte

section Segments

variable {state : LockState Owner} {owner : Owner} {front own back : List Nat}

theorem Segments.locksOf_own (segments : Segments state owner front own back) :
    state.locksOf owner = state.spans own := by
  have before : front.filter (fun fl => decide ((state.view fl).owner = owner)) = [] :=
    filter_eq_nil_iff.mpr fun fl member => by simpa using segments.front_ne fl member
  have inside : own.filter (fun fl => decide ((state.view fl).owner = owner)) = own :=
    filter_eq_self.mpr fun fl member => by simpa using segments.own_eq fl member
  have behind : back.filter (fun fl => decide ((state.view fl).owner = owner)) = [] :=
    filter_eq_nil_iff.mpr fun fl member => by simpa using segments.back_ne fl member
  rw [LockState.locksOf, segments.list, filter_append, filter_append, before, inside,
    behind, nil_append, append_nil]

theorem Segments.locksOf_other (segments : Segments state owner front own back) (other : Owner)
    (different : other ≠ owner) :
    state.locksOf other =
      state.spans ((front ++ back).filter fun fl => decide ((state.view fl).owner = other)) := by
  have inside : own.filter (fun fl => decide ((state.view fl).owner = other)) = [] := by
    apply filter_eq_nil_iff.mpr
    intro fl member
    rw [segments.own_eq fl member]
    simpa using different.symm
  rw [LockState.locksOf, segments.list, filter_append, filter_append, inside,
    nil_append, filter_append]

end Segments

theorem WellFormed.segments (wellFormed : WellFormed state) (request : Nat) :
    ∃ own back, state.iFlock.dropWhile (isForeign state request) = own ++ back ∧
      (own = [] → back = []) ∧
      Segments state (state.view request).owner
        (state.iFlock.takeWhile (isForeign state request)) own back := by
  have foreign : ∀ fl ∈ state.iFlock, isForeign state request fl = true ↔
      (state.view fl).owner ≠ (state.view request).owner := by
    intro fl member
    have posix : (state.mem fl).flPosix = true := wellFormed.posix fl member
    simp only [isForeign, posixSameOwner, posix, Bool.not_true, Bool.false_or, Bool.not_eq_true',
      decide_eq_false_iff_not]
    exact ne_comm
  obtain ⟨own, back, split, parts⟩ := wellFormed.contiguous.parts
    (fun fl => (state.view fl).owner) _ _ _ foreign
  refine ⟨own, back, split, ?_, ?_, ?_, ?_, ?_⟩
  · exact fun empty => map_eq_nil_iff.mp (parts.back_nil (by rw [empty]; rfl))
  · rw [← split, takeWhile_append_dropWhile]
  · exact fun fl member => parts.front_ne _ (mem_map_of_mem member)
  · exact fun fl member => parts.group_eq _ (mem_map_of_mem member)
  · exact fun fl member => parts.back_ne _ (mem_map_of_mem member)

section Apply

variable {state : LockState Owner} {request newFl newFl2 : Nat} {owner : Owner} {type : LockType}
  {first last : Int}

theorem applyLock_replaced (wellFormed : WellFormed state)
    (applicable : Applicable state request newFl newFl2 owner type first last) :
    ∃ front own back segment, Replaced state (applyLock state request newFl newFl2) owner type
      first last front own back segment := by
  obtain ⟨own, back, split, back_nil, segments⟩ := wellFormed.segments request
  have requester : (state.view request).owner = owner := by rw [applicable.wanted]
  rw [requester] at segments
  generalize skipped : state.iFlock.takeWhile (isForeign state request) = front at segments
  have spare := applicable.spare
  have nodup := wellFormed.nodup
  have member : ∀ fl, fl ∈ state.iFlock ↔ fl ∈ front ∨ fl ∈ own ∨ fl ∈ back := by
    intro fl
    rw [segments.list]
    simp
  rw [segments.list] at nodup
  have ready : Ready state request owner type first last own back := by
    refine ⟨applicable.wanted, applicable.lower, applicable.range, applicable.upper,
      segments.own_eq, ?_, ?_, ?_, ?_, ?_, ?_, ?_, ?_⟩
    · exact fun fl inside => wellFormed.posix fl ((member fl).mpr (by simp [inside]))
    · exact fun fl inside => wellFormed.locked fl ((member fl).mpr (by simp [inside]))
    · exact fun fl inside => wellFormed.upper fl ((member fl).mpr (by simp [inside]))
    · rw [← segments.locksOf_own]
      exact wellFormed.normal owner
    · exact (nodup_append.mp (nodup_append.mp nodup).2.1).1
    · exact fun inside => (spare.outside request ((member request).mpr (by simp [inside]))).1 rfl
    · intro fl head
      have inside := mem_of_mem_head? head
      refine ⟨segments.back_ne fl inside, ?_, ?_⟩
      · exact (spare.outside fl ((member fl).mpr (by simp [inside]))).1
      · exact fun own_ => segments.back_ne fl inside (segments.own_eq fl own_)
    · exact fun full fl inside => applicable.noWrap full fl ((member fl).mpr (by simp [inside]))
        (segments.own_eq fl inside)
  have started : ∀ fl ∈ own, 0 ≤ (state.view fl).span.first :=
    fun fl inside => wellFormed.lower fl ((member fl).mpr (by simp [inside]))
  have free : Spare request newFl newFl2 own :=
    ⟨spare.distinct, fun fl inside => spare.outside fl ((member fl).mpr (by simp [inside]))⟩
  obtain ⟨segment, settled⟩ := processLocks_assign own front ready started free
  have applied : applyLock state request newFl newFl2 =
      finishScan newFl newFl2 (processLocks state front request false none (own ++ back)) := by
    unfold applyLock
    rw [skipped, split]
  rw [← applied] at settled
  -- the rest of the list is not in the pool
  have apart : ∀ fl ∈ front ++ back, fl ∉ own ++ [request, newFl, newFl2] := by
    intro fl inside
    have listed : fl ∈ state.iFlock ∧ (state.view fl).owner ≠ owner := by
      rw [member]
      rcases mem_append.mp inside with inside | inside
      · exact ⟨.inl inside, segments.front_ne fl inside⟩
      · exact ⟨.inr (.inr inside), segments.back_ne fl inside⟩
    have foreign : fl ∉ own := fun own_ => listed.2 (segments.own_eq fl own_)
    have new := spare.outside fl listed.1
    simp [foreign, new]
  have outside : ∀ fl ∈ front ++ back,
      (applyLock state request newFl newFl2).view fl = state.view fl := by
    intro fl inside
    rw [settled.frame fl (apart fl inside), if_neg (by simp)]
  refine ⟨front, own, back, segment, segments, ⟨settled.list, ?_, settled.placed.owners, ?_⟩,
    settled.placed.posix, ?_, outside, settled.spans, back_nil⟩
  · intro fl inside
    rw [outside fl (by simp [inside])]
    exact segments.front_ne fl inside
  · intro fl inside
    rw [outside fl (by simp [inside])]
    exact segments.back_ne fl inside
  · refine (perm_append_comm_assoc front segment back).nodup_iff.mpr
      (nodup_append.mpr ⟨settled.placed.nodup, ?_, ?_⟩)
    · exact nodup.sublist ((sublist_append_right own back).append_left front)
    · intro fl within other inside equal
      exact apart other inside (settled.placed.inside other (equal ▸ within))

variable {after : LockState Owner} {front own back segment : List Nat}

section

variable (replaced : Replaced state after owner type first last front own back segment)

include replaced

theorem Replaced.locksOf_own :
    after.locksOf owner = assign type.tag first last (state.locksOf owner) := by
  rw [replaced.new.locksOf_own, replaced.spans, replaced.old.locksOf_own]

theorem Replaced.locksOf_other (other : Owner) (different : other ≠ owner) :
    after.locksOf other = state.locksOf other := by
  have kept : (front ++ back).filter (fun fl => decide ((after.view fl).owner = other)) =
      (front ++ back).filter fun fl => decide ((state.view fl).owner = other) :=
    filter_congr fun fl member => by rw [replaced.outside fl member]
  rw [replaced.new.locksOf_other other different, replaced.old.locksOf_other other different, kept]
  exact spans_congr fun fl member => replaced.outside fl (mem_of_mem_filter member)

theorem Replaced.wellFormed (wellFormed : WellFormed state) (lower : 0 ≤ first)
    (range : first ≤ last) (upper : last ≤ offsetMax) : WellFormed after := by
  have assigned := assign_spec type.tag first last (state.locksOf owner) (wellFormed.normal owner)
    range
  rw [replaced.old.locksOf_own, ← replaced.spans] at assigned
  have each : ∀ fine : View Owner → Prop, (∀ fl ∈ state.iFlock, fine (state.view fl)) →
      (∀ fl ∈ segment, fine (after.view fl)) → ∀ fl ∈ after.iFlock, fine (after.view fl) := by
    intro fine old new fl member
    rw [replaced.new.list, mem_append, mem_append] at member
    rw [replaced.old.list] at old
    rcases member with member | member | member
    · rw [replaced.outside fl (by simp [member])]
      exact old fl (by simp [member])
    · exact new fl member
    · rw [replaced.outside fl (by simp [member])]
      exact old fl (by simp [member])
  have listed : ∀ old ∈ state.spans own, ∃ fl ∈ state.iFlock, (state.view fl).span = old := by
    intro old member
    obtain ⟨fl, inside, equal⟩ := mem_map.mp member
    exact ⟨fl, by rw [replaced.old.list]; simp [inside], equal⟩
  have spans_mem : ∀ fl ∈ segment, (after.view fl).span ∈ after.spans segment :=
    fun _ => mem_map_of_mem
  refine ⟨?_, each (·.posix = true) wellFormed.posix replaced.posix,
    each (·.span.tag ≠ .unlck) wellFormed.locked fun fl inside => ?_,
    each (0 ≤ ·.span.first) wellFormed.lower fun fl inside => ?_,
    each (·.span.last ≤ offsetMax) wellFormed.upper fun fl inside => ?_,
    replaced.owners_grouped wellFormed.contiguous, ?_⟩
  · rw [replaced.new.list]
    exact replaced.nodup
  · rcases assigned.origin _ (spans_mem fl inside) with ⟨source, from_, tag, _⟩ | ⟨tag, _⟩
    · obtain ⟨other, inList, rfl⟩ := listed source from_
      rw [tag]
      exact wellFormed.locked other inList
    · intro unlock
      rw [unlock] at tag
      cases type <;> simp [LockType.tag] at tag
  · rcases assigned.origin _ (spans_mem fl inside) with ⟨source, from_, _, start⟩ | ⟨_, start⟩
    · obtain ⟨other, inList, rfl⟩ := listed source from_
      have bound := wellFormed.lower other inList
      omega
    · omega
  · apply assigned.bounded offsetMax upper _ _ (spans_mem fl inside)
    intro source from_
    obtain ⟨other, inList, rfl⟩ := listed source from_
    exact wellFormed.upper other inList
  · intro other
    by_cases same : other = owner
    · rw [same, replaced.new.locksOf_own]
      exact assigned.normal
    · rw [replaced.locksOf_other other same]
      exact wellFormed.normal other

end

end Apply

section Calls

variable {before after : LockState Owner} {state after : LockState Owner}

theorem SameList.locksOf (same : SameList before after) (owner : Owner) :
    after.locksOf owner = before.locksOf owner := by
  have kept : before.iFlock.filter (fun fl => decide ((after.view fl).owner = owner)) =
      before.iFlock.filter fun fl => decide ((before.view fl).owner = owner) :=
    filter_congr fun fl member => by rw [same.view fl member]
  unfold LockState.locksOf
  rw [same.list, kept]
  exact spans_congr fun fl member => same.view fl (mem_of_mem_filter member)

theorem SameList.wellFormed (same : SameList before after) (wellFormed : WellFormed before) :
    WellFormed after := by
  have each : ∀ fine : View Owner → Prop, (∀ fl ∈ before.iFlock, fine (before.view fl)) →
      ∀ fl ∈ after.iFlock, fine (after.view fl) := by
    intro fine old fl member
    rw [same.list] at member
    rw [same.view fl member]
    exact old fl member
  refine ⟨?_, each (·.posix = true) wellFormed.posix, each (·.span.tag ≠ .unlck) wellFormed.locked,
    each (0 ≤ ·.span.first) wellFormed.lower, each (·.span.last ≤ offsetMax) wellFormed.upper,
    ?_, ?_⟩
  · rw [same.list]
    exact wellFormed.nodup
  · have owners : after.owners = before.owners := by
      unfold LockState.owners
      rw [same.list]
      exact map_congr_left fun fl member => by rw [same.view fl member]
    rw [owners]
    exact wellFormed.contiguous
  · intro owner
    rw [same.locksOf owner]
    exact wellFormed.normal owner

theorem posixLockFile_cases {fuel : Nat} {request : Nat} {newFl newFl2 : Option Nat} {error : Int}
    (called : posixLockFile fuel state request newFl newFl2 = some (error, after)) :
    (error = 0 ∧ (state.mem request).flAccess = false ∧ ∃ new ∈ newFl, ∃ new2 ∈ newFl2,
      after = applyLock state request new new2) ∨
    ((error ≠ 0 ∨ (state.mem request).flAccess = true) ∧ after.iFlock = state.iFlock ∧
      after.view = state.view) := by
  unfold posixLockFile at called
  split at called
  · apply Or.inr
    split at called
    · cases called
      exact ⟨.inl (by decide), rfl, rfl⟩
    split at called
    · cases called
    · cases called
      exact ⟨.inl (by decide), rfl, rfl⟩
    · cases called
      exact ⟨.inl (by decide), iFlock_locksInsertBlock _ _ _, view_locksInsertBlock _ _ _⟩
  · split at called
    · rename_i access
      cases called
      exact .inr ⟨.inr access, rfl, rfl⟩
    · rename_i access
      split at called
      · cases called
        exact .inl ⟨rfl, by simpa using access, _, rfl, _, rfl, rfl⟩
      · cases called
        exact .inr ⟨.inl (by decide), rfl, rfl⟩

/-- One call keeps the list well formed. With result 0 it overwrites the range;
a failed call and a mere conflict test leave every owner's locks alone. -/
theorem lockCall_spec {fuel : Nat} {error : Int} (wellFormed : WellFormed state)
    (valid : call.Valid state) (noWrap : call.NoWrap state)
    (called : lockCall fuel state call = some (error, after)) :
    WellFormed after ∧
      (error = 0 → call.lock.flAccess = false → Overwritten call.lock state after) ∧
      (error ≠ 0 ∨ call.lock.flAccess = true →
        ∀ owner, after.locksOf owner = state.locksOf owner) := by
  have same := valid.sameList
  have filled := same.wellFormed wellFormed
  have access : ((call.fill state).mem call.request).flAccess = call.lock.flAccess := by
    simp [Call.fill, LockState.write]
  rcases posixLockFile_cases called with ⟨rfl, apply, new, first, new2, second, rfl⟩ |
    ⟨failed, list, view⟩
  · rw [access] at apply
    obtain ⟨front, own, back, segment, replaced⟩ :=
      applyLock_replaced filled (valid.applicable noWrap first second)
    refine ⟨replaced.wellFormed filled valid.lower valid.range valid.upper, fun _ _ => ⟨?_, ?_⟩, ?_⟩
    · intro byte
      have assigned := assign_spec call.lock.flType.tag call.lock.flStart call.lock.flEnd _
        (wellFormed.normal call.lock.flOwner) valid.range
      unfold LockState.lockAt
      rw [replaced.locksOf_own, same.locksOf, assigned.maps]
    · intro owner different byte
      unfold LockState.lockAt
      rw [replaced.locksOf_other owner different, same.locksOf]
    · intro other
      simp [apply] at other
  · rw [access] at failed
    have unchanged : SameList (call.fill state) after := ⟨list, fun fl _ => congrFun view fl⟩
    refine ⟨unchanged.wellFormed filled, ?_, ?_⟩
    · intro success apply
      simp [success, apply] at failed
    · intro _ owner
      rw [unchanged.locksOf, same.locksOf]

end Calls

theorem wellFormed_of_empty (state : LockState Owner) (empty : state.iFlock = []) :
    WellFormed state := by
  have none : ∀ owner, state.locksOf owner = [] := by
    intro owner
    simp [LockState.locksOf, LockState.spans, empty]
  refine ⟨by simp [empty], by simp [empty], by simp [empty], by simp [empty], by simp [empty], ?_,
    ?_⟩
  · simp [LockState.owners, empty, Grouped]
  · intro owner
    rw [none owner]
    exact ⟨List.Pairwise.nil, by simp⟩

/-- From an empty list on, calls that never reach past the last byte keep every
owner's locks in normal form and overwrite exactly the range they ask for. -/
theorem posixLockFile_overwrites (fuel : Nat) (calls : List (Call Owner))
    (start final : LockState Owner) (empty : start.iFlock = [])
    (permitted : Along (lockStep fuel) (fun state call => call.Valid state ∧ call.NoWrap state)
      start calls)
    (executed : run (lockStep fuel) start calls = some final) :
    WellFormed final ∧ ∀ call, call.Valid final → call.NoWrap final →
      ∀ error after, lockCall fuel final call = some (error, after) →
        WellFormed after ∧
        (error = 0 → call.lock.flAccess = false → Overwritten call.lock final after) ∧
        (error ≠ 0 ∨ call.lock.flAccess = true →
          ∀ owner, after.locksOf owner = final.locksOf owner) := by
  have wellFormed : WellFormed final := by
    refine run_invariant ?_ calls start final (wellFormed_of_empty start empty) permitted executed
    intro state call next wellFormed allowed stepped
    obtain ⟨⟨error, after⟩, called, rfl⟩ := Option.map_eq_some_iff.mp stepped
    exact (lockCall_spec wellFormed allowed.1 allowed.2 called).1
  exact ⟨wellFormed, fun call valid noWrap error after called =>
    lockCall_spec wellFormed valid noWrap called⟩

def noLocks : LockState Nat := ⟨fun _ => ⟨0, .unlck, 0, 0, false, false, false, none, []⟩, [], []⟩

/-- Owner 0 locks ten bytes and unlocks three in the middle. -/
def splitCalls : List (Call Nat) :=
  [⟨0, { flOwner := 0, flType := .wrlck, flStart := 0, flEnd := 9 }, some 1, some 2⟩,
    ⟨3, { flOwner := 0, flType := .unlck, flStart := 3, flEnd := 5 }, some 4, some 5⟩]

theorem posixLockFile_overwrites_splitCalls :
    ∃ final, run (lockStep 1) noLocks splitCalls = some final ∧
      final.locksOf 0 = [⟨.wrlck, 0, 2⟩, ⟨.wrlck, 6, 9⟩] ∧ WellFormed final := by
  have permitted : Along (lockStep 1) (fun state call => call.Valid state ∧ call.NoWrap state)
      noLocks splitCalls := by
    refine ⟨⟨by constructor <;> decide, fun full => absurd full (by decide)⟩, ?_⟩
    rintro _ ⟨⟩
    refine ⟨⟨by constructor <;> decide, fun full => absurd full (by decide)⟩, ?_⟩
    exact fun _ _ => trivial
  exact ⟨_, rfl, by decide, (posixLockFile_overwrites 1 splitCalls noLocks _ rfl permitted rfl).1⟩

/-- A read lock inside a file, and one on the whole file by the same owner. -/
def wrapCalls : List (Call Nat) :=
  [⟨0, { flOwner := 0, flType := .rdlck, flStart := 10, flEnd := 20 }, some 1, some 2⟩,
    ⟨3, { flOwner := 0, flType := .rdlck, flStart := 0, flEnd := offsetMax }, some 4, some 5⟩]

/-- `fl_end + 1` wraps, so the second lock is put in front of the first one
although the two overlap and have the same type. -/
theorem wrapCalls_overlap :
    Along (lockStep 1) (fun state call => call.Valid state ∧
      (lockCall 1 state call).map Prod.fst = some 0) noLocks wrapCalls ∧
    ∃ final, run (lockStep 1) noLocks wrapCalls = some final ∧
      final.locksOf 0 = [⟨.rdlck, 0, offsetMax⟩, ⟨.rdlck, 10, 20⟩] ∧
      ¬ WellFormed final := by
  constructor
  · refine ⟨⟨by constructor <;> decide, rfl⟩, ?_⟩
    rintro _ ⟨⟩
    refine ⟨⟨by constructor <;> decide, rfl⟩, ?_⟩
    exact fun _ _ => trivial
  · refine ⟨_, rfl, by decide, ?_⟩
    intro wellFormed
    have before := (pairwise_cons.mp (wellFormed.normal 0).ordered).1 ⟨.rdlck, 10, 20⟩
      (by decide)
    exact absurd before.1 (by decide)

end MagxKernel.FileLocks
