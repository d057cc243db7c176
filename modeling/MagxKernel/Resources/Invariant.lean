import MagxKernel.Lib.WaitsFor
import MagxKernel.Resources.Resource

namespace MagxKernel.Resources

open Runs WaitsFor Function List
open Relation (ReflTransGen)

section Writes

variable (state : State) (address other : Nat)

theorem field_write {β : Type} (field : Resource → β) (res : Resource)
    (same : field res = field (state.mem address)) :
    field ((state.write address res).mem other) = field (state.mem other) := by
  change field (update state.mem address res other) = _
  by_cases here : other = address
  · rw [here, update_self, same]
  · rw [update_of_ne here]

variable (children : List Nat)

@[simp] theorem start_setChildren :
    ((state.setChildren address children).mem other).start = (state.mem other).start :=
  field_write state address other Resource.start _ rfl

@[simp] theorem stop_setChildren :
    ((state.setChildren address children).mem other).stop = (state.mem other).stop :=
  field_write state address other Resource.stop _ rfl

@[simp] theorem parent_setChildren :
    ((state.setChildren address children).mem other).parent = (state.mem other).parent :=
  field_write state address other Resource.parent _ rfl

@[simp] theorem children_setChildren :
    ((state.setChildren address children).mem other).children =
      if other = address then children else (state.mem other).children := by
  change (update state.mem address _ other).children = _
  rw [update_apply, apply_ite Resource.children]

variable (parent : Option Nat)

@[simp] theorem start_setParent :
    ((state.setParent parent address).mem other).start = (state.mem other).start :=
  field_write state address other Resource.start _ rfl

@[simp] theorem stop_setParent :
    ((state.setParent parent address).mem other).stop = (state.mem other).stop :=
  field_write state address other Resource.stop _ rfl

@[simp] theorem children_setParent :
    ((state.setParent parent address).mem other).children = (state.mem other).children :=
  field_write state address other Resource.children _ rfl

@[simp] theorem parent_setParent :
    ((state.setParent parent address).mem other).parent =
      if other = address then parent else (state.mem other).parent := by
  change (update state.mem address _ other).parent = _
  rw [update_apply, apply_ite Resource.parent]

variable (start stop : UInt32)

@[simp] theorem parent_setRange :
    ((state.setRange address start stop).mem other).parent = (state.mem other).parent :=
  field_write state address other Resource.parent _ rfl

@[simp] theorem children_setRange :
    ((state.setRange address start stop).mem other).children = (state.mem other).children :=
  field_write state address other Resource.children _ rfl

end Writes

/-- The children of a resource name it as their parent, have ranges, and lie
inside it one behind the other. -/
structure Tidy (mem : Nat → Resource) (res : Nat) (kids : List Nat) : Prop where
  parent : ∀ kid ∈ kids, (mem kid).parent = some res
  valid : ∀ kid ∈ kids, (mem kid).start ≤ (mem kid).stop
  inside : ∀ kid ∈ kids, (mem res).start ≤ (mem kid).start ∧ (mem kid).stop ≤ (mem res).stop
  sorted : kids.Pairwise fun left right => (mem left).stop < (mem right).start

def State.ChildOf (state : State) (res kid : Nat) : Prop :=
  res ∈ state.live ∧ kid ∈ (state.mem res).children

/-- A resource that no list holds. -/
def State.Detached (state : State) (res : Nat) : Prop :=
  ∀ parent ∈ state.live, res ∉ (state.mem parent).children

/-- The invariant: `top` is the root of a tree, and all structures form a forest of
tidy lists. -/
structure Sound (top : Nat) (state : State) : Prop where
  nodup : state.live.Nodup
  listed : ∀ res ∈ state.live, ∀ kid ∈ (state.mem res).children, kid ∈ state.live
  tidy : ∀ res ∈ state.live, Tidy state.mem res (state.mem res).children
  acyclic : Acyclic state.ChildOf
  top_live : top ∈ state.live
  top_detached : state.Detached top
  top_valid : (state.mem top).start ≤ (state.mem top).stop

section Tidiness

variable {mem after : Nat → Resource} {res : Nat} {kids : List Nat}

section

variable (tidy : Tidy mem res kids)

include tidy

/-- The children go with their ranges to a resource around them. -/
theorem Tidy.move {above : Nat}
    (range : ∀ kid ∈ kids, (after kid).start = (mem kid).start ∧ (after kid).stop = (mem kid).stop)
    (parents : ∀ kid ∈ kids, (after kid).parent = some above) (inside : ∀ kid ∈ kids, (after
      above).start ≤ (mem kid).start ∧ (mem kid).stop ≤ (after above).stop) :
    Tidy after above kids := by
  refine ⟨parents, ?_, ?_, ?_⟩
  · intro kid member
    rw [(range kid member).1, (range kid member).2]
    exact tidy.valid kid member
  · intro kid member
    rw [(range kid member).1, (range kid member).2]
    exact inside kid member
  · apply tidy.sorted.imp_of_mem
    intro left right leftMember rightMember below
    rw [(range left leftMember).2, (range right rightMember).1]
    exact below

theorem Tidy.congr (range : ∀ other, other = res ∨ other ∈ kids → (after other).start = (mem
      other).start ∧ (after other).stop = (mem other).stop)
    (parents : ∀ kid ∈ kids, (after kid).parent = (mem kid).parent) : Tidy after res kids := by
  have own := range res (.inl rfl)
  apply tidy.move
  · exact fun kid member => range kid (.inr member)
  · exact fun kid member => (parents kid member).trans (tidy.parent kid member)
  · rw [own.1, own.2]
    exact tidy.inside

theorem Tidy.of_eq (same : ∀ other, other = res ∨ other ∈ kids → after other = mem other) :
    Tidy after res kids := by
  apply tidy.congr
  · intro other near
    rw [same other near]
    exact ⟨rfl, rfl⟩
  · intro kid member
    rw [same kid (.inr member)]

theorem Tidy.sublist {fewer : List Nat} (sub : fewer.Sublist kids) : Tidy mem res fewer :=
  ⟨fun kid member => tidy.parent kid (sub.subset member),
    fun kid member => tidy.valid kid (sub.subset member),
    fun kid member => tidy.inside kid (sub.subset member), tidy.sorted.sublist sub⟩

theorem Tidy.nodup : kids.Nodup := by
  apply tidy.sorted.imp_of_mem
  intro left right member _ below same
  rw [← same] at below
  exact UInt32.lt_irrefl _ (UInt32.lt_of_le_of_lt (tidy.valid left member) below)

end

/-- The range of a new child, inside its parent and between two neighbours. -/
structure Fits (mem : Nat → Resource) (root new : Nat) (before after : List Nat) : Prop where
  valid : (mem new).start ≤ (mem new).stop
  inside : (mem root).start ≤ (mem new).start ∧ (mem new).stop ≤ (mem root).stop
  before : ∀ kid ∈ before, (mem kid).stop < (mem new).start
  after : ∀ kid ∈ after, (mem new).stop < (mem kid).start

theorem Tidy.insert {new : Nat} {before behind : List Nat}
    (tidy : Tidy mem res (before ++ behind)) (fits : Fits mem res new before behind)
    (child : (mem new).parent = some res) : Tidy mem res (before ++ new :: behind) := by
  have each : ∀ {P : Nat → Prop}, P new → (∀ kid ∈ before ++ behind, P kid) →
      ∀ kid ∈ before ++ new :: behind, P kid := by
    intro P own old
    rw [forall_mem_append] at old ⊢
    exact ⟨old.1, forall_mem_cons.mpr ⟨own, old.2⟩⟩
  constructor
  · exact each child tidy.parent
  · exact each fits.valid tidy.valid
  · exact each fits.inside tidy.inside
  · obtain ⟨front, back, across⟩ := pairwise_append.mp tidy.sorted
    apply pairwise_append.mpr
    refine ⟨front, pairwise_cons.mpr ⟨fits.after, back⟩, ?_⟩
    intro left leftMember right rightMember
    rcases mem_cons.mp rightMember with rfl | old
    · exact fits.before left leftMember
    · exact across left leftMember right old

/-- What follows a child that begins behind a point begins behind it too. -/
theorem Tidy.behind {first : Nat} {rest : List Nat} (tidy : Tidy mem res (first :: rest))
    (point : UInt32) (beyond : point < (mem first).start) :
    ∀ kid ∈ first :: rest, point < (mem kid).start := by
  intro kid member
  rcases mem_cons.mp member with rfl | later
  · exact beyond
  · have below := (pairwise_cons.mp tidy.sorted).1 kid later
    have valid := tidy.valid first mem_cons_self
    exact UInt32.lt_trans (UInt32.lt_of_lt_of_le beyond valid) below

end Tidiness

section Request

variable {state : State} {top root new : Nat} {before behind : List Nat}

/-- The new resource becomes a child between its neighbours. -/
def State.link (state : State) (root new : Nat) (before behind : List Nat) : State :=
  (state.setChildren root (before ++ new :: behind)).setParent (some root) new

/-- What the loop over the children can find. -/
inductive Slot (mem : Nat → Resource) (start stop : UInt32) (kids : List Nat) :
    Except Nat (List Nat × List Nat) → Prop where
  | taken (tmp : Nat) (before rest : List Nat) (list : kids = before ++ tmp :: rest)
      (passed : ∀ kid ∈ before, (mem kid).stop < start) (overlaps : (mem tmp).start ≤ stop) :
      Slot mem start stop kids (.error tmp)
  | free (before behind : List Nat) (list : kids = before ++ behind)
      (passed : ∀ kid ∈ before, (mem kid).stop < start)
      (gap : ∀ kid ∈ behind.head?, stop < (mem kid).start) :
      Slot mem start stop kids (.ok (before, behind))

theorem findSlot_spec (mem : Nat → Resource) (start stop : UInt32) (passed kids : List Nat)
    (skipped : ∀ kid ∈ passed, (mem kid).stop < start) :
    Slot mem start stop (passed ++ kids) (findSlot mem start stop passed kids) := by
  induction kids generalizing passed with
  | nil => exact .free passed [] rfl skipped (by simp)
  | cons tmp rest ih =>
    rw [findSlot]
    split
    · rename_i beyond
      exact .free passed (tmp :: rest) rfl skipped (by simpa using beyond)
    · rename_i near
      split
      · rename_i passes
        have more : ∀ kid ∈ passed ++ [tmp], (mem kid).stop < start :=
          forall_mem_append.mpr ⟨skipped, forall_mem_singleton.mpr passes⟩
        have found := ih (passed ++ [tmp]) more
        rw [append_assoc, singleton_append] at found
        exact found
      · exact .taken tmp passed rest rfl skipped (UInt32.not_lt.mp near)

/-- What `__request_resource` can do. -/
inductive Requested (state : State) (root new : Nat) : Option Nat × State → Prop where
  | refused : Requested state root new (some root, state)
  | conflict (tmp : Nat) (before rest : List Nat)
      (children : (state.mem root).children = before ++ tmp :: rest)
      (fits : Fits state.mem root new before [])
      (overlaps : (state.mem tmp).start ≤ (state.mem new).stop) :
      Requested state root new (some tmp, state)
  | granted (before behind : List Nat) (children : (state.mem root).children = before ++ behind)
      (fits : Fits state.mem root new before [])
      (gap : ∀ kid ∈ behind.head?, (state.mem new).stop < (state.mem kid).start) :
      Requested state root new (none, state.link root new before behind)

theorem requestConflict_spec (state : State) (root new : Nat) :
    Requested state root new (requestConflict state root new) := by
  unfold requestConflict
  dsimp only
  split
  · exact .refused
  rename_i valid
  split
  · exact .refused
  rename_i lower
  split
  · exact .refused
  rename_i upper
  have fits : ∀ before, (∀ kid ∈ before, (state.mem kid).stop < (state.mem new).start) →
      Fits state.mem root new before [] := by
    intro before passed
    exact ⟨UInt32.not_lt.mp valid, ⟨UInt32.not_lt.mp lower, UInt32.not_lt.mp upper⟩,
      passed, by simp⟩
  have spec := findSlot_spec state.mem (state.mem new).start (state.mem new).stop []
    (state.mem root).children (by simp)
  generalize findSlot state.mem _ _ [] _ = found at spec ⊢
  cases spec with
  | taken tmp before rest list passed overlaps =>
    exact .conflict tmp before rest list (fits before passed) overlaps
  | free before behind list passed gap =>
    exact .granted before behind list (fits before passed) gap

/-- A detached resource may be requested unless it would come to lie below itself. -/
structure Requestable (top : Nat) (state : State) (root new : Nat) : Prop where
  new_ne : new ≠ top
  root_live : root ∈ state.live
  new_live : new ∈ state.live
  detached : state.Detached new
  apart : ¬ReflTransGen state.ChildOf new root

theorem Requestable.ne (requestable : Requestable top state root new) : root ≠ new :=
  fun same => requestable.apart (same ▸ ReflTransGen.refl)

section

variable (sound : Sound top state)

include sound

/-- A gap in front of the next child is a gap in front of all that follow. -/
theorem Sound.fits (live : root ∈ state.live) {front : List Nat}
    (children : (state.mem root).children = front ++ behind)
    (fits : Fits state.mem root new before [])
    (gap : ∀ kid ∈ behind.head?, (state.mem new).stop < (state.mem kid).start) :
    Fits state.mem root new before behind := by
  refine { fits with after := ?_ }
  have tidy := sound.tidy root live
  rw [children] at tidy
  cases behind with
  | nil => simp
  | cons first rest =>
    exact (tidy.sublist (sublist_append_right _ _)).behind _ (gap first rfl)

theorem Sound.one_list {one two kid : Nat} (oneLive : one ∈ state.live) (twoLive : two ∈ state.live)
    (inOne : kid ∈ (state.mem one).children) (inTwo : kid ∈ (state.mem two).children) :
    one = two := by
  have first := (sound.tidy one oneLive).parent kid inOne
  have second := (sound.tidy two twoLive).parent kid inTwo
  rw [first] at second
  exact Option.some.inj second

section

variable (requestable : Requestable top state root new)

include requestable

/-- The new resource becomes a child of `root`, and `middle` goes to it. -/
theorem Sound.graft (after : State) (middle inner : List Nat)
    (list : (state.mem root).children = before ++ (middle ++ behind))
    (fits : Fits state.mem root new before behind) (live : after.live = state.live)
    (range : ∀ res, (after.mem res).start = (state.mem res).start ∧
      (after.mem res).stop = (state.mem res).stop)
    (children : ∀ res, (after.mem res).children = if res = root then before ++ new :: behind
      else if res = new then inner else (state.mem res).children)
    (parent : ∀ res, (after.mem res).parent = if res ∈ middle then some new
      else if res = new then some root else (state.mem res).parent)
    (known : ∀ kid ∈ inner, kid ∈ (state.mem root).children ∨ kid ∈ (state.mem new).children)
    (tidy : Tidy after.mem new inner) (acyclic : Acyclic after.ChildOf) : Sound top after := by
  have old := sound.tidy root requestable.root_live
  have nodup := old.nodup
  have same : ∀ res ∈ state.live, ∀ kid ∈ (state.mem res).children, kid ∉ middle →
      (after.mem kid).parent = (state.mem kid).parent := by
    intro res lives kid member absent
    have distinct : kid ≠ new := fun same => requestable.detached res lives (same ▸ member)
    rw [parent, if_neg absent, if_neg distinct]
  have inMiddle : ∀ kid ∈ middle, kid ∈ (state.mem root).children := by
    intro kid member
    simp [list, member]
  -- every child but the new one was some child before
  have kids : ∀ res ∈ state.live, ∀ kid ∈ (after.mem res).children,
      kid = new ∨ ∃ other ∈ state.live, kid ∈ (state.mem other).children := by
    intro res lives kid member
    rw [children] at member
    split at member
    · by_cases isNew : kid = new
      · exact .inl isNew
      · refine .inr ⟨root, requestable.root_live, ?_⟩
        rw [list]
        simp only [mem_append, mem_cons, isNew, false_or] at member ⊢
        tauto
    split at member
    · rcases known kid member with above | own
      · exact .inr ⟨root, requestable.root_live, above⟩
      · exact .inr ⟨new, requestable.new_live, own⟩
    · exact .inr ⟨res, lives, member⟩
  rw [list] at old nodup
  refine ⟨live ▸ sound.nodup, ?_, ?_, acyclic, live ▸ sound.top_live, ?_, ?_⟩
  · rw [live]
    intro res lives kid member
    rcases kids res lives kid member with rfl | ⟨other, lives, listed⟩
    · exact requestable.new_live
    · exact sound.listed other lives kid listed
  · rw [live]
    intro res lives
    rw [children]
    split
    · rename_i here
      rw [here]
      have sub : (before ++ behind).Sublist (before ++ (middle ++ behind)) :=
        List.Sublist.append (List.Sublist.refl _) (sublist_append_right _ _)
      apply Tidy.insert
      · apply (old.sublist sub).congr (fun other _ => range other)
        intro kid member
        apply same root requestable.root_live kid (list ▸ sub.subset member)
        intro inMiddle
        simp only [nodup_append, mem_append] at nodup member
        rcases member with front | back
        · exact nodup.2.2 kid front kid (.inl inMiddle) rfl
        · exact nodup.2.1.2.2 kid inMiddle kid back rfl
      · constructor <;> simp only [range]
        · exact fits.valid
        · exact fits.inside
        · exact fits.before
        · exact fits.after
      · have absent : new ∉ middle := fun member =>
          requestable.detached root requestable.root_live (inMiddle new member)
        rw [parent, if_neg absent, if_pos rfl]
    split
    · rename_i here
      rw [here]
      exact tidy
    · rename_i notRoot _
      apply (sound.tidy res lives).congr (fun other _ => range other)
      intro kid member
      apply same res lives kid member
      intro taken
      exact notRoot (sound.one_list lives requestable.root_live member (inMiddle kid taken))
  · intro res lives member
    rw [live] at lives
    rcases kids res lives top member with isNew | ⟨other, lives, listed⟩
    · exact requestable.new_ne isNew.symm
    · exact sound.top_detached other lives listed
  · rw [(range top).1, (range top).2]
    exact sound.top_valid

theorem Sound.link (children : (state.mem root).children = before ++ behind)
    (fits : Fits state.mem root new before behind) :
    Sound top (state.link root new before behind) := by
  have kids : ∀ res, ((state.link root new before behind).mem res).children =
      if res = root then before ++ new :: behind else (state.mem res).children := by
    simp [State.link]
  apply sound.graft requestable _ [] (state.mem new).children children fits
  · rfl
  · simp [State.link]
  · intro res
    rw [kids]
    by_cases here : res = new <;> simp [here]
  · simp [State.link]
  · exact fun _ => .inr
  · apply (sound.tidy new requestable.new_live).congr
    · simp [State.link]
    · intro kid member
      have distinct : kid ≠ new :=
        fun same => requestable.detached new requestable.new_live (same ▸ member)
      simp [State.link, distinct]
  · apply sound.acyclic.insert requestable.apart
    rintro res kid ⟨live, member⟩
    rw [kids] at member
    split at member
    · rename_i here
      by_cases same : kid = new
      · exact .inr ⟨here, same⟩
      · apply Or.inl
        refine ⟨live, ?_⟩
        rw [here, children]
        simpa [same] using member
    · exact .inl ⟨live, member⟩

theorem Sound.requestConflict : Sound top (requestConflict state root new).2 := by
  have spec := requestConflict_spec state root new
  generalize Resources.requestConflict state root new = result at spec ⊢
  cases spec with
  | refused | conflict => exact sound
  | granted before behind children fits gap =>
    exact sound.link requestable children (sound.fits requestable.root_live children fits gap)

theorem Sound.requestResource : Sound top (requestResource state root new).2 := by
  have kept := sound.requestConflict requestable
  unfold Resources.requestResource
  split <;> rename_i found <;> rw [found] at kept <;> exact kept

end

end

end Request

end MagxKernel.Resources
