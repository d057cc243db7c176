import MagxKernel.Resources.Invariant
import Mathlib.Data.List.Nodup

namespace MagxKernel.Resources

open Runs WaitsFor Function List
open Relation (ReflTransGen)

variable {top : Nat} {state after : State}

section

variable (sound : Sound top state)

include sound

/-- No list gets a new child. -/
theorem Sound.fewer (nodup : after.live.Nodup)
    (kids : ∀ res ∈ after.live, ∀ kid ∈ (after.mem res).children,
      kid ∈ after.live ∧ state.ChildOf res kid)
    (tidy : ∀ res ∈ after.live, Tidy after.mem res (after.mem res).children)
    (topLive : top ∈ after.live) (range : (after.mem top).start = (state.mem top).start ∧
      (after.mem top).stop = (state.mem top).stop) : Sound top after := by
  refine ⟨nodup, fun res live kid member => (kids res live kid member).1, tidy, ?_, topLive, ?_, ?_⟩
  · apply sound.acyclic.mono
    exact fun res kid child => (kids res child.1 kid child.2).2
  · intro res live member
    obtain ⟨_, old, listed⟩ := kids res live top member
    exact sound.top_detached res old listed
  · rw [range.1, range.2]
    exact sound.top_valid

/-- A resource is set up anew, or the driver gives it another range: it has no
children, and no list holds it. -/
theorem Sound.fresh {new : Nat} (res : Resource) (detached : state.Detached new)
    (childless : res.children = []) (notTop : new ≠ top)
    (mem : after.mem = update state.mem new res) (nodup : after.live.Nodup)
    (grown : ∀ other ∈ state.live, other ∈ after.live)
    (sub : ∀ other ∈ after.live, other = new ∨ other ∈ state.live) : Sound top after := by
  have kids : ∀ other ∈ after.live, ∀ kid ∈ (after.mem other).children,
      kid ∈ after.live ∧ state.ChildOf other kid := by
    intro other live kid member
    rw [mem] at member
    by_cases here : other = new
    · rw [here, update_self, childless] at member
      cases member
    · rw [update_of_ne here] at member
      have old := (sub other live).resolve_left here
      exact ⟨grown kid (sound.listed other old kid member), old, member⟩
  have same : ∀ other, other ≠ new → after.mem other = state.mem other := by
    intro other distinct
    rw [mem, update_of_ne distinct]
  refine sound.fewer nodup kids (fun other live => ?_) (grown top sound.top_live) ?_
  · by_cases here : other = new
    · have empty : (after.mem other).children = [] := by
        rw [here, mem, update_self, childless]
      rw [empty]
      constructor <;> simp
    · have old := (sub other live).resolve_left here
      rw [same other here]
      have distinct : ∀ kid ∈ (state.mem other).children, kid ≠ new :=
        fun kid member equal => detached other old (equal ▸ member)
      apply (sound.tidy other old).of_eq
      rintro relative (rfl | member)
      · exact same relative here
      · exact same relative (distinct relative member)
  · rw [same top notTop.symm]
    exact ⟨rfl, rfl⟩

theorem Sound.remove {parent old : Nat} (parentLive : parent ∈ state.live)
    (member : old ∈ (state.mem parent).children) (nodup : after.live.Nodup)
    (sub : ∀ res ∈ after.live, res ∈ state.live)
    (kept : ∀ res ∈ state.live, res ≠ old → res ∈ after.live)
    (children : ∀ res, (after.mem res).children =
      if res = parent then (state.mem parent).children.erase old else (state.mem res).children)
    (ranges : ∀ res, (after.mem res).start = (state.mem res).start ∧
      (after.mem res).stop = (state.mem res).stop)
    (parents : ∀ res, res ≠ old → (after.mem res).parent = (state.mem res).parent) :
    Sound top after := by
  have kids : ∀ res ∈ state.live, ((after.mem res).children.Sublist (state.mem res).children) ∧
      ∀ kid ∈ (after.mem res).children, kid ≠ old := by
    intro res live
    rw [children]
    split
    · rename_i here
      rw [here]
      have distinct := (sound.tidy parent parentLive).nodup
      exact ⟨erase_sublist, fun kid remains => (distinct.mem_erase_iff.mp remains).1⟩
    · rename_i other
      apply And.intro (List.Sublist.refl _)
      intro kid listed same
      exact other (sound.one_list live parentLive (same ▸ listed) member)
  refine sound.fewer nodup (fun res live kid listed => ?_) (fun res live => ?_) ?_ (ranges top)
  · obtain ⟨fewer, distinct⟩ := kids res (sub res live)
    have old := fewer.subset listed
    exact ⟨kept kid (sound.listed res (sub res live) kid old) (distinct kid listed), sub res live,
      old⟩
  · obtain ⟨fewer, distinct⟩ := kids res (sub res live)
    apply ((sound.tidy res (sub res live)).sublist fewer).congr
    · exact fun other _ => ranges other
    · exact fun kid listed => parents kid (distinct kid listed)
  · apply kept top sound.top_live
    rintro rfl
    exact sound.top_detached parent parentLive member

theorem releaseResource_sound {old parent : Nat} (child : (state.mem old).parent = some parent)
    (parentLive : parent ∈ state.live) :
    ∃ result, releaseResource state old = some result ∧ Sound top result.2 := by
  unfold releaseResource
  rw [child]
  dsimp only
  split
  · rename_i member
    refine ⟨_, rfl, ?_⟩
    apply sound.remove parentLive member
    · exact sound.nodup
    · exact fun _ => id
    · exact fun _ live _ => live
    · simp
    · simp
    · intro res distinct
      simp [distinct]
  · exact ⟨_, rfl, sound⟩

end

section Adjust

/-- What is behind a child that is listed, and what is in front of it. -/
theorem neighbours_spec {res : Nat} {kids : List Nat} (listed : res ∈ kids) :
    ∃ before behind, kids = before ++ res :: behind ∧
      neighbours res kids = some (before.getLast?, behind.head?) := by
  induction kids with
  | nil => cases listed
  | cons first rest ih =>
    rw [neighbours.eq_def]
    dsimp only
    split
    · rename_i here
      exact ⟨[], rest, by rw [here]; rfl, rfl⟩
    rename_i here
    have later : res ∈ rest := (mem_cons.mp listed).resolve_left fun same => here same.symm
    cases rest with
    | nil => cases later
    | cons second more =>
      dsimp only
      split
      · rename_i next
        exact ⟨[first], more, by rw [next]; rfl, rfl⟩
      · rename_i next
        obtain ⟨before, behind, list, found⟩ := ih later
        refine ⟨first :: before, behind, by rw [list]; rfl, ?_⟩
        rw [found]
        cases before with
        | nil =>
          rw [nil_append, List.cons.injEq] at list
          exact absurd list.1 next
        | cons head tail => rfl

theorem Tidy.ahead {mem : Nat → Resource} {parent : Nat} {before : List Nat}
    (tidy : Tidy mem parent before) (point : UInt32)
    (beyond : ∀ last ∈ before.getLast?, (mem last).stop < point) :
    ∀ kid ∈ before, (mem kid).stop < point := by
  induction before with
  | nil => simp
  | cons first rest ih =>
    have later := ih (tidy.sublist (sublist_cons_self _ _))
    cases rest with
    | nil =>
      intro kid member
      rw [mem_singleton.mp member]
      exact beyond first rfl
    | cons second more =>
      have all := later fun last member => beyond last (by simpa using member)
      intro kid member
      rcases mem_cons.mp member with rfl | old
      · have next := (pairwise_cons.mp tidy.sorted).1 second mem_cons_self
        have valid := tidy.valid second (by simp)
        exact UInt32.lt_trans (UInt32.lt_of_lt_of_le next valid) (all second mem_cons_self)
      · exact all kid old

/-- A child gets another range that still fits between its neighbours and around
its own children. -/
theorem Sound.setRange (sound : Sound top state) {parent res : Nat} {before behind : List Nat}
    {start stop : UInt32} (parentLive : parent ∈ state.live)
    (list : (state.mem parent).children = before ++ res :: behind)
    (valid : start ≤ stop)
    (inside : (state.mem parent).start ≤ start ∧ stop ≤ (state.mem parent).stop)
    (front : ∀ kid ∈ before, (state.mem kid).stop < start)
    (back : ∀ kid ∈ behind, stop < (state.mem kid).start)
    (around : ∀ kid ∈ (state.mem res).children,
      start ≤ (state.mem kid).start ∧ (state.mem kid).stop ≤ stop) :
    Sound top (state.setRange res start stop) := by
  have listed : res ∈ (state.mem parent).children := by simp [list]
  have same : ∀ other, other ≠ res → (state.setRange res start stop).mem other = state.mem other :=
    fun other distinct => Function.update_of_ne distinct _ _
  have own : ((state.setRange res start stop).mem res).start = start ∧
      ((state.setRange res start stop).mem res).stop = stop := by
    simp [State.setRange, State.write]
  refine sound.fewer sound.nodup (fun other live kid member => ?_) (fun other live => ?_)
    sound.top_live ?_
  · rw [children_setRange] at member
    exact ⟨sound.listed other live kid member, live, member⟩
  · rw [children_setRange]
    have tidy := sound.tidy other live
    by_cases here : other = res
    · subst here
      have distinct : ∀ kid ∈ (state.mem other).children, kid ≠ other := by
        intro kid member equal
        exact sound.acyclic other (Relation.TransGen.single ⟨live, equal ▸ member⟩)
      apply tidy.move
      · intro kid member
        rw [same kid (distinct kid member)]
        exact ⟨rfl, rfl⟩
      · intro kid member
        rw [parent_setRange]
        exact tidy.parent kid member
      · rw [own.1, own.2]
        exact around
    have moved : ∀ kids, Tidy state.mem other kids → res ∉ kids →
        Tidy (state.setRange res start stop).mem other kids := by
      intro kids old absent
      apply old.of_eq
      rintro relative (rfl | member)
      · exact same relative here
      · exact same relative fun equal => absent (equal ▸ member)
    by_cases above : other = parent
    · subst above
      have nodup := tidy.nodup
      rw [list] at tidy nodup ⊢
      have absent : res ∉ before ++ behind := (nodup_cons.mp (nodup_middle.mp nodup)).1
      rw [mem_append, not_or] at absent
      have fits : Fits (state.setRange res start stop).mem other res before behind := by
        constructor
        · rw [own.1, own.2]
          exact valid
        · rw [own.1, own.2, same other here]
          exact inside
        · intro kid member
          rw [own.1, same kid fun equal => absent.1 (equal ▸ member)]
          exact front kid member
        · intro kid member
          rw [own.2, same kid fun equal => absent.2 (equal ▸ member)]
          exact back kid member
      have rest : (before ++ behind).Sublist (before ++ res :: behind) :=
        List.Sublist.append (List.Sublist.refl _) (sublist_cons_self _ _)
      apply (moved _ (tidy.sublist rest) (by simpa using absent)).insert fits
      rw [parent_setRange]
      exact tidy.parent res (by simp)
    · exact moved _ tidy fun member =>
        above (sound.one_list live parentLive member listed)
  · have distinct : top ≠ res := fun equal => sound.top_detached parent parentLive (equal ▸ listed)
    rw [same top distinct]
    exact ⟨rfl, rfl⟩

theorem adjustResource_sound (sound : Sound top state) {res parent : Nat} {start size : UInt32}
    (child : (state.mem res).parent = some parent) (parentLive : parent ∈ state.live)
    (listed : res ∈ (state.mem parent).children)
    (valid : adjustBusy state res start (start + size - 1) = some false →
      start ≤ start + size - 1) :
    ∃ result, adjustResource state res start size = some result ∧ Sound top result.2 := by
  obtain ⟨before, behind, list, found⟩ := neighbours_spec listed
  unfold adjustResource
  dsimp only
  generalize start + size - 1 = stop at valid ⊢
  generalize checked : adjustBusy state res start stop = busy at valid ⊢
  rw [adjustBusy, child, Option.bind_some, found] at checked
  split at checked
  · cases checked
    exact ⟨_, rfl, sound⟩
  rename_i inside
  split at checked
  · cases checked
    exact ⟨_, rfl, sound⟩
  rename_i around
  subst checked
  refine ⟨_, rfl, ?_⟩
  dsimp only
  split
  · exact sound
  rename_i free
  obtain ⟨next, previous⟩ := Bool.or_eq_false_iff.mp (Bool.not_eq_true _ ▸ free)
  have tidy := sound.tidy parent parentLive
  rw [list] at tidy
  refine sound.setRange parentLive list (valid ?_) ?_ ?_ ?_ ?_
  · rw [Option.map_some, next, previous]
    rfl
  · simpa [UInt32.not_lt] using inside
  · apply (tidy.sublist (sublist_append_left _ _)).ahead
    intro last member
    rw [member] at previous
    simpa [UInt32.not_le] using previous
  · have rest := tidy.sublist
      (List.Sublist.trans (sublist_cons_self _ _) (sublist_append_right before _))
    cases behind with
    | nil => simp
    | cons first more =>
      apply rest.behind
      simpa [UInt32.not_le] using next
  · simpa [UInt32.not_lt] using around

end Adjust

theorem allocateResource_sound (sound : Sound top state) {root new : Nat} (wanted : Constraint)
    (requestable : Requestable top state root new) (childless : (state.mem new).children = []) :
    Sound top (allocateResource state root new wanted).2 := by
  unfold allocateResource
  dsimp only
  generalize (findResource state.mem root wanted).2.1 = start
  generalize (findResource state.mem root wanted).2.2 = stop
  have moved : Sound top (state.setRange new start stop) :=
    sound.fresh { state.mem new with start := start, stop := stop } requestable.detached childless
      requestable.new_ne rfl sound.nodup (fun _ => id) fun _ => .inr
  have edges : (state.setRange new start stop).ChildOf = state.ChildOf := by
    funext res kid
    unfold State.ChildOf
    rw [children_setRange]
    rfl
  have still : Requestable top (state.setRange new start stop) root new := by
    refine { requestable with detached := ?_, apart := ?_ }
    · intro parent live member
      rw [children_setRange] at member
      exact requestable.detached parent live member
    · rw [edges]
      exact requestable.apart
  split
  · exact moved.requestResource still
  · exact moved

section Descent

variable {root new kid : Nat}

/-- How many structures lie below a resource, itself included. -/
noncomputable def State.size (state : State) (res : Nat) : Nat :=
  ahead state.ChildOf id state.live res

theorem State.size_le (res : Nat) : state.size res ≤ state.live.length := ahead_le res

theorem State.size_pos (live : root ∈ state.live) : 0 < state.size root :=
  (ahead_pos live : 0 < ahead state.ChildOf id state.live (id root))

theorem Sound.size_lt (sound : Sound top state) (live : root ∈ state.live)
    (member : kid ∈ (state.mem root).children) : state.size kid < state.size root :=
  ahead_lt sound.acyclic ⟨live, member⟩ live rfl

theorem Requestable.child (requestable : Requestable top state root new) (sound : Sound top state)
    (member : kid ∈ (state.mem root).children) : Requestable top state kid new := by
  refine { requestable with root_live := ?_, apart := ?_ }
  · exact sound.listed root requestable.root_live kid member
  · intro path
    rcases path.cases_tail with same | ⟨parent, above, live, listed⟩
    · exact requestable.detached root requestable.root_live (same ▸ member)
    · rw [sound.one_list live requestable.root_live listed member] at above
      exact requestable.apart above

theorem gather_spec {mem : Nat → Resource} {new : Resource} {kids middle behind : List Nat}
    (found : gather mem new kids = some (middle, behind)) :
    kids = middle ++ behind ∧
    (∀ kid ∈ middle, new.start ≤ (mem kid).start ∧ (mem kid).stop ≤ new.stop) ∧
    ∀ kid ∈ behind.head?, new.stop < (mem kid).start := by
  induction kids generalizing middle behind with
  | nil => cases found
  | cons next rest ih =>
    rw [gather.eq_def] at found
    dsimp only at found
    split at found
    · cases found
    rename_i covered
    have here : new.start ≤ (mem next).start ∧ (mem next).stop ≤ new.stop := by
      simpa [UInt32.not_lt] using covered
    cases rest with
    | nil =>
      cases found
      exact ⟨rfl, by simpa using here, by simp⟩
    | cons sibling more =>
      dsimp only at found
      split at found
      · rename_i beyond
        cases found
        exact ⟨rfl, by simpa using here, by simpa using beyond⟩
      · obtain ⟨⟨tailMiddle, tailBehind⟩, tail, same⟩ := Option.map_eq_some_iff.mp found
        cases same
        obtain ⟨list, inside, gap⟩ := ih tail
        refine ⟨by rw [list]; rfl, ?_, gap⟩
        exact forall_mem_cons.mpr ⟨here, inside⟩

/-- The fields that the second loop of `insert_resource` leaves alone, and the one
that it sets. -/
theorem foldl_setParent (kids : List Nat) (parent : Option Nat) (start : State) (res : Nat) :
    let done := kids.foldl (State.setParent · parent) start
    done.live = start.live ∧ (done.mem res).start = (start.mem res).start ∧
      (done.mem res).stop = (start.mem res).stop ∧
      (done.mem res).children = (start.mem res).children ∧
      (done.mem res).parent = if res ∈ kids then parent else (start.mem res).parent := by
  induction kids generalizing start with
  | nil => simp
  | cons kid kids ih =>
    obtain ⟨live, first, last, children, above⟩ := ih (start.setParent parent kid)
    refine ⟨live, by simpa using first, by simpa using last, by simpa using children, ?_⟩
    rw [foldl_cons, above, parent_setParent]
    by_cases here : res = kid <;> simp [here]

variable {before middle behind : List Nat}

structure Spliced (state : State) (root new : Nat) (before middle behind : List Nat)
    (after : State) : Prop where
  live : after.live = state.live
  range : ∀ res, (after.mem res).start = (state.mem res).start ∧
    (after.mem res).stop = (state.mem res).stop
  children : ∀ res, (after.mem res).children =
    if res = root then before ++ new :: behind else if res = new then middle
    else (state.mem res).children
  parent : ∀ res, (after.mem res).parent =
    if res ∈ middle then some new else if res = new then some root else (state.mem res).parent

theorem splice_spec (state : State) (root new : Nat) (before middle behind : List Nat) :
    Spliced state root new before middle behind (splice state root new before middle behind) := by
  have loop := fun res => foldl_setParent middle (some new)
    ((state.setParent (some root) new).setChildren new middle) res
  constructor
  · exact (loop 0).1
  · intro res
    unfold splice
    simp only [start_setChildren, stop_setChildren]
    rw [(loop res).2.1, (loop res).2.2.1]
    simp
  · intro res
    unfold splice
    rw [children_setChildren, (loop res).2.2.2.1]
    simp
  · intro res
    unfold splice
    rw [parent_setChildren, (loop res).2.2.2.2]
    simp

/-- The new resource takes the children that its range covers with it. -/
theorem Sound.splice (sound : Sound top state) (requestable : Requestable top state root new)
    (list : (state.mem root).children = before ++ (middle ++ behind))
    (fits : Fits state.mem root new before behind)
    (covered : ∀ kid ∈ middle, (state.mem new).start ≤ (state.mem kid).start ∧
      (state.mem kid).stop ≤ (state.mem new).stop)
    (spliced : Spliced state root new before middle behind after) : Sound top after := by
  have tidy := sound.tidy root requestable.root_live
  rw [list] at tidy
  have middleSub : middle.Sublist (before ++ (middle ++ behind)) :=
    List.Sublist.trans (sublist_append_left _ _) (sublist_append_right _ _)
  have middleKid : ∀ kid ∈ middle, kid ∈ (state.mem root).children :=
    fun kid member => list ▸ middleSub.subset member
  apply sound.graft requestable _ _ middle list fits spliced.live spliced.range spliced.children
    spliced.parent
  · exact fun kid member => .inl (middleKid kid member)
  · apply (tidy.sublist middleSub).move
    · exact fun kid _ => spliced.range kid
    · intro kid member
      rw [spliced.parent, if_pos member]
    · rw [(spliced.range new).1, (spliced.range new).2]
      exact covered
  · -- the new resource ranks just below the one that it was put under
    have positive : 0 < state.size root := State.size_pos requestable.root_live
    have below : ∀ res ∈ state.live, ∀ kid ∈ (state.mem res).children,
        state.size kid < state.size res ∧ kid ≠ new := fun res live kid member =>
      ⟨sound.size_lt live member, fun same => requestable.detached res live (same ▸ member)⟩
    apply acyclic_of_rank fun res =>
      if res = new then 2 * state.size root - 1 else 2 * state.size res
    rintro res kid ⟨live, member⟩
    rw [spliced.live] at live
    rw [spliced.children] at member
    split at member
    · rename_i here
      rw [here, if_neg requestable.ne]
      by_cases same : kid = new
      · rw [if_pos same]
        omega
      · have listed : kid ∈ (state.mem root).children := by
          rw [list]
          simp only [mem_append, mem_cons, same, false_or] at member ⊢
          tauto
        have less := (below root requestable.root_live kid listed).1
        rw [if_neg same]
        omega
    split at member
    · rename_i here
      obtain ⟨less, distinct⟩ := below root requestable.root_live kid (middleKid kid member)
      rw [if_pos here, if_neg distinct]
      omega
    · rename_i notNew
      obtain ⟨less, distinct⟩ := below res live kid member
      rw [if_neg notNew, if_neg distinct]
      omega

theorem split_at_first {first : Nat} {before : List Nat} (rest : List Nat)
    (absent : first ∉ before) :
    (before ++ first :: rest).takeWhile (· ≠ first) = before ∧
      (before ++ first :: rest).dropWhile (· ≠ first) = first :: rest := by
  induction before with
  | nil => simp
  | cons head tail ih =>
    rw [mem_cons, not_or] at absent
    have distinct : head ≠ first := fun same => absent.1 same.symm
    simpa [distinct] using ih absent.2

theorem insertResource_sound (sound : Sound top state)
    (requestable : Requestable top state root new)
    (fuel : Nat) (enough : state.size root < fuel) :
    ∃ result, insertResource state new fuel root = some result ∧ Sound top result.2 := by
  induction fuel generalizing root with
  | zero => exact absurd enough (Nat.not_lt_zero _)
  | succ fuel ih =>
    have spec := requestConflict_spec state root new
    have kept := sound.requestConflict requestable
    rw [insertResource]
    generalize requestConflict state root new = result at spec kept ⊢
    cases spec with
    | refused =>
      dsimp only
      rw [if_pos rfl]
      exact ⟨_, rfl, sound⟩
    | granted => exact ⟨_, rfl, kept⟩
    | conflict first before rest list fits overlaps =>
      have member : first ∈ (state.mem root).children := by simp [list]
      dsimp only
      split
      · exact ⟨_, rfl, sound⟩
      split
      · have smaller := sound.size_lt requestable.root_live member
        exact ih (requestable.child sound member) (by omega)
      · split
        · exact ⟨_, rfl, sound⟩
        · rename_i middle behind gathered
          have nodup := (sound.tidy root requestable.root_live).nodup
          have absent : first ∉ before := by
            rw [list] at nodup
            intro twice
            exact (nodup_append.mp nodup).2.2 first twice first mem_cons_self rfl
          have pieces := split_at_first rest absent
          rw [list, pieces.2] at gathered
          rw [list, pieces.1]
          obtain ⟨split, covered, gap⟩ := gather_spec gathered
          rw [split] at list
          have place : Fits state.mem root new before behind := by
            apply sound.fits requestable.root_live _ fits gap
            · exact before ++ middle
            · rw [list, append_assoc]
          exact ⟨_, rfl, sound.splice requestable list place covered
            (splice_spec state root new before middle behind)⟩

/-- `written` is the state in which the structure from `kzalloc` is filled in but
does not count as existing yet. -/
theorem requestRegionAt_sound {res : Nat} {written : State} (sound : Sound top written)
    (fresh : Sound top { written with live := res :: written.live })
    (requestable : Requestable top { written with live := res :: written.live } root res)
    (old : root ∈ written.live) (fuel : Nat) (enough : written.size root < fuel) :
    ∃ result, requestRegionAt written res fuel root = some result ∧ Sound top result := by
  induction fuel generalizing root with
  | zero => exact absurd enough (Nat.not_lt_zero _)
  | succ fuel ih =>
    have spec := requestConflict_spec written root res
    rw [requestRegionAt]
    generalize requestConflict written root res = result at spec ⊢
    cases spec with
    | refused =>
      refine ⟨written, ?_, sound⟩
      simp
    | granted before behind children fits gap =>
      exact ⟨_, rfl, fresh.link requestable children
        (fresh.fits requestable.root_live children fits gap)⟩
    | conflict tmp before rest list =>
      have member : tmp ∈ (written.mem root).children := by simp [list]
      dsimp only
      split
      · have smaller := sound.size_lt old member
        exact ih (requestable.child fresh member) (sound.listed root old tmp member) (by omega)
      · exact ⟨_, rfl, sound⟩

theorem releaseRegion_sound (sound : Sound top state) (start n : UInt32)
    (live : root ∈ state.live) (fuel : Nat) (enough : state.size root < fuel) :
    ∃ result, releaseRegion state start n fuel root = some result ∧ Sound top result := by
  induction fuel generalizing root with
  | zero => exact absurd enough (Nat.not_lt_zero _)
  | succ fuel ih =>
    rw [releaseRegion]
    split
    · exact ⟨_, rfl, sound⟩
    rename_i res found
    have member := mem_of_find?_eq_some found
    split
    · have smaller := sound.size_lt live member
      exact ih (sound.listed root live res member) (by omega)
    split
    · exact ⟨_, rfl, sound⟩
    · refine ⟨_, rfl, ?_⟩
      apply sound.remove live member
      · exact sound.nodup.erase res
      · exact fun _ => mem_of_mem_erase
      · exact fun other lives distinct => (mem_erase_of_ne distinct).mpr lives
      · simp
      · simp
      · simp

end Descent

end MagxKernel.Resources
