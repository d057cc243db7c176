import MagxKernel.Resources.Operations

namespace MagxKernel.Resources

open Runs WaitsFor List
open Relation (ReflTransGen)

/-- The tree below a root: ranges that are not empty, children inside their parent,
sorted and disjoint, and named by the right parent. -/
structure WellFormed (state : State) (root : Nat) : Prop where
  valid : ∀ res, ReflTransGen state.ChildOf root res → (state.mem res).start ≤ (state.mem res).stop
  inside : ∀ res, ReflTransGen state.ChildOf root res → ∀ kid ∈ (state.mem res).children,
    (state.mem res).start ≤ (state.mem kid).start ∧ (state.mem kid).stop ≤ (state.mem res).stop
  sorted : ∀ res, ReflTransGen state.ChildOf root res →
    (state.mem res).children.Pairwise fun left right =>
    (state.mem left).start < (state.mem right).start
  disjoint : ∀ res, ReflTransGen state.ChildOf root res →
    (state.mem res).children.Pairwise fun left right =>
    (state.mem left).stop < (state.mem right).start
  parent : ∀ res, ReflTransGen state.ChildOf root res → ∀ kid ∈ (state.mem res).children,
    (state.mem kid).parent = some res

theorem Sound.wellFormed {top : Nat} {state : State} (sound : Sound top state) :
    WellFormed state top := by
  have live : ∀ res, ReflTransGen state.ChildOf top res → res ∈ state.live := by
    intro res path
    rcases path.cases_tail with same | ⟨parent, _, above, member⟩
    · exact same ▸ sound.top_live
    · exact sound.listed parent above res member
  constructor
  · intro res path
    rcases path.cases_tail with same | ⟨parent, _, above, member⟩
    · exact same ▸ sound.top_valid
    · exact (sound.tidy parent above).valid res member
  · exact fun res path => (sound.tidy res (live res path)).inside
  · intro res path
    have tidy := sound.tidy res (live res path)
    apply tidy.sorted.imp_of_mem
    intro left right member _ below
    exact UInt32.lt_of_le_of_lt (tidy.valid left member) below
  · exact fun res path => (sound.tidy res (live res path)).sorted
  · exact fun res path => (sound.tidy res (live res path)).parent

namespace Op

/-- What callers promise. The functions are given structures that exist; what is to
be added is in no list and not an ancestor of the place it is added to; what is to
be adjusted is in the list of its parent. -/
def Valid (top : Nat) (state : State) : Op → Prop
  | .declare res _ _ _ => res ≠ top ∧ state.Detached res
  | .request root new => Requestable top state root new
  | .insert parent new => Requestable top state parent new
  | .allocate root new _ => Requestable top state root new
  | .adjust res _ _ => ∃ parent ∈ state.live, (state.mem res).parent = some parent ∧
      res ∈ (state.mem parent).children
  | .release old => ∃ parent ∈ state.live, (state.mem old).parent = some parent
  | .requestRegion res parent _ _ => parent ∈ state.live ∧ ∀ new ∈ res, new ∉ state.live
  | .releaseRegion parent _ _ => parent ∈ state.live

/-- `adjust_resource` refuses the range or it is not empty and does not wrap around, and
`allocate_resource` gets a resource without children. -/
def Careful (state : State) : Op → Prop
  | .adjust res start size => adjustBusy state res start (start + size - 1) = some false →
      start ≤ start + size - 1
  | .allocate _ new _ => (state.mem new).children = []
  | _ => True

end Op

section Step

variable {top : Nat} {state : State}

theorem apart_of_childless {root new : Nat} (empty : (state.mem new).children = [])
    (distinct : root ≠ new) : ¬ReflTransGen state.ChildOf new root := by
  intro path
  rcases path.cases_head with same | ⟨kid, ⟨_, member⟩, _⟩
  · exact distinct same.symm
  · rw [empty] at member
    cases member

/-- A structure outside `live` can be filled in, and may then count as existing. -/
theorem Sound.kzalloc (sound : Sound top state) {new : Nat} (res : Resource)
    (empty : res.children = [])
    (unused : new ∉ state.live) :
    Sound top (state.write new res) ∧
      Sound top { state.write new res with live := new :: state.live } := by
  have detached : state.Detached new := fun parent live member =>
    unused (sound.listed parent live new member)
  have notTop : new ≠ top := fun same => unused (same ▸ sound.top_live)
  constructor
  · exact sound.fresh res detached empty notTop rfl sound.nodup (fun other live => live)
      fun _ => .inr
  · exact sound.fresh res detached empty notTop rfl (nodup_cons.mpr ⟨unused, sound.nodup⟩)
      (fun _ => mem_cons_of_mem _) fun _ => mem_cons.mp

theorem step_sound (op : Op) (sound : Sound top state) (valid : op.Valid top state)
    (careful : op.Careful state) : ∃ next, step state op = some next ∧ Sound top next := by
  cases op with
  | declare res start stop flags =>
    refine ⟨_, rfl, sound.fresh ⟨start, stop, flags, none, []⟩ valid.2 rfl valid.1 rfl ?_ ?_ ?_⟩
    · split
      · exact sound.nodup
      · rename_i unused
        exact nodup_cons.mpr ⟨unused, sound.nodup⟩
    · intro other live
      split
      · exact live
      · exact mem_cons_of_mem _ live
    · intro other live
      split at live
      · exact .inr live
      · exact mem_cons.mp live
  | request root new => exact ⟨_, rfl, sound.requestResource valid⟩
  | insert parent new =>
    obtain ⟨result, inserted, kept⟩ := insertResource_sound sound valid (state.live.length + 1)
      (Nat.lt_succ_of_le (State.size_le parent))
    exact ⟨result.2, by rw [step, inserted]; rfl, kept⟩
  | allocate root new wanted =>
    exact ⟨_, rfl, allocateResource_sound sound wanted valid careful⟩
  | adjust res start size =>
    obtain ⟨parent, live, child, listed⟩ := valid
    obtain ⟨result, adjusted, kept⟩ := adjustResource_sound sound child live listed careful
    exact ⟨result.2, by rw [step, adjusted]; rfl, kept⟩
  | release old =>
    obtain ⟨parent, live, child⟩ := valid
    obtain ⟨result, released, kept⟩ := releaseResource_sound sound child live
    exact ⟨result.2, by rw [step, released]; rfl, kept⟩
  | requestRegion res parent start n =>
    cases res with
    | none => exact ⟨state, rfl, sound⟩
    | some new =>
      have unused := valid.2 new rfl
      have distinct : parent ≠ new := fun same => unused (same ▸ valid.1)
      let region : Resource := ⟨start, start + n - 1, ioresourceBusy, none, []⟩
      obtain ⟨written, fresh⟩ := sound.kzalloc region rfl unused
      have filled : (state.write new region).mem new = region := Function.update_self _ _ _
      have requestable : Requestable top { state.write new region with live := new :: state.live }
          parent new := by
        constructor
        · exact fun same => unused (same ▸ sound.top_live)
        · exact mem_cons_of_mem _ valid.1
        · exact mem_cons_self
        · intro other live member
          have listed := written.listed other
          rcases mem_cons.mp live with rfl | old
          · rw [filled] at member
            cases member
          · exact unused (listed old new member)
        · exact apart_of_childless (by rw [filled]) distinct
      exact requestRegionAt_sound written fresh requestable valid.1 _
        (Nat.lt_succ_of_le (State.size_le parent))
  | releaseRegion parent start n =>
    exact releaseRegion_sound sound start n valid _ (Nat.lt_succ_of_le (State.size_le parent))

end Step

/-- A root with nothing below it. -/
def rootOnly (mem : Nat → Resource) (top : Nat) (start stop flags : UInt32) : State :=
  ⟨Function.update mem top ⟨start, stop, flags, none, []⟩, [top]⟩

theorem rootOnly_sound (mem : Nat → Resource) (top : Nat) {start stop : UInt32} (flags : UInt32)
    (valid : start ≤ stop) : Sound top (rootOnly mem top start stop flags) := by
  have alone : ∀ res ∈ (rootOnly mem top start stop flags).live,
      ((rootOnly mem top start stop flags).mem res).children = [] := by
    intro res live
    rw [mem_singleton.mp live]
    simp [rootOnly]
  constructor
  · exact nodup_singleton top
  · intro res live kid member
    rw [alone res live] at member
    cases member
  · intro res live
    rw [alone res live]
    constructor <;> simp
  · apply acyclic_of_rank fun _ => 0
    rintro res kid ⟨live, member⟩
    rw [alone res live] at member
    cases member
  · exact mem_cons_self
  · intro res live member
    rw [alone res live] at member
    cases member
  · simpa [rootOnly] using valid

/-- The tree below a root stays well formed in every run in which the calls keep
what they promise and both conditions of `Careful`; none of them fails to return. -/
theorem resourceTree_wellFormed (mem : Nat → Resource) (top : Nat) (start stop flags : UInt32)
    (ops : List Op) (valid : start ≤ stop)
    (permitted : Along step (fun state op => op.Valid top state ∧ op.Careful state)
      (rootOnly mem top start stop flags) ops) :
    ∃ final, run step (rootOnly mem top start stop flags) ops = some final ∧
      WellFormed final top := by
  obtain ⟨final, executed, sound⟩ := run_total (fun _ op sound allowed =>
    step_sound op sound allowed.1 allowed.2) ops _ (rootOnly_sound mem top flags valid) permitted
  exact ⟨final, executed, sound.wellFormed⟩

/-- A resource that can be seen not to lie above its new place: it has no children,
or the place is a root. -/
def State.Addable (state : State) (top root new : Nat) : Prop :=
  new ≠ top ∧ root ∈ state.live ∧ new ∈ state.live ∧ state.Detached new ∧ root ≠ new ∧
    ((state.mem new).children = [] ∨ state.Detached root)

theorem State.Addable.requestable {state : State} {top root new : Nat}
    (addable : state.Addable top root new) : Requestable top state root new := by
  obtain ⟨notTop, rootLive, newLive, detached, distinct, known⟩ := addable
  refine ⟨notTop, rootLive, newLive, detached, ?_⟩
  rcases known with empty | above
  · exact apart_of_childless empty distinct
  · intro path
    rcases path.cases_tail with same | ⟨parent, _, live, member⟩
    · exact distinct same
    · exact above parent live member

def Op.Plain (top : Nat) (state : State) : Op → Prop
  | .declare res _ _ _ => res ≠ top ∧ state.Detached res
  | .request root new => state.Addable top root new
  | .insert parent new => state.Addable top parent new
  | .allocate root new _ => state.Addable top root new
  | .adjust res _ _ => ∃ parent ∈ state.live, (state.mem res).parent = some parent ∧
      res ∈ (state.mem parent).children
  | .release old => ∃ parent ∈ state.live, (state.mem old).parent = some parent
  | .requestRegion res parent _ _ => parent ∈ state.live ∧ ∀ new ∈ res, new ∉ state.live
  | .releaseRegion parent _ _ => parent ∈ state.live

theorem Op.Plain.valid {top : Nat} {state : State} (op : Op) (plain : op.Plain top state) :
    op.Valid top state := by
  cases op with
  | request root new | insert parent new | allocate root new wanted => exact plain.requestable
  | _ => exact plain

instance (top : Nat) (state : State) (op : Op) : Decidable (op.Plain top state) := by
  cases op <;> unfold Op.Plain <;> (try unfold State.Addable) <;> (try unfold State.Detached) <;>
    infer_instance

instance (state : State) (op : Op) : Decidable (op.Careful state) := by
  cases op <;> unfold Op.Careful <;> infer_instance

def ports : State := rootOnly (fun _ => ⟨0, 0, 0, none, []⟩) 0 0 0xffff 0x100

/-- A window is put around a device, a region of the device is taken, another device
is placed and made larger, and then all goes away from below. -/
def windows : List Op :=
  [.declare 1 0x100 0x1ff 0x100, .request 0 1, .declare 2 0 0xfff 0x100, .insert 0 2,
    .requestRegion (some 3) 0 0x110 0x10, .declare 4 0 0 0x100,
    .allocate 0 4 ⟨0x100, 0, 0xffff, 0x100, none⟩, .adjust 4 0x1000 0x200, .release 1,
    .releaseRegion 1 0x110 0x10]

theorem resourceTree_wellFormed_windows :
    ∃ final, run step ports windows = some final ∧ WellFormed final 0 := by
  have plain : Along step (fun state op => op.Plain 0 state ∧ op.Careful state) ports windows := by
    decide +kernel
  exact resourceTree_wellFormed (fun _ => ⟨0, 0, 0, none, []⟩) 0 0 0xffff 0x100 windows (by decide)
    (plain.imp fun state op allowed => ⟨allowed.1.valid, allowed.2⟩)

/-- Size 0 makes `end` one less than `start`. -/
def emptyRange : List Op := [.declare 1 16 31 0x100, .request 0 1, .adjust 1 16 0]

/-- A bridge is released with its device and placed again: it shrinks, and the device
keeps its range. -/
def movedBridge : List Op :=
  [.declare 1 0 31 0x100, .request 0 1, .declare 2 16 31 0x100, .request 1 2, .release 1,
    .allocate 0 1 ⟨8, 0, 0xffff, 1, none⟩]

theorem ports_malformed :
    (Along step (fun state op => op.Valid 0 state) ports emptyRange ∧
      ∃ final, run step ports emptyRange = some final ∧ ¬WellFormed final 0) ∧
    Along step (fun state op => op.Valid 0 state) ports movedBridge ∧
      ∃ final, run step ports movedBridge = some final ∧ ¬WellFormed final 0 := by
  have plain : ∀ ops, Along step (fun state op => op.Plain 0 state) ports ops →
      Along step (fun state op => op.Valid 0 state) ports ops :=
    fun ops permitted => permitted.imp fun state op allowed => allowed.valid
  constructor
  · refine ⟨plain _ (by decide +kernel), _, rfl, ?_⟩
    intro wellFormed
    have valid := wellFormed.valid 1 (ReflTransGen.single ⟨by decide +kernel, by decide +kernel⟩)
    exact absurd valid (by decide +kernel)
  · refine ⟨plain _ (by decide +kernel), _, rfl, ?_⟩
    intro wellFormed
    have inside := wellFormed.inside 1
      (ReflTransGen.single ⟨by decide +kernel, by decide +kernel⟩) 2 (by decide +kernel)
    exact absurd inside (by decide +kernel)

end MagxKernel.Resources
