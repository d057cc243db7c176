import Mathlib.Algebra.BigOperators.Ring.Finset
import MagxKernel.Lib.Runs
import MagxKernel.PageAlloc.Invariant

namespace MagxKernel.PageAlloc

open BuddyBlocks List

section Fields

variable (zone : Zone) (order index page other : Nat)

@[simp] theorem listDel_freeList :
    ((zone.listDel page).freeArea other).freeList = (zone.freeArea other).freeList.erase page := rfl

@[simp] theorem listDel_map :
    ((zone.listDel page).freeArea other).map = (zone.freeArea other).map := rfl

@[simp] theorem changeBit_freeList :
    ((zone.changeBit order index).freeArea other).freeList = (zone.freeArea other).freeList := by
  by_cases same : other = order
  · subst same
    simp [Zone.changeBit, Zone.setArea]
  · simp [Zone.changeBit, Zone.setArea, same]

@[simp] theorem listAdd_map :
    ((zone.listAdd order page).freeArea other).map = (zone.freeArea other).map := by
  by_cases same : other = order
  · subst same
    simp [Zone.listAdd, Zone.setArea]
  · simp [Zone.listAdd, Zone.setArea, same]

theorem listAdd_freeList :
    ((zone.listAdd order page).freeArea other).freeList =
      if other = order then page :: (zone.freeArea other).freeList
      else (zone.freeArea other).freeList := by
  by_cases same : other = order
  · subst same
    simp [Zone.listAdd, Zone.setArea]
  · simp [Zone.listAdd, Zone.setArea, same]

theorem changeBit_map (bit : Nat) :
    ((zone.changeBit order index).freeArea other).map bit =
      if other = order ∧ bit = index then !(zone.freeArea other).map bit
      else (zone.freeArea other).map bit := by
  by_cases same : other = order
  · subst same
    by_cases here : bit = index
    · subst here
      simp [Zone.changeBit, Zone.setArea]
    · simp [Zone.changeBit, Zone.setArea, here]
  · simp [Zone.changeBit, Zone.setArea, same]

end Fields

variable {maxOrder : Nat} {zone : Zone} {held : List Block}

/-- Flipping the pair bit of a block, then moving it between lists. -/
theorem toggled_of_changeBit {new : Zone} (target : Block)
    (span : new.spannedPages = zone.spannedPages)
    (maps : ∀ order, (new.freeArea order).map =
      ((zone.changeBit target.order target.pair).freeArea order).map) :
    Toggled maxOrder zone new target := by
  refine ⟨span, ?_, ?_⟩
  · intro _
    simp [Zone.pairBit, maps, changeBit_map]
  · intro block _ different
    simp only [Zone.pairBit, maps, changeBit_map]
    rw [if_neg (by tauto)]

theorem toggled_of_top {new : Zone} (target : Block) (top : maxOrder ≤ target.order + 1)
    (span : new.spannedPages = zone.spannedPages)
    (maps : ∀ order, (new.freeArea order).map = (zone.freeArea order).map) :
    Toggled maxOrder zone new target := by
  refine ⟨span, fun below => by omega, ?_⟩
  intro block _ _
  simp only [Zone.pairBit, maps]

section

variable (order page : Nat) (inside : order < maxOrder) (new : Zone)
  (lists : ∀ other, (new.freeArea other).freeList =
    ((zone.listAdd order page).freeArea other).freeList)

include order page inside new lists

theorem free_listAdd (block : Block) :
    new.Free maxOrder block ↔ zone.Free maxOrder block ∨ block = ⟨page, order⟩ := by
  obtain ⟨start, blockOrder⟩ := block
  simp only [Zone.Free, lists, listAdd_freeList, Block.mk.injEq]
  by_cases same : blockOrder = order
  · subst same
    simp only [↓reduceIte, mem_cons, inside, true_and, and_true]
    exact or_comm
  · simp [same]

theorem listedPages_listAdd : new.listedPages maxOrder = zone.listedPages maxOrder + 2 ^ order := by
  have each : ∀ other, (new.freeArea other).freeList.length * 2 ^ other =
      (zone.freeArea other).freeList.length * 2 ^ other +
        if other = order then 2 ^ order else 0 := by
    intro other
    rw [lists, listAdd_freeList]
    by_cases same : other = order
    · subst same
      simp [Nat.succ_mul]
    · simp [same]
  simp [Zone.listedPages, each, Finset.sum_add_distrib, inside]

end

section

variable (shape : Shape maxOrder zone held)

include shape

theorem Shape.free_unique {first second : Block} (left : zone.Free maxOrder first)
    (right : zone.Free maxOrder second) (same : first.start = second.start) : first = second := by
  by_contra different
  exact not_apart_of_start_eq same (shape.freeApart first second left right different)

section

variable {target : Block} (listed : zone.Free maxOrder target) (new : Zone)
  (lists : ∀ other, (new.freeArea other).freeList =
    ((zone.listDel target.start).freeArea other).freeList)

include listed new lists

theorem Shape.free_listDel (block : Block) :
    new.Free maxOrder block ↔ zone.Free maxOrder block ∧ block ≠ target := by
  simp only [Zone.Free, lists, listDel_freeList]
  constructor
  · rintro ⟨inside, member⟩
    rw [(shape.nodup block.order inside).mem_erase_iff] at member
    refine ⟨⟨inside, member.2⟩, ?_⟩
    rintro rfl
    exact member.1 rfl
  · rintro ⟨free, different⟩
    refine ⟨free.1, ((shape.nodup block.order free.1).mem_erase_iff).mpr ⟨?_, free.2⟩⟩
    intro same
    exact different (shape.free_unique free listed same)

theorem Shape.listedPages_listDel :
    new.listedPages maxOrder + 2 ^ target.order = zone.listedPages maxOrder := by
  have each : ∀ other ∈ Finset.range maxOrder, (zone.freeArea other).freeList.length * 2 ^ other =
      (new.freeArea other).freeList.length * 2 ^ other +
        if other = target.order then 2 ^ target.order else 0 := by
    intro other inside
    rw [lists, listDel_freeList]
    by_cases same : other = target.order
    · subst same
      have positive := length_pos_of_mem listed.2
      rw [length_erase_of_mem listed.2, if_pos rfl, ← Nat.succ_mul, Nat.succ_eq_add_one,
        Nat.sub_add_cancel positive]
    · have absent : target.start ∉ (zone.freeArea other).freeList := by
        intro member
        have free : zone.Free maxOrder ⟨target.start, other⟩ := ⟨Finset.mem_range.mp inside, member⟩
        exact same (congrArg Block.order (shape.free_unique free listed rfl))
      rw [erase_of_not_mem absent, if_neg same, Nat.add_zero]
  rw [Zone.listedPages, Zone.listedPages, Finset.sum_congr rfl each, Finset.sum_add_distrib,
    Finset.sum_ite_eq', if_pos (Finset.mem_range.mpr listed.1)]

end

theorem Shape.nodup_listDel (page : Nat) (new : Zone)
    (lists : ∀ other, (new.freeArea other).freeList =
      ((zone.listDel page).freeArea other).freeList) (order : Nat) (inside : order < maxOrder) :
    (new.freeArea order).freeList.Nodup := by
  rw [lists, listDel_freeList]
  exact (shape.nodup order inside).erase page

end

theorem Shape.nodup_listAdd {page order : Nat}
    (shape : Shape maxOrder zone (⟨page, order⟩ :: held)) (new : Zone)
    (lists : ∀ other, (new.freeArea other).freeList =
      ((zone.listAdd order page).freeArea other).freeList) (other : Nat)
        (inside : other < maxOrder) :
    (new.freeArea other).freeList.Nodup := by
  rw [lists, listAdd_freeList]
  split
  · rename_i same
    subst same
    refine nodup_cons.mpr ⟨?_, shape.nodup other inside⟩
    intro member
    exact shape.not_free_of_held ⟨inside, member⟩
  · exact shape.nodup other inside

/-- What the two operations leave alone besides the lists. -/
structure SameFrame (old new : Zone) : Prop where
  span : new.spannedPages = old.spannedPages
  counter : new.freePages = old.freePages

theorem inside_range {block : Block}
    (bounded : block.stop ≤ zone.spannedPages) : zone.badRange block.start = false := by
  have nonempty := stop_gt_start block
  simp only [Zone.badRange, decide_eq_false_iff_not]
  omega

/-- Coalescing returns the block held by the loop to the lists and never trips
an assertion; the pages it unlinks are those it adds at the higher order. -/
theorem freePagesLoop_shape (levels order pageIdx : Nat) (zone : Zone)
    (room : order + levels + 1 = maxOrder)
    (shape : Shape maxOrder zone (⟨pageIdx, order⟩ :: held)) :
    ∃ final, freePagesLoop levels order pageIdx (pageIdx >>> (1 + order)) zone = some final ∧
      Shape maxOrder final held ∧ SameFrame zone final ∧
      final.listedPages maxOrder = zone.listedPages maxOrder + 2 ^ order := by
  induction levels generalizing order pageIdx zone with
  | zero =>
    refine ⟨_, rfl, ?_, ⟨rfl, rfl⟩, listedPages_listAdd order pageIdx (by omega) _ fun _ => rfl⟩
    exact shape.give (toggled_of_top ⟨pageIdx, order⟩ (by simp only; omega) rfl (by simp))
      (fun below => by simp only at below; omega)
      (free_listAdd order pageIdx (by omega) _ fun _ => rfl)
      (shape.nodup_listAdd _ fun _ => rfl)
  | succ levels ih =>
    obtain ⟨inside, aligned, bounded⟩ := shape.heldAligned ⟨pageIdx, order⟩ (by simp)
    have below : order + 1 < maxOrder := by omega
    by_cases bit : (zone.freeArea order).map (pageIdx >>> (1 + order)) = true
    · -- the bit says that exactly one of the pair is listed, and this one is held
      have buddyFree : zone.Free maxOrder (Block.buddy ⟨pageIdx, order⟩) := by
        rcases (shape.bits ⟨pageIdx, order⟩ aligned below).mp bit with ⟨listed, _⟩ | ⟨listed, _⟩
        · exact absurd listed shape.not_free_of_held
        · exact listed
      have toggled : Toggled maxOrder zone
          ((zone.changeBit order (Block.pair ⟨pageIdx, order⟩)).listDel
            (Block.buddy ⟨pageIdx, order⟩).start) (Block.buddy ⟨pageIdx, order⟩) :=
        toggled_of_changeBit (Block.buddy ⟨pageIdx, order⟩) rfl (by simp)
      have taken := shape.take toggled buddyFree (shape.free_listDel buddyFree _ (by simp))
        (shape.nodup_listDel (Block.buddy ⟨pageIdx, order⟩).start _ (by simp))
      obtain ⟨final, executed, restored, frame, pages⟩ := ih (order + 1)
        (pageIdx >>> (order + 1) <<< (order + 1)) _ (by omega) (taken.merge below)
      refine ⟨final, ?_, restored, { frame with }, ?_⟩
      · have first := inside_range (shape.aligned _ buddyFree).2
        have second := inside_range bounded
        have index := parent_pair ⟨pageIdx, order⟩
        simp only [freePagesLoop, bit, ↓reduceIte]
        rw [if_neg (by
          rw [Bool.not_eq_true, Bool.or_eq_false_iff]
          exact ⟨first, second⟩), ← executed]
        exact congrArg (freePagesLoop levels (order + 1) _ · _) index.symm
      · have unlinked := shape.listedPages_listDel buddyFree
          ((zone.changeBit order (Block.pair ⟨pageIdx, order⟩)).listDel
            (Block.buddy ⟨pageIdx, order⟩).start) (by simp)
        rw [buddy_order] at unlinked
        dsimp only at unlinked
        omega
    · refine ⟨(zone.changeBit order (pageIdx >>> (1 + order))).listAdd order pageIdx,
        if_neg bit, ?_, ⟨rfl, rfl⟩,
        listedPages_listAdd order pageIdx inside _ (by simp [listAdd_freeList])⟩
      exact shape.give
        (toggled_of_changeBit ⟨pageIdx, order⟩ rfl (by simp [Block.pair]))
        (fun _ => by simpa [Zone.pairBit, Block.pair] using bit)
        (free_listAdd order pageIdx inside _ (by simp [listAdd_freeList]))
        (shape.nodup_listAdd _ (by simp [listAdd_freeList]))

theorem expand_shape (page low high : Nat) (zone : Zone) (ordered : low ≤ high)
    (shape : Shape maxOrder zone (⟨page, high⟩ :: held)) :
    ∃ final, expand page low high zone = some final ∧
      Shape maxOrder final (⟨page, low⟩ :: held) ∧ SameFrame zone final ∧
      final.listedPages maxOrder + 2 ^ low = zone.listedPages maxOrder + 2 ^ high := by
  induction high generalizing zone with
  | zero =>
    obtain rfl : low = 0 := by omega
    exact ⟨zone, rfl, shape, ⟨rfl, rfl⟩, rfl⟩
  | succ high ih =>
    by_cases more : low < high + 1
    · have halves := shape.split
      obtain ⟨inside, aligned, bounded⟩ := halves.heldAligned ⟨page + 2 ^ high, high⟩ (by simp)
      have wholeInside := (shape.heldAligned ⟨page, high + 1⟩ (by simp)).1
      have unlisted := halves.not_free_of_held
      -- neither half is listed before the split, so the pair bit is clear
      have alone : zone.pairBit ⟨page + 2 ^ high, high⟩ = false := by
        obtain ⟨_, buddy⟩ := lower_half_start (shape.heldAligned ⟨page, high + 1⟩ (by simp)).2.1
        have buddyUnlisted : ¬ zone.Free maxOrder (Block.buddy ⟨page + 2 ^ high, high⟩) := by
          rw [← buddy, buddy_buddy]
          intro listed
          exact not_apart_of_start_eq rfl (halves.heldApart _ listed ⟨page, high⟩ (by simp))
        rw [← Bool.not_eq_true, halves.bits _ aligned wholeInside]
        unfold Xor
        tauto
      have toggled : Toggled maxOrder zone
          ((zone.listAdd high (page + 2 ^ high)).markUsed (page + 2 ^ high) high)
          ⟨page + 2 ^ high, high⟩ :=
        toggled_of_changeBit ⟨page + 2 ^ high, high⟩ rfl
          (by simp [Zone.markUsed, funext_iff, changeBit_map, Block.pair])
      have given := halves.give toggled (fun _ => alone)
        (free_listAdd high (page + 2 ^ high) inside _ (by simp [Zone.markUsed]))
        (halves.nodup_listAdd _ (by simp [Zone.markUsed]))
      obtain ⟨final, executed, result, frame, pages⟩ := ih _ (by omega) given
      refine ⟨final, ?_, result, { frame with }, ?_⟩
      · have range := inside_range bounded
        simp only [expand, more, ↓reduceIte]
        rw [if_neg (by simpa using range)]
        exact executed
      · have added := @listedPages_listAdd maxOrder zone high (page + 2 ^ high) inside
          ((zone.listAdd high (page + 2 ^ high)).markUsed (page + 2 ^ high) high)
          (by simp [Zone.markUsed])
        omega
    · obtain rfl : low = high + 1 := by omega
      exact ⟨zone, if_neg more, shape, ⟨rfl, rfl⟩, rfl⟩

/-- The allocator's invariant: the lists, the pair bits and the counter. -/
structure Inv (maxOrder : Nat) (state : State) : Prop where
  shape : Shape maxOrder state.zone state.allocated
  pages : state.zone.freePages = state.zone.listedPages maxOrder

theorem shape_counter (shape : Shape maxOrder zone held) (pages : Nat) :
    Shape maxOrder { zone with freePages := pages } held :=
  { shape with }

theorem shape_perm {other : List Block} (shape : Shape maxOrder zone held)
    (perm : held.Perm other) : Shape maxOrder zone other := by
  refine { shape with heldApart := ?_, heldAligned := ?_, heldPairwise := ?_ }
  · intro first listed second member
    exact shape.heldApart first listed second (perm.mem_iff.mpr member)
  · intro block member
    exact shape.heldAligned block (perm.mem_iff.mpr member)
  · exact shape.heldPairwise.perm perm fun apart => apart.symm

variable (state : State)

theorem freePagesBulk_inv (block : Block) (inv : Inv maxOrder state)
    (holds : block ∈ state.allocated) :
    ∃ next, step maxOrder state (.free block) = some next ∧ Inv maxOrder next := by
  obtain ⟨inside, aligned, _⟩ := inv.shape.heldAligned block holds
  have held := shape_counter (shape_perm inv.shape (perm_cons_erase holds))
    (state.zone.freePages + 2 ^ block.order)
  obtain ⟨final, executed, shape, frame, pages⟩ :=
    freePagesLoop_shape (maxOrder - 1 - block.order) block.order block.start _ (by omega) held
  refine ⟨⟨final, state.allocated.erase block⟩, ?_, shape, ?_⟩
  · have divides : block.start % 2 ^ block.order = 0 := Nat.mod_eq_zero_of_dvd aligned
    simp [step, freePagesBulk, divides, executed]
  · have same : Zone.listedPages maxOrder
        { state.zone with freePages := state.zone.freePages + 2 ^ block.order } =
        state.zone.listedPages maxOrder := rfl
    rw [frame.counter, pages, same, ← inv.pages]

theorem rmqueueScan_inv (order levels currentOrder : Nat) (state : State)
    (inv : Inv maxOrder state) (room : currentOrder + levels = maxOrder)
    (ordered : order ≤ currentOrder) :
    ∃ zone page, rmqueueScan maxOrder order levels currentOrder state.zone = some (zone, page) ∧
      Inv maxOrder ⟨zone, (page.map (⟨·, order⟩ : Nat → Block)).toList ++ state.allocated⟩ := by
  induction levels generalizing currentOrder with
  | zero => exact ⟨state.zone, none, rfl, inv⟩
  | succ levels ih =>
    cases list : (state.zone.freeArea currentOrder).freeList with
    | nil =>
      obtain ⟨zone, page, executed, result⟩ := ih (currentOrder + 1) (by omega) (by omega)
      exact ⟨zone, page, by simpa only [rmqueueScan, list] using executed, result⟩
    | cons page rest =>
      have listed : state.zone.Free maxOrder ⟨page, currentOrder⟩ :=
        ⟨by simp only; omega, by simp [list]⟩
      let marked := if currentOrder ≠ maxOrder - 1 then
        (state.zone.listDel page).markUsed page currentOrder else state.zone.listDel page
      have lists : ∀ other, (marked.freeArea other).freeList =
          ((state.zone.listDel page).freeArea other).freeList := by
        intro other
        simp only [marked]
        split
        · simp [Zone.markUsed]
        · rfl
      have frame : SameFrame state.zone marked := by
        simp only [marked]
        split <;> exact ⟨rfl, rfl⟩
      have toggled : Toggled maxOrder state.zone marked ⟨page, currentOrder⟩ := by
        by_cases top : currentOrder = maxOrder - 1
        · apply toggled_of_top _ (by simp only; omega) frame.span
          simp [marked, top]
        · apply toggled_of_changeBit _ frame.span
          simp [marked, top, Zone.markUsed, funext_iff, changeBit_map, Block.pair]
      have taken := inv.shape.take toggled listed (inv.shape.free_listDel listed _ lists)
        (inv.shape.nodup_listDel page _ lists)
      have unlinked := inv.shape.listedPages_listDel listed _ lists
      obtain ⟨final, executed, shape, finalFrame, pages⟩ :=
        expand_shape page order currentOrder _ ordered
          (shape_counter taken (marked.freePages - 2 ^ order))
      refine ⟨final, some page, ?_, shape, ?_⟩
      · simp only [rmqueueScan, list]
        exact congrArg (Option.map (·, some page)) executed
      · have counter : final.freePages = state.zone.freePages - 2 ^ order := by
          rw [finalFrame.counter, ← frame.counter]
        have same : Zone.listedPages maxOrder
            { marked with freePages := marked.freePages - 2 ^ order } =
            marked.listedPages maxOrder := rfl
        have total := inv.pages
        dsimp only at unlinked ⊢
        omega

theorem step_inv (op : Op) (inv : Inv maxOrder state) (allowed : Allowed maxOrder state op) :
    ∃ next, step maxOrder state op = some next ∧ Inv maxOrder next := by
  cases op with
  | free block => exact freePagesBulk_inv state block inv allowed
  | alloc order =>
    have inside : order < maxOrder := allowed
    obtain ⟨zone, page, executed, result⟩ :=
      rmqueueScan_inv order (maxOrder - order) order state inv (by omega) (Nat.le_refl order)
    cases page with
    | none =>
      exact ⟨⟨zone, state.allocated⟩, by simp only [step, rmqueue, executed, Option.map_some],
        result⟩
    | some page =>
      exact ⟨⟨zone, ⟨page, order⟩ :: state.allocated⟩,
        by simp only [step, rmqueue, executed, Option.map_some], result⟩

theorem boot_inv (boot : Boot maxOrder state) : Inv maxOrder state := by
  have none : ∀ block, ¬ state.zone.Free maxOrder block := by
    intro block free
    simp [Zone.Free, boot.empty] at free
  refine ⟨⟨?_, ?_, ?_, ?_, boot.held, boot.apart, ?_, ?_⟩, ?_⟩
  · exact fun block free => absurd free (none block)
  · intro order _
    rw [boot.empty]
    exact nodup_nil
  · exact fun first _ free => absurd free (none first)
  · exact fun first free => absurd free (none first)
  · intro block _ _
    simp [Zone.pairBit, boot.clear, Xor, none]
  · exact fun block _ both => none block both.1
  · simp [boot.noPages, Zone.listedPages, boot.empty]

/-- From boot, every run of releases of held blocks and of allocations executes
without tripping an assertion and ends in a state that keeps the buddy
representation, for every number of orders and every zone size. -/
theorem buddy_run_inv (maxOrder : Nat) (ops : List Op) (start : State)
    (boot : Boot maxOrder start)
    (allowed : Runs.Along (step maxOrder) (Allowed maxOrder) start ops) :
    ∃ final, Runs.run (step maxOrder) start ops = some final ∧ Inv maxOrder final :=
  Runs.run_total step_inv ops start (boot_inv start boot) allowed

/-- Six pages held as four blocks: not a multiple of the largest block. -/
def sixPages : State where
  zone := ⟨6, 0, fun _ => ⟨[], fun _ => false⟩⟩
  allocated := [⟨0, 1⟩, ⟨2, 0⟩, ⟨3, 0⟩, ⟨4, 1⟩]

theorem sixPages_boot : Boot 11 sixPages where
  noPages := rfl
  empty := fun _ => rfl
  clear := fun _ _ => rfl
  held := by
    simp [sixPages, Block.Aligned, Block.stop]
  apart := by
    simp [sixPages, Block.Apart, Block.stop]

theorem buddy_run_inv_sixPages :
    ∃ final, Runs.run (step 11) sixPages
      [.free ⟨0, 1⟩, .free ⟨2, 0⟩, .free ⟨3, 0⟩, .alloc 0] = some final ∧ Inv 11 final := by
  refine buddy_run_inv 11 _ sixPages sixPages_boot ⟨by simp [Allowed, sixPages], ?_⟩
  rintro _ ⟨⟩
  refine ⟨by simp [Allowed, sixPages], ?_⟩
  rintro _ ⟨⟩
  refine ⟨by simp [Allowed, sixPages], ?_⟩
  rintro _ ⟨⟩
  exact ⟨by simp [Allowed], fun _ _ => trivial⟩

end MagxKernel.PageAlloc
