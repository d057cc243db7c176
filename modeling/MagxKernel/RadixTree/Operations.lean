import MagxKernel.RadixTree.Map

namespace MagxKernel.RadixTree

open Runs RadixSlots Function Option

variable {α : Type}

/-- Calls on one tree; `budget` is the number of node allocations that succeed
before the first that fails. -/
inductive Op (α : Type) where
  | insert (index : UInt32) (item : α) (budget : Nat)
  | delete (index : UInt32)
  | tagSet (index : UInt32) (tag : Tag)
  | tagClear (index : UInt32) (tag : Tag)

/-- What a call returns: an error code or a pointer. -/
inductive Reply (α : Type) where
  | code (error : Int)
  | ptr (found : Ptr α)

def call (state : State α) : Op α → Option (Reply α × State α)
  | .insert index item budget =>
      (radixTreeInsert state index.toNat item budget).map fun (error, next) => (.code error, next)
  | .delete index =>
      (radixTreeDelete state index.toNat).map fun (found, next) => (.ptr found, next)
  | .tagSet index tag =>
      (radixTreeTagSet state.root index.toNat tag).map fun (found, root) =>
        (.ptr found, { state with root := root })
  | .tagClear index tag =>
      (radixTreeTagClear state.root index.toNat tag).map fun (found, root) =>
        (.ptr found, { state with root := root })

def step (state : State α) (op : Op α) : Option (State α) := (call state op).map Prod.snd

/-- `INIT_RADIX_TREE`, with no node handed back yet. -/
def emptyTree : State α := ⟨⟨0, .null⟩, []⟩

/-- Tags are set on present items only. -/
def Allowed (state : State α) : Op α → Prop
  | .tagSet index _ => contents state.root index ≠ none
  | _ => True

/-- The height may still grow when index 0 goes into a tree without nodes. -/
def MayGrow (state : State α) : Op α → Prop
  | .insert index _ _ =>
      ¬(index = 0 ∧ state.root.rnode.isNull = true ∧ state.root.height + 1 = maxPath)
  | _ => True

instance (state : State α) : (op : Op α) → Decidable (Allowed state op)
  | .tagSet index _ => inferInstanceAs (Decidable (contents state.root index ≠ none))
  | .insert .. | .delete .. | .tagClear .. => inferInstanceAs (Decidable True)

instance (state : State α) : (op : Op α) → Decidable (MayGrow state op)
  | .insert index .. => inferInstanceAs (Decidable (¬(index = 0 ∧ _ ∧ _)))
  | .delete .. | .tagSet .. | .tagClear .. => inferInstanceAs (Decidable True)

section PartialMap

/-- The pointer for an entry of the map. -/
def itemPtr : Option α → Ptr α
  | none => .null
  | some value => .item value

/-- The calls on a partial map. -/
inductive MapStep : Op α → (UInt32 → Option α) → Reply α → (UInt32 → Option α) → Prop
  | inserted {index : UInt32} {item : α} {budget : Nat} {map : UInt32 → Option α}
      (free : map index = none) :
      MapStep (.insert index item budget) map (.code 0) (update map index (some item))
  | noMemory {index : UInt32} {item : α} {budget : Nat} {map : UInt32 → Option α}
      (free : map index = none) :
      MapStep (.insert index item budget) map (.code (-enomem)) map
  | present {index : UInt32} {item : α} {budget : Nat} {map : UInt32 → Option α}
      (taken : map index ≠ none) :
      MapStep (.insert index item budget) map (.code (-eexist)) map
  | deleted {index : UInt32} {map : UInt32 → Option α} :
      MapStep (.delete index) map (.ptr (itemPtr (map index))) (update map index none)
  | tagSet {index : UInt32} {tag : Tag} {map : UInt32 → Option α} :
      MapStep (.tagSet index tag) map (.ptr (itemPtr (map index))) map
  | tagClear {index : UInt32} {tag : Tag} {map : UInt32 → Option α} :
      MapStep (.tagClear index tag) map (.ptr (itemPtr (map index))) map

end PartialMap

variable {root : Root α}

theorem RootOk.maxindex_eq (ok : RootOk root) :
    maxindex root.height = some (maxindexOf root.height) := by
  unfold maxindex
  rw [if_pos ok.height_lt]

theorem RootOk.lookup_eq (ok : RootOk root) (index : UInt32) :
    radixTreeLookup root index.toNat = some (itemPtr (contents root index)) := by
  unfold radixTreeLookup contents
  rw [ok.maxindex_eq, bind_some]
  split
  · rw [if_neg (by omega)]
    rfl
  · rw [if_pos (by omega), lookupSlot_eq _ _ _ ok.valid]
    cases get index.toNat root.height root.rnode with
    | none | some value => rfl

variable {state : State α}

section Insert

theorem insertSlot_step {cache : List (Node (Ptr α))} (ok : RootOk root) (clean : Clean cache)
    (level : root.height ≠ 0) (index : UInt32) (item : α) (budget left : Nat)
    (held : index.toNat ≤ maxindexOf root.height) :
    ∃ outcome, insertSlot index.toNat item root.height cache left root.rnode = some outcome ∧
      StateOk ⟨{ root with rnode := outcome.ptr }, outcome.cache⟩ ∧
      MapStep (.insert index item budget) (contents root) (.code outcome.error)
        (contents { root with rnode := outcome.ptr }) := by
  obtain ⟨outcome, ran, inserted⟩ :=
    insertSlot_inserted index.toNat item root.height cache left root.rnode ok.valid clean
  have here : contents root index = get index.toNat root.height root.rnode := if_pos held
  have result := inserted.result
  refine ⟨outcome, ran, ?_⟩
  generalize outcome.error = error at result
  cases result with
  | done free items =>
    obtain ⟨ok', updated⟩ := ok.replace_one inserted.valid level held items
    rw [updated]
    exact ⟨⟨ok', inserted.clean⟩, .inserted (here.trans free)⟩
  | exists_ taken items =>
    rw [contents_same items]
    exact ⟨⟨ok.replace_same inserted.valid level items, inserted.clean⟩, .present (by rwa [here])⟩
  | nomem free items =>
    rw [contents_same items]
    exact ⟨⟨ok.replace_same inserted.valid level items, inserted.clean⟩,
      .noMemory (here.trans free)⟩

theorem contents_of_grow {index : UInt32}
    (grow : (index.toNat = 0 ∧ root.rnode.isNull = true) ∨ maxindexOf root.height < index.toNat) :
    contents root index = none := by
  rcases grow with ⟨_, null⟩ | beyond
  · obtain ⟨height, rnode⟩ := root
    cases rnode with
    | null => rw [contents_null]
    | item value | node node => cases null
  · exact if_neg (by omega)

theorem radixTreeInsert_refines (ok : StateOk state) (index : UInt32) (item : α) (budget : Nat)
    (room : MayGrow state (.insert index item budget)) :
    ∃ error next, radixTreeInsert state index.toNat item budget = some (error, next) ∧
      StateOk next ∧ MapStep (.insert index item budget) (contents state.root) (.code error)
        (contents next.root) := by
  unfold radixTreeInsert
  rw [ok.root.maxindex_eq, bind_some]
  by_cases grow : (index.toNat = 0 ∧ state.root.rnode.isNull = true) ∨
      maxindexOf state.root.height < index.toNat
  · simp only [if_pos grow]
    have low : state.root.height + 1 < maxPath := by
      have below := ok.root.height_lt
      rcases grow with ⟨zero, null⟩ | beyond
      · have not_top : state.root.height + 1 ≠ maxPath := by
          intro top
          exact room ⟨UInt32.toNat_inj.mp zero, null, top⟩
        omega
      · have not_top : state.root.height ≠ 6 := by
          intro top
          rw [top, maxindexOf_top] at beyond
          have word := index.toNat_lt
          omega
        change state.root.height < 7 at below
        change state.root.height + 1 < 7
        omega
    obtain ⟨⟨error, root, cache, left⟩, height, ran, extended, level, enough⟩ :=
      extend_extended state.root index.toNat state.cache budget ok.root ok.clean index.toNat_lt low
    rw [ran, bind_some]
    have free := contents_of_grow grow
    rcases extended.error with ⟨fine, grown⟩ | failed
    · subst fine grown
      obtain ⟨outcome, done, ok', mapped⟩ :=
        insertSlot_step extended.root extended.clean level index item budget left enough
      rw [extended.same] at mapped
      refine ⟨_, _, ?_, ok', mapped⟩
      simp [done]
    · subst failed
      refine ⟨_, _, rfl, { extended with }, ?_⟩
      rw [extended.same]
      exact .noMemory free
  · simp only [if_neg grow, bind_some]
    have held : index.toNat ≤ maxindexOf state.root.height := by
      by_contra beyond
      exact grow (.inr (by omega))
    have level : state.root.height ≠ 0 := by
      intro flat
      rw [flat] at held
      have zero : index.toNat = 0 := Nat.le_zero.mp held
      exact grow (.inl ⟨zero, by rw [ok.root.empty flat]; rfl⟩)
    obtain ⟨outcome, done, ok', mapped⟩ :=
      insertSlot_step ok.root ok.clean level index item budget budget held
    refine ⟨_, _, ?_, ok', mapped⟩
    simp [done]

/-- A tree without nodes and with the last height has no higher one to go to. -/
theorem insert_none_of_top {op : Op α} (ok : StateOk state) (stuck : ¬MayGrow state op) :
    call state op = none := by
  cases op with
  | insert index item budget =>
    obtain ⟨zero, null, top⟩ := not_not.mp stuck
    have grow : index.toNat = 0 ∧ state.root.rnode.isNull = true ∨
        maxindexOf state.root.height < index.toNat := .inl ⟨by rw [zero]; rfl, null⟩
    rw [call, radixTreeInsert, ok.root.maxindex_eq, bind_some]
    simp [if_pos grow, extend, top, growHeight]
  | delete index | tagSet index tag | tagClear index tag => exact absurd trivial stuck

end Insert

section Absent

variable {root : Root α} {index : UInt32}

theorem contents_beyond (beyond : maxindexOf root.height < index.toNat) :
    contents root index = none :=
  if_neg (by omega)

theorem contents_held (held : ¬maxindexOf root.height < index.toNat) :
    contents root index = get index.toNat root.height root.rnode :=
  if_pos (by omega)

theorem RootOk.level_of_get (ok : RootOk root) {value : α}
    (present : get index.toNat root.height root.rnode = some value) : root.height ≠ 0 := by
  intro flat
  rw [ok.empty flat, get_null] at present
  cases present

end Absent

theorem MapStep.delete_of {index : UInt32} {map map' : UInt32 → Option α} {found : Ptr α}
    (same : itemPtr (map index) = found) (updated : map' = update map index none) :
    MapStep (.delete index) map (.ptr found) map' := by
  rw [updated, ← same]
  exact .deleted

section

variable {state : State α} (ok : StateOk state) (index : UInt32)

include ok index

theorem radixTreeDelete_refines :
    ∃ found next, radixTreeDelete state index.toNat = some (found, next) ∧ StateOk next ∧
      MapStep (.delete index) (contents state.root) (.ptr found) (contents next.root) := by
  unfold radixTreeDelete
  rw [ok.root.maxindex_eq, bind_some]
  have unchanged : contents state.root index = none →
      MapStep (.delete index) (contents state.root) (.ptr .null) (contents state.root) := by
    intro absent
    refine .delete_of (by rw [absent]; rfl) ?_
    rw [← absent, update_eq_self]
  split
  · rename_i beyond
    exact ⟨_, _, rfl, ok, unchanged (contents_beyond beyond)⟩
  · rename_i beyond
    have here := contents_held beyond
    cases found : get index.toNat state.root.height state.root.rnode with
    | none =>
      rcases descend_missing _ _ _ [] ok.root.valid found with missing | ⟨path, missing⟩
      · rw [missing]
        exact ⟨_, _, rfl, ok, unchanged (here.trans found)⟩
      · rw [missing]
        exact ⟨_, _, rfl, ok, unchanged (here.trans found)⟩
    | some value =>
      have level := ok.root.level_of_get found
      obtain ⟨frames, cleared, flags, after, freed, pruned, down, up, prune⟩ :=
        pruneUp_pruned _ _ _ value ok.root.valid found
      obtain ⟨ok', updated⟩ := ok.root.replace_one pruned.valid level (by omega) pruned.items
      have result : pruneUp (clearTagsUp (fun _ => false) (frames ++ [])) = (after, freed) := by
        rw [up, clearTagsUp, prune]
        cases after with
        | null =>
          change (Ptr.null, freed ++ []) = _
          rw [List.append_nil]
        | item value | node node => rfl
      have clean : Clean (freed ++ state.cache) :=
        List.forall_mem_append.mpr ⟨pruned.clean, ok.clean⟩
      have mapped : MapStep (.delete index) (contents state.root) (.ptr (.item value))
          (contents { state.root with rnode := after }) :=
        .delete_of (by rw [here, found]; rfl) updated
      rw [down, map_some]
      refine ⟨_, _, rfl, ?_⟩
      simp only [result, Ptr.isNull]
      cases after with
      | null =>
        refine ⟨⟨rootOk_null (Nat.zero_lt_succ _), clean⟩, ?_⟩
        rw [contents_null] at mapped
        simp only [if_true, contents_null]
        exact mapped
      | item value | node node => exact ⟨⟨ok', clean⟩, mapped⟩

theorem radixTreeTagSet_refines (tag : Tag) (allowed : contents state.root index ≠ none) :
    ∃ found root, radixTreeTagSet state.root index.toNat tag = some (found, root) ∧ RootOk root ∧
      MapStep (.tagSet index tag) (contents state.root) (.ptr found) (contents root) := by
  unfold radixTreeTagSet
  rw [ok.root.maxindex_eq, bind_some]
  have held : ¬maxindexOf state.root.height < index.toNat :=
    fun beyond => allowed (contents_beyond beyond)
  have here := contents_held held
  rw [if_neg held]
  cases found : get index.toNat state.root.height state.root.rnode with
  | none => exact absurd (here.trans found) allowed
  | some value =>
    have level := ok.root.level_of_get found
    obtain ⟨after, ran, added⟩ := tagSetSlot_added _ tag _ _ value ok.root.valid found
    rw [ran]
    refine ⟨_, _, rfl, ok.root.replace_same added.valid level added.items, ?_⟩
    have set : MapStep (.tagSet index tag) (contents state.root)
        (.ptr (itemPtr (contents state.root index))) (contents state.root) := .tagSet
    rw [here, found] at set
    simp only [contents_same added.items]
    exact set

theorem radixTreeTagClear_refines (tag : Tag) :
    ∃ found root, radixTreeTagClear state.root index.toNat tag = some (found, root) ∧ RootOk root ∧
      MapStep (.tagClear index tag) (contents state.root) (.ptr found) (contents root) := by
  unfold radixTreeTagClear
  rw [ok.root.maxindex_eq, bind_some]
  have cleared : MapStep (.tagClear index tag) (contents state.root)
      (.ptr (itemPtr (contents state.root index))) (contents state.root) := .tagClear
  split
  · rename_i beyond
    rw [contents_beyond beyond] at cleared
    exact ⟨_, _, rfl, ok.root, cleared⟩
  · rename_i beyond
    have here := contents_held beyond
    rw [here] at cleared
    cases found : get index.toNat state.root.height state.root.rnode with
    | none =>
      rw [found] at cleared
      rcases descend_missing _ _ _ [] ok.root.valid found with missing | ⟨path, missing⟩
      · rw [missing]
        exact ⟨_, _, rfl, ok.root, cleared⟩
      · rw [missing]
        exact ⟨_, _, rfl, ok.root, cleared⟩
    | some value =>
      have level := ok.root.level_of_get found
      obtain ⟨frames, after, removed, down, up⟩ :=
        tagClearUp_removed _ tag _ _ value ok.root.valid found
      have result : tagClearUp tag (.item value) (frames ++ []) = after := by
        rw [up]
        split <;> rfl
      rw [found] at cleared
      rw [down, map_some]
      refine ⟨_, _, rfl, ?_⟩
      simp only [result]
      refine ⟨ok.root.replace_same removed.valid level removed.items, ?_⟩
      rw [contents_same removed.items]
      exact cleared

end

theorem call_refines {op : Op α} (ok : StateOk state) (allowed : Allowed state op)
    (room : MayGrow state op) :
    ∃ reply next, call state op = some (reply, next) ∧ StateOk next ∧
      MapStep op (contents state.root) reply (contents next.root) := by
  cases op with
  | insert index item budget =>
    obtain ⟨error, next, ran, ok', mapped⟩ := radixTreeInsert_refines ok index item budget room
    exact ⟨.code error, next, by rw [call, ran]; rfl, ok', mapped⟩
  | delete index =>
    obtain ⟨found, next, ran, ok', mapped⟩ := radixTreeDelete_refines ok index
    exact ⟨.ptr found, next, by rw [call, ran]; rfl, ok', mapped⟩
  | tagSet index tag =>
    obtain ⟨found, root, ran, ok', mapped⟩ := radixTreeTagSet_refines ok index tag allowed
    exact ⟨.ptr found, { state with root := root }, by rw [call, ran]; rfl, ⟨ok', ok.clean⟩, mapped⟩
  | tagClear index tag =>
    obtain ⟨found, root, ran, ok', mapped⟩ := radixTreeTagClear_refines ok index tag
    exact ⟨.ptr found, { state with root := root }, by rw [call, ran]; rfl, ⟨ok', ok.clean⟩, mapped⟩

theorem step_ok {state next : State α} {op : Op α} (ok : StateOk state) (allowed : Allowed state op)
    (stepped : step state op = some next) : StateOk next := by
  by_cases room : MayGrow state op
  · obtain ⟨reply, next', called, ok', _⟩ := call_refines ok allowed room
    unfold step at stepped
    rw [called] at stepped
    cases stepped
    exact ok'
  · unfold step at stepped
    rw [insert_none_of_top ok room] at stepped
    cases stepped

theorem step_total (state : State α) (op : Op α) (ok : StateOk state)
    (permitted : Allowed state op ∧ MayGrow state op) :
    ∃ next, step state op = some next ∧ StateOk next := by
  obtain ⟨reply, next, called, kept, _⟩ := call_refines ok permitted.1 permitted.2
  exact ⟨next, by rw [step, called]; rfl, kept⟩

theorem emptyTree_ok : StateOk (emptyTree : State α) :=
  ⟨rootOk_null (by decide), fun _ member => absurd member (by simp [emptyTree])⟩

/-- In every run that lets the height of a tree without nodes grow, failed
allocations included, the tree is a partial map: every further call returns and
acts as on the map, and the lookup agrees with it at every index. -/
theorem radixTree_behaves_as_map (ops : List (Op α))
    (permitted : Along step (fun state op => Allowed state op ∧ MayGrow state op) emptyTree ops) :
    ∃ final, run step emptyTree ops = some final ∧
      (∀ index, radixTreeLookup final.root index.toNat =
        some (itemPtr (contents final.root index))) ∧
      ∀ op, Allowed final op → MayGrow final op →
        ∃ reply next, call final op = some (reply, next) ∧
          MapStep op (contents final.root) reply (contents next.root) := by
  obtain ⟨final, executed, ok⟩ := run_total step_total ops emptyTree emptyTree_ok permitted
  refine ⟨final, executed, ok.root.lookup_eq, ?_⟩
  intro op allowed room
  obtain ⟨reply, next, called, _, mapped⟩ := call_refines ok allowed room
  exact ⟨reply, next, called, mapped⟩

/-- A failed insertion, one that succeeds, a tag and a deletion. -/
theorem radixTree_behaves_as_map_fourCalls :
    ∃ final, run step (emptyTree : State Nat)
        [.insert 0 7 0, .insert 4096 8 9, .tagSet 4096 1, .delete 4096] = some final ∧
      (∀ index, radixTreeLookup final.root index.toNat =
        some (itemPtr (contents final.root index))) ∧
      ∀ op, Allowed final op → MayGrow final op →
        ∃ reply next, call final op = some (reply, next) ∧
          MapStep op (contents final.root) reply (contents next.root) := by
  apply radixTree_behaves_as_map
  refine ⟨by decide, ?_⟩
  rintro _ ⟨⟩
  refine ⟨by decide, ?_⟩
  rintro _ ⟨⟩
  refine ⟨by decide, ?_⟩
  rintro _ ⟨⟩
  exact ⟨⟨trivial, trivial⟩, fun _ _ => trivial⟩

/-- An insertion of the largest index that fails leaves a tree of the last
height without nodes. The next insertion of index 0 looks for a greater height
and reads behind the array. -/
theorem topHeight_insert_undefined :
    Along step Allowed (emptyTree : State Nat) [.insert 0xffffffff 7 0, .insert 0 8 9] ∧
      (step (emptyTree : State Nat) (.insert 0xffffffff 7 0)).map
        (fun state => (state.root.height, state.root.rnode.isNull)) = some (6, true) ∧
      (run step (emptyTree : State Nat) [.insert 0xffffffff 7 0, .insert 0 8 9]).isNone = true :=
  ⟨⟨trivial, fun _ _ => ⟨trivial, fun _ _ => trivial⟩⟩, by decide, by decide⟩

/-- The `path` array gets one entry for each level below the root pointer. -/
theorem descend_length {index height : Nat} {slot found : Ptr α} {path frames : List (Frame α)}
    (walked : descend index height slot path = some (some (found, frames))) :
    frames.length = path.length + height := by
  induction height generalizing slot path with
  | zero =>
    cases walked
    rfl
  | succ height ih =>
    cases slot with
    | null | item value => cases walked
    | node node =>
      have rest := ih walked
      rw [List.length_cons] at rest
      omega

/-- Neither `height_to_maxindex` nor a `path` array is indexed behind its end. -/
structure InBounds (root : Root α) : Prop where
  height : root.height < maxPath
  path : ∀ index found frames,
    descend index root.height root.rnode [] = some (some (found, frames)) → frames.length < maxPath

/-- Every run that lets the height of a tree without nodes grow stays inside the arrays. -/
theorem inBounds_of_mayGrow (ops : List (Op α))
    (permitted : Along step (fun state op => Allowed state op ∧ MayGrow state op) emptyTree ops) :
    ∃ final, run step emptyTree ops = some final ∧ InBounds final.root := by
  obtain ⟨final, executed, ok⟩ := run_total step_total ops emptyTree emptyTree_ok permitted
  refine ⟨final, executed, ok.root.height_lt, ?_⟩
  intro index found frames walked
  rw [descend_length walked, List.length_nil, Nat.zero_add]
  exact ok.root.height_lt

theorem inBounds_of_mayGrow_twoInserts :
    ∃ final, run step (emptyTree : State Nat) [.insert 0 7 0, .insert 0 7 1] = some final ∧
      InBounds final.root := by
  apply inBounds_of_mayGrow
  refine ⟨by decide, ?_⟩
  rintro _ ⟨⟩
  exact ⟨by decide, fun _ _ => trivial⟩

/-- Every failed insertion of index 0 into a tree without nodes raises the height,
and the seventh looks behind the array. -/
theorem failedInserts_pass_maxPath :
    (run step (emptyTree : State Nat) (List.replicate 6 (.insert 0 7 0))).map
        (fun state => state.root.height) = some 6 ∧
      (run step (emptyTree : State Nat) (List.replicate 7 (.insert 0 7 0))).isNone = true :=
  ⟨by decide, by decide⟩

end MagxKernel.RadixTree
