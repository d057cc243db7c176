import MagxKernel.Lib.Runs
import MagxKernel.RadixTree.Remove

namespace MagxKernel.RadixTree

open Runs RadixSlots Function

variable {α : Type}

section Heights

theorem maxindexOf_lt : ∀ height < maxPath, maxindexOf height < 2 ^ (6 * height) := by decide

theorem maxindexOf_full : ∀ height, height + 1 < maxPath →
    maxindexOf height = 2 ^ (6 * height) - 1 ∧ 2 ^ (6 * height) ≤ 2 ^ 30 := by
  have small : ∀ height < 6, maxindexOf height = 2 ^ (6 * height) - 1 ∧
      2 ^ (6 * height) ≤ 2 ^ 30 := by decide
  exact fun height low => small height (Nat.lt_of_succ_lt_succ low)

theorem maxindexOf_mono : ∀ height, height + 1 < maxPath →
    maxindexOf height ≤ maxindexOf (height + 1) := by
  have small : ∀ height < 6, maxindexOf height ≤ maxindexOf (height + 1) := by decide
  exact fun height low => small height (Nat.lt_of_succ_lt_succ low)

theorem maxindexOf_top : maxindexOf 6 = 2 ^ 32 - 1 := by decide

theorem maxindexOf_lt_word : ∀ height < maxPath, maxindexOf height < 2 ^ 32 := by decide

/-- The top entry is large enough for every index. -/
theorem growHeight_spec (index left : Nat) (word : index < 2 ^ 32) (some_left : 0 < left)
    (few : left ≤ maxPath) :
    ∃ height, growHeight index left = some height ∧ maxPath - left ≤ height ∧ height < maxPath ∧
      index ≤ maxindexOf height := by
  induction left with
  | zero => omega
  | succ left ih =>
    rw [growHeight]
    split
    · rename_i short
      by_cases last : left = 0
      · subst last
        change maxindexOf 6 < index at short
        rw [maxindexOf_top] at short
        omega
      · obtain ⟨height, grown, low, high, enough⟩ := ih (by omega) (by omega)
        exact ⟨height, grown, by omega, high, enough⟩
    · exact ⟨_, rfl, by omega, by omega, by omega⟩

end Heights

/-- The map that a tree stands for. -/
def contents (root : Root α) (index : UInt32) : Option α :=
  if index.toNat ≤ maxindexOf root.height then get index.toNat root.height root.rnode else none

/-- A tree of less than full height at the top level uses no slot for an index
that an `unsigned long` cannot hold. -/
structure RootOk (root : Root α) : Prop where
  height_lt : root.height < maxPath
  valid : Valid root.height root.rnode
  empty : root.height = 0 → root.rnode = .null
  bounded : ∀ index, maxindexOf root.height < index % 2 ^ (6 * root.height) →
    get index root.height root.rnode = none

structure StateOk (state : State α) : Prop where
  root : RootOk state.root
  clean : Clean state.cache

theorem contents_null (height : Nat) : contents (⟨height, .null⟩ : Root α) = fun _ => none := by
  funext index
  unfold contents
  split
  · exact get_null _ _
  · rfl

variable {height : Nat}

theorem rootOk_null (low : height < maxPath) : RootOk (⟨height, .null⟩ : Root α) :=
  ⟨low, valid_null height, fun _ => rfl, fun index _ => get_null index height⟩

section Replace

variable {root : Root α} {rnode : Ptr α}

theorem contents_same
    (items : ∀ other, get other root.height rnode = get other root.height root.rnode) :
    contents { root with rnode := rnode } = contents root := by
  funext index
  unfold contents
  simp only [items]

theorem RootOk.replace_same (ok : RootOk root) (valid : Valid root.height rnode)
    (level : root.height ≠ 0)
    (items : ∀ other, get other root.height rnode = get other root.height root.rnode) :
    RootOk { root with rnode := rnode } := by
  refine ⟨ok.height_lt, valid, fun flat => absurd flat level, ?_⟩
  intro index beyond
  exact (items index).trans (ok.bounded index beyond)

/-- Two indices that the tree can hold take different ways through it. -/
theorem same_iff {left right : UInt32} (low : height < maxPath)
    (left_le : left.toNat ≤ maxindexOf height) (right_le : right.toNat ≤ maxindexOf height) :
    Same 6 height left.toNat right.toNat ↔ left = right := by
  have limit := maxindexOf_lt height low
  unfold Same
  rw [Nat.mod_eq_of_lt (by omega), Nat.mod_eq_of_lt (by omega)]
  exact UInt32.toNat_inj

theorem RootOk.replace_one (ok : RootOk root) (valid : Valid root.height rnode)
    (level : root.height ≠ 0) {index : UInt32} {value : Option α}
    (held : index.toNat ≤ maxindexOf root.height)
    (items : ∀ other, get other root.height rnode =
      if Same 6 root.height other index.toNat then value else get other root.height root.rnode) :
    RootOk { root with rnode := rnode } ∧
      contents { root with rnode := rnode } = update (contents root) index value := by
  refine ⟨⟨ok.height_lt, valid, fun flat => absurd flat level, ?_⟩, ?_⟩
  · intro other beyond
    rw [items, if_neg]
    · exact ok.bounded other beyond
    · intro same
      change maxindexOf root.height < other % 2 ^ (6 * root.height) at beyond
      rw [same, Nat.mod_eq_of_lt (by omega)] at beyond
      omega
  · funext other
    unfold contents
    simp only [items]
    by_cases equal : other = index
    · subst equal
      rw [if_pos held, if_pos ((same_iff ok.height_lt held held).mpr rfl), update_self]
    · rw [update_of_ne equal]
      split
      · rename_i held'
        rw [if_neg (fun same => equal ((same_iff ok.height_lt held' held).mp same))]
      · rfl

end Replace

section Extend

variable (tags : Tag → Bool)

variable (rnode : Ptr α)

theorem pushNode_tags (tag : Tag) (offset : Offset) :
    (pushNode .zero tags rnode).tags tag offset = (decide (offset = 0) && tags tag) := by
  unfold pushNode
  cases set : tags tag with
  | false => simp [set, Node.zero]
  | true =>
    by_cases first : offset = 0 <;> simp [set, first, Node.zero]

theorem pushNode_slots (offset : Offset) :
    (pushNode .zero tags rnode).slots offset = if offset = 0 then rnode else .null := by
  by_cases first : offset = 0
  · subst first
    rfl
  · rw [if_neg first]
    exact update_of_ne first _ _

theorem pushNode_anyTag (tag : Tag) : (pushNode .zero tags rnode).anyTag tag = tags tag := by
  rw [Bool.eq_iff_iff, anyTag_iff]
  simp [pushNode_tags]

theorem pushNode_valid {top : Node (Ptr α)} (valid : Valid height (.node top)) :
    Valid (height + 1) (.node (pushNode .zero top.anyTag (.node top))) := by
  have level : height ≠ 0 := by
    rintro rfl
    exact absurd valid (by simp [Valid])
  refine ⟨⟨?_, fun flat => absurd flat level, ?_⟩, ?_⟩
  · have total := filled_update (Node.zero : Node (Ptr α)).slots 0 (.node top)
    exact total.symm
  · intro _ tag offset
    rw [pushNode_tags, pushNode_slots]
    by_cases first : offset = 0 <;> simp [first, hasTag]
  · intro offset
    rw [pushNode_slots]
    split
    · exact valid
    · exact valid_null height

theorem get_pushNode (index height : Nat) (tags : Tag → Bool) (rnode : Ptr α) :
    get index (height + 1) (.node (pushNode .zero tags rnode)) =
      if offsetOf index height = 0 then get index height rnode else none := by
  change get index height ((pushNode .zero tags rnode).slots (offsetOf index height)) = _
  rw [pushNode_slots]
  split
  · rfl
  · exact get_null index height

theorem offsetOf_eq_zero (index height : Nat) :
    offsetOf index height = 0 ↔ index / 2 ^ (6 * height) % 64 = 0 := by
  rw [Fin.ext_iff, offsetOf_val]
  rfl

theorem RootOk.push {top : Node (Ptr α)} (ok : RootOk ⟨height, .node top⟩)
    (low : height + 1 < maxPath) :
    RootOk ⟨height + 1, .node (pushNode .zero top.anyTag (.node top))⟩ ∧
      contents ⟨height + 1, .node (pushNode .zero top.anyTag (.node top))⟩ =
        contents ⟨height, .node top⟩ := by
  obtain ⟨full, small⟩ := maxindexOf_full height low
  have power : 2 ^ (6 * (height + 1)) = 2 ^ (6 * height) * 64 := by rw [Nat.mul_add, Nat.pow_add]
  refine ⟨⟨low, pushNode_valid ok.valid, fun flat => absurd flat (by simp), ?_⟩, ?_⟩
  · intro index beyond
    change maxindexOf (height + 1) < index % 2 ^ (6 * (height + 1)) at beyond
    rw [get_pushNode, if_neg]
    rw [offsetOf_eq_zero, ← Nat.mod_mul_right_div_self, ← power]
    intro zero
    have below : index % 2 ^ (6 * (height + 1)) < 2 ^ (6 * height) := by
      rcases (Nat.div_eq_zero_iff).mp zero with impossible | below
      · omega
      · exact below
    have grows := maxindexOf_mono height low
    omega
  · funext index
    have reach : index.toNat ≤ maxindexOf (height + 1) → index.toNat < 2 ^ (6 * height) * 64 := by
      have limit := maxindexOf_lt (height + 1) low
      omega
    unfold contents
    simp only [get_pushNode, offsetOf_eq_zero]
    by_cases held : index.toNat ≤ maxindexOf height
    · have wide := held.trans (maxindexOf_mono height low)
      rw [if_pos held, if_pos wide, if_pos]
      rw [Nat.div_eq_of_lt (by omega)]
    · split
      · rename_i wide
        rw [if_neg]
        intro zero
        have quotient : index.toNat / 2 ^ (6 * height) < 64 :=
          Nat.div_lt_of_lt_mul (reach wide)
        rw [Nat.mod_eq_of_lt quotient] at zero
        rcases (Nat.div_eq_zero_iff).mp zero with impossible | below
        · omega
        · omega
      · rfl

/-- Extension keeps the map, also when it runs out of memory half-way. -/
structure Extended (before : Root α) (height : Nat)
    (result : Int × Root α × List (Node (Ptr α)) × Nat) : Prop where
  root : RootOk result.2.1
  clean : Clean result.2.2.1
  same : contents result.2.1 = contents before
  error : (result.1 = 0 ∧ result.2.1.height = height) ∨ result.1 = -enomem

theorem pushRoots_extended (times : Nat) (root : Root α) (top : Node (Ptr α))
    (cache : List (Node (Ptr α))) (budget : Nat) (ok : RootOk root) (clean : Clean cache)
    (node : root.rnode = .node top) (aggregate : tags = top.anyTag)
    (low : root.height + times < maxPath) :
    Extended root (root.height + times) (pushRoots tags times root cache budget) := by
  induction times generalizing root top cache budget with
  | zero => exact ⟨ok, clean, rfl, .inl ⟨rfl, rfl⟩⟩
  | succ times ih =>
    rw [pushRoots]
    cases allocated : nodeAlloc cache budget with
    | none => exact ⟨ok, clean, rfl, .inr rfl⟩
    | some result =>
      obtain ⟨fresh, cache', budget'⟩ := result
      obtain ⟨rfl, clean'⟩ := nodeAlloc_clean clean allocated
      obtain ⟨height, rnode⟩ := root
      subst node aggregate
      change height + (times + 1) < maxPath at low
      obtain ⟨ok', same⟩ := ok.push (by omega)
      have rest := ih ⟨height + 1, .node (pushNode .zero top.anyTag (.node top))⟩ _ cache' budget'
        ok' clean' rfl (funext fun tag => (pushNode_anyTag top.anyTag _ tag).symm)
        (by change height + 1 + times < maxPath; omega)
      have height_eq : height + 1 + times = height + (times + 1) := by omega
      refine ⟨rest.root, rest.clean, rest.same.trans same, ?_⟩
      have error := rest.error
      simp only [height_eq] at error
      exact error

theorem extend_extended (root : Root α) (index : Nat) (cache : List (Node (Ptr α))) (budget : Nat)
    (ok : RootOk root) (clean : Clean cache) (word : index < 2 ^ 32)
    (low : root.height + 1 < maxPath) :
    ∃ result height, extend root index cache budget = some result ∧ Extended root height result ∧
      height ≠ 0 ∧ index ≤ maxindexOf height := by
  obtain ⟨height, grown, high, top, enough⟩ :=
    growHeight_spec index (maxPath - (root.height + 1)) word (by omega) (by omega)
  unfold extend
  rw [grown, Option.bind_some]
  cases node : root.rnode with
  | null =>
    refine ⟨_, height, rfl, ⟨?_, clean, ?_, .inl ⟨rfl, rfl⟩⟩, by omega, enough⟩
    · exact rootOk_null top
    · obtain ⟨_, rnode⟩ := root
      subst node
      simp only [contents_null]
  | item value =>
    have valid := ok.valid
    have level := ok.empty
    rw [node] at valid level
    cases flat : root.height with
    | zero => exact absurd (level flat) (by simp)
    | succ height =>
      rw [flat] at valid
      exact absurd valid (by simp [Valid])
  | node topNode =>
    refine ⟨_, height, rfl, ?_, by omega, enough⟩
    have pushed := pushRoots_extended topNode.anyTag
      (height - root.height) root topNode cache budget ok
      clean node rfl (by omega)
    rwa [Nat.add_sub_cancel' (by omega)] at pushed

end Extend

end MagxKernel.RadixTree
