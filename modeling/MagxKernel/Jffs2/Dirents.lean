import Mathlib.Data.List.Induction
import Mathlib.Data.List.Nodup

namespace MagxKernel.Jffs2

open List

/-- The fields of a `jffs2_full_dirent` that decide about its place in the list. -/
structure FullDirent where
  raw : Nat
  version : UInt32
  nhash : UInt32
  name : List UInt8
deriving DecidableEq

/-- `jffs2_add_fd_to_list`: the list and the raw nodes that were marked obsolete. -/
def addFdToList (new : FullDirent) : List FullDirent → List FullDirent × List Nat
  | [] => ([new], [])
  | fd :: next =>
      if fd.nhash ≤ new.nhash then
        if fd.nhash = new.nhash ∧ fd.name = new.name then
          if new.version < fd.version then (fd :: next, [new.raw]) else (new :: next, [fd.raw])
        else ((addFdToList new next).map (fd :: ·) id)
      else (new :: fd :: next, [])

/-- The nodes arrive one after the other. -/
def addAll (nodes : List FullDirent) : List FullDirent × List Nat :=
  nodes.foldl (fun state new => ((addFdToList new state.1).map id (state.2 ++ ·))) ([], [])

/-- What the place in the list depends on. -/
def FullDirent.key (fd : FullDirent) : UInt32 × List UInt8 := (fd.nhash, fd.name)

/-- Hashes ascend and no name stands twice. -/
def Ordered (list : List FullDirent) : Prop :=
  (list.map FullDirent.key).Pairwise fun first second =>
    first.1 ≤ second.1 ∧ first.2 ≠ second.2

variable {list : List FullDirent} {fd new : FullDirent}

theorem ordered_cons :
    Ordered (fd :: list) ↔
      (∀ other ∈ list, fd.nhash ≤ other.nhash ∧ fd.name ≠ other.name) ∧ Ordered list := by
  simp [Ordered, FullDirent.key]

/-- Where a node goes: between two others, or to the place of one with its name. -/
theorem addFdToList_cases (ordered : Ordered list)
    (hashed : ∀ fd ∈ list, fd.name = new.name → fd.nhash = new.nhash) :
    (∃ front back, list = front ++ back ∧ addFdToList new list = (front ++ new :: back, []) ∧
        Ordered (front ++ new :: back)) ∨
      ∃ front fd back, list = front ++ fd :: back ∧ fd.key = new.key ∧
        addFdToList new list =
          if new.version < fd.version then (list, [new.raw])
          else (front ++ new :: back, [fd.raw]) := by
  induction list with
  | nil => exact .inl ⟨[], [], rfl, rfl, pairwise_singleton _ _⟩
  | cons fd next ih =>
    obtain ⟨first, rest⟩ := ordered_cons.mp ordered
    obtain ⟨here, later⟩ := forall_mem_cons.mp hashed
    rw [addFdToList]
    split
    · rename_i low
      split
      · rename_i same
        exact .inr ⟨[], fd, next, rfl, Prod.ext same.1 same.2, rfl⟩
      · rename_i same
        rcases ih rest later with ⟨front, back, rfl, added, placed⟩ |
          ⟨front, old, back, rfl, key, added⟩
        · refine .inl ⟨fd :: front, back, rfl, by rw [added]; rfl, ordered_cons.mpr ⟨?_, placed⟩⟩
          intro other found
          rcases mem_append.mp found with before | after
          · exact first other (mem_append_left _ before)
          · rcases mem_cons.mp after with rfl | after
            · exact ⟨low, fun wrong => same ⟨here wrong, wrong⟩⟩
            · exact first other (mem_append_right _ after)
        · refine .inr ⟨fd :: front, old, back, rfl, key, ?_⟩
          rw [added]
          split <;> rfl
    · rename_i low
      refine .inl ⟨[], fd :: next, rfl, rfl, ordered_cons.mpr ⟨?_, ordered⟩⟩
      have above : ∀ other ∈ fd :: next, new.nhash < other.nhash := by
        rw [forall_mem_cons]
        refine ⟨UInt32.not_le.mp low, fun other found => ?_⟩
        exact UInt32.lt_of_lt_of_le (UInt32.not_le.mp low) (first other found).1
      intro other found
      refine ⟨UInt32.le_of_lt (above other found), fun same => ?_⟩
      exact UInt32.ne_of_lt (above other found) (hashed other found same.symm).symm

/-- The list after some nodes have been added, and the nodes marked obsolete. -/
structure Listed (nodes : List FullDirent) (state : List FullDirent × List Nat) : Prop where
  ordered : Ordered state.1
  origin : ∀ fd ∈ state.1, fd ∈ nodes
  covered : ∀ node ∈ nodes, ∃ fd ∈ state.1, fd.name = node.name ∧ node.version ≤ fd.version
  marked : (state.1.map FullDirent.raw ++ state.2).Perm (nodes.map FullDirent.raw)

variable {state : List FullDirent × List Nat}

theorem Listed.add {nodes : List FullDirent} (listed : Listed nodes state)
    (hashed : ∀ fd ∈ nodes, fd.name = new.name → fd.nhash = new.nhash) :
    Listed (nodes ++ [new]) ((addFdToList new state.1).map id (state.2 ++ ·)) := by
  obtain ⟨list, marks⟩ := state
  obtain ⟨ordered, origin, covered, marked⟩ := listed
  rcases addFdToList_cases ordered fun fd found => hashed fd (origin fd found) with
    ⟨front, back, rfl, added, placed⟩ | ⟨front, fd, back, rfl, key, added⟩
  · rw [added]
    exact ⟨placed, by grind, by grind, by grind⟩
  · obtain ⟨_, name⟩ := Prod.mk.inj key
    rw [added]
    split
    · exact ⟨ordered, by grind, by grind, by grind⟩
    · refine ⟨?_, by grind, by grind, by grind⟩
      simp only [Ordered, map_append, map_cons, key] at ordered
      simpa only [Ordered, Prod.map, id, map_append, map_cons] using ordered

theorem listed_addAll {hash : List UInt8 → UInt32} (nodes : List FullDirent)
    (hashed : ∀ fd ∈ nodes, fd.nhash = hash fd.name) : Listed nodes (addAll nodes) := by
  induction nodes using List.reverseRecOn with
  | nil => exact ⟨List.Pairwise.nil, nofun, nofun, List.Perm.refl _⟩
  | append_singleton nodes new ih =>
    rw [addAll, foldl_append]
    refine (ih fun fd found => hashed fd (mem_append_left _ found)).add fun fd found same => ?_
    rw [hashed fd (mem_append_left _ found), same,
      hashed new (mem_append_right _ mem_cons_self)]

/-- The node has the highest version among those of its name. -/
def Latest (nodes : List FullDirent) (fd : FullDirent) : Prop :=
  fd ∈ nodes ∧ ∀ other ∈ nodes, other.name = fd.name → other.version ≤ fd.version

theorem Ordered.names (ordered : Ordered list) : (list.map FullDirent.name).Nodup :=
  pairwise_map.mpr ((pairwise_map.mp ordered).imp And.right)

theorem Listed.mem_iff {nodes : List FullDirent} (listed : Listed nodes state)
    (distinct : (nodes.map FullDirent.version).Nodup) : fd ∈ state.1 ↔ Latest nodes fd := by
  constructor
  · intro found
    refine ⟨listed.origin fd found, fun node member same => ?_⟩
    obtain ⟨other, held, name, newest⟩ := listed.covered node member
    rw [← inj_on_of_nodup_map listed.ordered.names held found (name.trans same)]
    exact newest
  · rintro ⟨member, newest⟩
    obtain ⟨other, held, name, covers⟩ := listed.covered fd member
    have same := UInt32.le_antisymm covers (newest other (listed.origin other held) name)
    rw [inj_on_of_nodup_map distinct member (listed.origin other held) same]
    exact held

/-- The list is sorted by hash and holds, once, the node with the highest version of
each name. The others are marked obsolete, each once, in whatever order they came. -/
theorem addAll_survivors (hash : List UInt8 → UInt32) (nodes : List FullDirent)
    (hashed : ∀ fd ∈ nodes, fd.nhash = hash fd.name)
    (distinct : (nodes.map FullDirent.version).Nodup) :
    ((addAll nodes).1.Pairwise fun first second => first.nhash ≤ second.nhash) ∧
      ((addAll nodes).1.map FullDirent.name).Nodup ∧
      (∀ fd, fd ∈ (addAll nodes).1 ↔ Latest nodes fd) ∧
      ((addAll nodes).1.map FullDirent.raw ++ (addAll nodes).2).Perm (nodes.map FullDirent.raw) ∧
      ∀ nodes', nodes'.Perm nodes → ∀ fd, fd ∈ (addAll nodes').1 ↔ fd ∈ (addAll nodes).1 := by
  have listed := listed_addAll nodes hashed
  refine ⟨(pairwise_map.mp listed.ordered).imp And.left, listed.ordered.names,
    fun fd => listed.mem_iff distinct, listed.marked, fun nodes' order fd => ?_⟩
  have other := listed_addAll nodes' fun fd found => hashed fd (order.mem_iff.mp found)
  rw [listed.mem_iff distinct, other.mem_iff ((order.map _).nodup_iff.mpr distinct)]
  simp only [Latest, order.mem_iff]

theorem addAll_survivors_collision :
    addAll [⟨1, 7, 5, [97]⟩, ⟨2, 9, 5, [98]⟩, ⟨3, 8, 5, [97]⟩] =
        ([⟨3, 8, 5, [97]⟩, ⟨2, 9, 5, [98]⟩], [1]) ∧
      ((addAll [⟨1, 7, 5, [97]⟩, ⟨2, 9, 5, [98]⟩, ⟨3, 8, 5, [97]⟩]).1.map FullDirent.name).Nodup :=
  ⟨rfl, (addAll_survivors (fun _ => 5) _ (by decide) (by decide)).2.1⟩

end MagxKernel.Jffs2
