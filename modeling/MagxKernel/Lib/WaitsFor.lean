import Mathlib.Data.List.Basic
import Mathlib.Logic.Relation

namespace MagxKernel.WaitsFor

open List

open Relation (TransGen ReflTransGen)

variable {α ε : Type} {edge finer : α → α → Prop}

/-- Nobody waits for himself, directly or through others. -/
def Acyclic (edge : α → α → Prop) : Prop := ∀ node, ¬TransGen edge node node

theorem Acyclic.mono (acyclic : Acyclic edge) (fewer : ∀ a b, finer a b → edge a b) :
    Acyclic finer :=
  fun node cycle => acyclic node (TransGen.mono fewer _ _ cycle)

/-- A new edge closes a cycle only if its source was reachable from its target. -/
theorem Acyclic.insert {source target : α} (acyclic : Acyclic edge)
    (apart : ¬ReflTransGen edge target source)
    (more : ∀ a b, finer a b → edge a b ∨ (a = source ∧ b = target)) : Acyclic finer := by
  -- a path that meets the new edge comes from the source's past and leads to the target's future
  have split : ∀ a b, TransGen finer a b →
      TransGen edge a b ∨ (ReflTransGen edge a source ∧ ReflTransGen edge target b) := by
    intro a b path
    induction path with
    | single first =>
      rcases more _ _ first with old | ⟨rfl, rfl⟩
      · exact .inl (TransGen.single old)
      · exact .inr ⟨ReflTransGen.refl, ReflTransGen.refl⟩
    | tail _ last ih =>
      rcases more _ _ last with old | ⟨rfl, rfl⟩
      · rcases ih with before | ⟨before, after⟩
        · exact .inl (before.tail old)
        · exact .inr ⟨before, after.tail old⟩
      · rcases ih with before | ⟨before, _⟩
        · exact .inr ⟨before.to_reflTransGen, ReflTransGen.refl⟩
        · exact .inr ⟨before, ReflTransGen.refl⟩
  intro node cycle
  rcases split node node cycle with old | ⟨before, after⟩
  · exact acyclic node old
  · exact apart (after.trans before)

theorem acyclic_of_rank (rank : α → Nat) (falls : ∀ a b, edge a b → rank b < rank a) :
    Acyclic edge := by
  intro node cycle
  have falling := cycle.lift (p := fun high low => low < high) rank falls
  rw [Relation.transGen_eq_self] at falling
  exact Nat.lt_irrefl _ falling

theorem length_filter_lt {wide narrow : ε → Bool} {entries : List ε}
    (sub : ∀ entry, narrow entry = true → wide entry = true) {entry : ε} (member : entry ∈ entries)
    (inWide : wide entry = true) (notNarrow : narrow entry = false) :
    (entries.filter narrow).length < (entries.filter wide).length := by
  have nested : entries.filter narrow = (entries.filter wide).filter narrow := by
    rw [filter_filter]
    apply filter_congr
    intro other _
    cases inside : narrow other with
    | false => rfl
    | true => rw [sub other inside]; rfl
  rw [nested, length_filter_lt_length_iff_exists]
  exact ⟨entry, mem_filter.mpr ⟨member, inWide⟩, by simp [notNarrow]⟩

open Classical in
/-- How many of the waiting entries lie ahead of a node. -/
noncomputable def ahead (edge : α → α → Prop) (source : ε → α) (entries : List ε) (node : α) :
    Nat :=
  (entries.filter fun entry => ReflTransGen edge node (source entry)).length

variable {source : ε → α} {entries : List ε}

theorem ahead_le (node : α) : ahead edge source entries node ≤ entries.length :=
  length_filter_le _ _

theorem ahead_pos {entry : ε} (member : entry ∈ entries) :
    0 < ahead edge source entries (source entry) := by
  apply length_pos_of_mem (a := entry)
  simpa using ⟨member, ReflTransGen.refl⟩

open Classical in
/-- Following an edge leaves its own entry behind for ever. -/
theorem ahead_lt (acyclic : Acyclic edge) {a b : α} (waits : edge a b) {entry : ε}
    (member : entry ∈ entries) (starts : source entry = a) :
    ahead edge source entries b < ahead edge source entries a := by
  have back : ¬ReflTransGen edge b (source entry) := by
    rw [starts]
    intro path
    exact acyclic a (TransGen.head' waits path)
  have here : ReflTransGen edge a (source entry) := by
    rw [starts]
  apply length_filter_lt _ member (decide_eq_true here) (decide_eq_false back)
  intro other path
  exact decide_eq_true (ReflTransGen.head waits (of_decide_eq_true path))

end MagxKernel.WaitsFor
