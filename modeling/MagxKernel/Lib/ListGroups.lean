import Mathlib.Data.List.Basic

namespace MagxKernel.ListGroups

open List

variable {κ : Type}

/-- Equal keys stand next to each other: a key is followed by itself or does not
occur again. -/
def Grouped : List κ → Prop
  | [] => True
  | key :: keys => (keys.head? = some key ∨ key ∉ keys) ∧ Grouped keys

theorem Grouped.tail {key : κ} {keys : List κ} (grouped : Grouped (key :: keys)) : Grouped keys :=
  grouped.2

theorem Grouped.of_append {left right : List κ} (grouped : Grouped (left ++ right)) :
    Grouped right := by
  induction left with
  | nil => exact grouped
  | cons key left ih => exact ih grouped.tail

/-- The group of `key` between the keys in front of it and those behind. -/
structure Parts (key : κ) (front group back : List κ) : Prop where
  front_ne : ∀ other ∈ front, other ≠ key
  group_eq : ∀ other ∈ group, other = key
  back_ne : ∀ other ∈ back, other ≠ key
  back_nil : group = [] → back = []

/-- A group may be replaced by one of another length, also by an empty one. -/
theorem Grouped.replace {key : κ} {front group back : List κ} (parts : Parts key front group back)
    (grouped : Grouped (front ++ (group ++ back))) (group' : List κ)
    (same : ∀ other ∈ group', other = key) : Grouped (front ++ (group' ++ back)) := by
  have missing : key ∉ back := fun member => parts.back_ne key member rfl
  obtain ⟨front_ne, group_eq, _, back_nil⟩ := parts
  induction front with
  | nil =>
    have rest : Grouped back := Grouped.of_append (Grouped.of_append grouped)
    induction group' with
    | nil => exact rest
    | cons first group' ih =>
      obtain rfl := same first (by simp)
      have others := (forall_mem_cons.mp same).2
      refine ⟨?_, ih others⟩
      cases group' with
      | nil => exact .inr missing
      | cons second group' =>
        obtain rfl := same second (by simp)
        exact .inl rfl
  | cons first front ih =>
    have other := front_ne first (by simp)
    refine ⟨?_, ih grouped.tail (forall_mem_cons.mp front_ne).2⟩
    have absent : first ∉ front ++ (group ++ back) → first ∉ front ++ (group' ++ back) := by
      intro absent member
      simp only [mem_append, not_or] at absent member
      rcases member with member | member | member
      · exact absent.1 member
      · exact other (same first member)
      · exact absent.2.2 member
    rcases grouped.1 with next | next
    · cases front with
      | cons second front => exact .inl next
      | nil =>
        cases group with
        | nil => simp [back_nil rfl] at next
        | cons second group =>
          have equal : second = first := by simpa using next
          exact absurd (equal.symm.trans (group_eq second (by simp))) other
    · exact .inr (absent next)

theorem Grouped.not_mem_of_ne {key next : κ} {keys : List κ}
    (grouped : Grouped (key :: next :: keys))
    (different : next ≠ key) : key ∉ next :: keys := by
  rcases grouped.1 with equal | absent
  · exact absurd (Option.some.inj equal) different
  · exact absent

variable {α : Type} [DecidableEq κ] (f : α → κ)

theorem Grouped.leading (key : κ) (item : α) (items : List α)
    (grouped : Grouped ((item :: items).map f)) (same : f item = key) :
    ∃ group back, item :: items = group ++ back ∧ group ≠ [] ∧ (∀ other ∈ group, f other = key) ∧
      ∀ other ∈ back, f other ≠ key := by
  induction items generalizing item with
  | nil => exact ⟨[item], [], rfl, by simp, by simpa using same, by simp⟩
  | cons next items ih =>
    by_cases again : f next = key
    · obtain ⟨group, back, split, _, inside, outside⟩ := ih next grouped.tail again
      refine ⟨item :: group, back, by rw [split, cons_append], by simp, ?_, outside⟩
      exact forall_mem_cons.mpr ⟨same, inside⟩
    · have absent := grouped.not_mem_of_ne (by rw [same]; exact again)
      refine ⟨[item], next :: items, rfl, by simp, by simpa using same, ?_⟩
      intro other member equal
      apply absent
      rw [same, ← equal]
      exact mem_map_of_mem member

/-- Skip to the first item of a key, then over its group. -/
theorem Grouped.parts (key : κ) (skip : α → Bool) (items : List α)
    (grouped : Grouped (items.map f)) (skips : ∀ item ∈ items, skip item = true ↔ f item ≠ key) :
    ∃ group back, items.dropWhile skip = group ++ back ∧
      Parts key ((items.takeWhile skip).map f) (group.map f) (back.map f) := by
  induction items with
  | nil => exact ⟨[], [], rfl, by simp, by simp, by simp, by simp⟩
  | cons item items ih =>
    have here := skips item (by simp)
    by_cases same : f item = key
    · have kept : skip item = false := by
        rw [Bool.eq_false_iff]
        exact fun skipped => here.mp skipped same
      obtain ⟨group, back, split, filled, inside, outside⟩ := grouped.leading f key item items same
      refine ⟨group, back, by rw [← split]; simp [kept], by simp [kept], ?_, ?_, ?_⟩
      · simpa using inside
      · simpa using outside
      · exact fun empty => absurd (map_eq_nil_iff.mp empty) filled
    · have skipped : skip item = true := here.mpr same
      obtain ⟨group, back, split, parts⟩ := ih grouped.tail fun next member =>
        skips next (by simp [member])
      refine ⟨group, back, by rw [← split]; simp [skipped], ?_⟩
      refine { parts with front_ne := ?_ }
      intro other member
      simp only [skipped, takeWhile_cons, if_true, map_cons, mem_cons] at member
      rcases member with rfl | member
      · exact same
      · exact parts.front_ne other member

end MagxKernel.ListGroups
