import Mathlib.Data.List.Basic

namespace MagxKernel.CircularList

open Function List

/-- The links of the entries of doubly linked circular lists. A pointer that was never
set, or was poisoned, is `none`. -/
structure Links (α : Type) where
  next : α → Option α
  prev : α → Option α

variable {α : Type}

section Lists

variable [DecidableEq α]

namespace Links

/-- A list of one entry. -/
def initListHead (links : Links α) (entry : α) : Links α :=
  ⟨update links.next entry (some entry), update links.prev entry (some entry)⟩

/-- Insert `new` before `head`. -/
def listAddTail (links : Links α) (new head : α) : Option (Links α) :=
  (links.prev head).map fun prev =>
    ⟨update (update links.next new (some head)) prev (some new),
      update (update links.prev head (some new)) new (some prev)⟩

/-- Take an entry out of its list and poison its links. -/
def listDel (links : Links α) (entry : α) : Option (Links α) :=
  (links.prev entry).bind fun prev => (links.next entry).map fun next =>
    ⟨update (update links.next prev (some next)) entry none,
      update (update links.prev next (some prev)) entry none⟩

def listEmpty (links : Links α) (head : α) : Bool := decide (links.next head = some head)

end Links

end Lists

/-- Two entries that follow each other. -/
structure Joined (links : Links α) (a b : α) : Prop where
  next : links.next a = some b
  prev : links.prev b = some a

/-- From `a` over the entries of a list to `b`. -/
def Path (links : Links α) : α → List α → α → Prop
  | a, [], b => Joined links a b
  | a, c :: mids, b => Joined links a c ∧ Path links c mids b

/-- The circular list with these entries, in order. -/
structure Ring (links : Links α) (first : α) (rest : List α) : Prop where
  nodup : (first :: rest).Nodup
  path : Path links first rest first

/-- Every entry outside the list has the links it had. -/
def Outside (links after : Links α) (members : List α) : Prop :=
  ∀ entry, entry ∉ members → after.next entry = links.next entry ∧
    after.prev entry = links.prev entry

variable {links after : Links α} {a b c : α} {mids rest : List α}

theorem path_append {more : List α} :
    Path links a (mids ++ c :: more) b ↔ Path links a mids c ∧ Path links c more b := by
  induction mids generalizing a with
  | nil => rfl
  | cons d mids ih =>
    simp only [cons_append, Path, ih]
    exact and_assoc.symm

/-- A path reads the next link of all but its last entry, the previous one of all but its
first. -/
theorem Path.congr (path : Path links a mids b)
    (next : ∀ entry ∈ a :: mids, after.next entry = links.next entry)
    (prev : ∀ entry ∈ b :: mids, after.prev entry = links.prev entry) : Path after a mids b := by
  induction mids generalizing a with
  | nil =>
    have joined : Joined links a b := path
    exact ⟨(next a mem_cons_self).trans joined.next,
      (prev b mem_cons_self).trans joined.prev⟩
  | cons c mids ih =>
    obtain ⟨joined, further⟩ := path
    refine ⟨⟨(next a mem_cons_self).trans joined.next, ?_⟩, ih further ?_ ?_⟩
    · exact (prev c (mem_cons_of_mem b mem_cons_self)).trans joined.prev
    · intro entry inside
      exact next entry (mem_cons_of_mem a inside)
    · intro entry inside
      apply prev entry
      cases mem_cons.mp inside with
      | inl isLast => exact isLast ▸ mem_cons_self
      | inr inner => exact mem_cons_of_mem b (mem_cons_of_mem c inner)

theorem Ring.congr (ring : Ring links a rest)
    (same : ∀ entry ∈ a :: rest, after.next entry = links.next entry ∧
      after.prev entry = links.prev entry) : Ring after a rest :=
  ⟨ring.nodup, ring.path.congr (fun entry inside => (same entry inside).1)
    fun entry inside => (same entry inside).2⟩

theorem Ring.turn (ring : Ring links a (b :: rest)) : Ring links b (rest ++ [a]) := by
  constructor
  · exact (perm_append_singleton a (b :: rest)).nodup_iff.mpr ring.nodup
  · exact path_append.mpr ⟨ring.path.2, ring.path.1⟩

/-- A circular list starts at any of its entries. -/
theorem Ring.from_entry {front back : List α} (ring : Ring links a rest)
    (split : a :: rest = front ++ b :: back) : Ring links b (back ++ front) := by
  induction front generalizing a rest back with
  | nil =>
    obtain ⟨rfl, rfl⟩ := List.cons.inj split
    rw [append_nil]
    exact ring
  | cons d front ih =>
    obtain ⟨rfl, rfl⟩ := List.cons.inj split
    obtain ⟨e, tail, found⟩ := exists_cons_of_ne_nil
      (append_ne_nil_of_right_ne_nil front (cons_ne_nil b back))
    change Ring links a (front ++ b :: back) at ring
    rw [found] at ring
    have split : e :: (tail ++ [a]) = front ++ b :: (back ++ [a]) := by
      rw [← cons_append, ← found, append_assoc, cons_append]
    have turned := ih ring.turn split
    rwa [append_assoc] at turned

theorem Ring.start (ring : Ring links a rest) (inside : b ∈ a :: rest) :
    ∃ others, Ring links b others ∧ ∀ entry, entry ∈ b :: others ↔ entry ∈ a :: rest := by
  obtain ⟨front, back, split⟩ := append_of_mem inside
  refine ⟨back ++ front, ring.from_entry split, fun entry => ?_⟩
  rw [split]
  exact (@perm_append_comm _ (b :: back) front).mem_iff

/-- A path can be led from its last entry to another end. -/
theorem Path.split_last (path : Path links a mids b) (nodup : (a :: mids).Nodup) :
    ∃ last ∈ a :: mids, Joined links last b ∧ ∀ {after new},
      (∀ entry ∈ a :: mids, entry ≠ last → after.next entry = links.next entry) →
      (∀ entry ∈ mids, after.prev entry = links.prev entry) → Joined after last new →
        Path after a mids new := by
  cases eq_nil_or_concat mids with
  | inl none =>
    subst none
    exact ⟨a, mem_cons_self, path, fun _ _ joined => joined⟩
  | inr found =>
    obtain ⟨mids, last, rfl⟩ := found
    rw [concat_eq_append] at path nodup ⊢
    obtain ⟨before, joined⟩ := path_append.mp path
    refine ⟨last, mem_append_right (a :: mids) mem_cons_self, joined,
      fun next prev joined => path_append.mpr ⟨before.congr ?_ ?_, joined⟩⟩
    · intro entry inside
      apply next entry (mem_append_left [last] inside)
      exact (nodup_append.mp nodup).2.2 entry inside last mem_cons_self
    · intro entry inside
      apply prev
      exact (perm_append_singleton last mids).mem_iff.mpr inside

variable [DecidableEq α]

theorem ring_initListHead (links : Links α) (entry : α) :
    Ring (links.initListHead entry) entry [] :=
  ⟨pairwise_singleton .., update_self .., update_self ..⟩

theorem outside_initListHead (links : Links α) (entry : α) :
    Outside links (links.initListHead entry) [entry] := by
  intro other off
  have distinct : other ≠ entry := fun same => off (mem_singleton.mpr same)
  exact ⟨update_of_ne distinct .., update_of_ne distinct ..⟩

theorem Ring.listEmpty (ring : Ring links a rest) : links.listEmpty a = true ↔ rest = [] := by
  unfold Links.listEmpty
  rw [decide_eq_true_iff]
  cases rest with
  | nil => exact ⟨fun _ => rfl, fun _ => ring.path.next⟩
  | cons b rest =>
    rw [ring.path.1.next, Option.some.injEq]
    refine ⟨fun same => ?_, fun none => absurd none (cons_ne_nil b rest)⟩
    exact absurd (same ▸ mem_cons_self) (nodup_cons.mp ring.nodup).1

theorem Ring.listAddTail (ring : Ring links a rest) (fresh : b ∉ a :: rest) :
    ∃ after, links.listAddTail b a = some after ∧ Ring after a (rest ++ [b]) ∧
      Outside links after (b :: a :: rest) := by
  obtain ⟨last, isMember, joined, again⟩ := ring.path.split_last ring.nodup
  have other : ∀ entry ∈ a :: rest, entry ≠ b := fun entry inside same => fresh (same ▸ inside)
  unfold Links.listAddTail
  rw [joined.prev]
  refine ⟨_, rfl, ⟨?_, path_append.mpr ⟨again ?_ ?_ ⟨?_, ?_⟩, ?_, ?_⟩⟩, fun entry off => ?_⟩
  · exact (perm_append_singleton b (a :: rest)).nodup_iff.mpr
      (nodup_cons.mpr ⟨fresh, ring.nodup⟩)
  · intro entry inside notLast
    exact (update_of_ne notLast ..).trans (update_of_ne (other entry inside) ..)
  · intro entry inside
    have notA : entry ≠ a := fun same => (nodup_cons.mp ring.nodup).1 (same ▸ inside)
    exact (update_of_ne (other entry (mem_cons_of_mem a inside)) ..).trans
      (update_of_ne notA ..)
  · exact update_self ..
  · exact update_self ..
  · exact (update_of_ne (other last isMember).symm ..).trans (update_self ..)
  · exact (update_of_ne (other a mem_cons_self) ..).trans (update_self ..)
  · obtain ⟨notB, off⟩ := not_or.mp (mt mem_cons.mpr off)
    have notA : entry ≠ a := fun same => off (same ▸ mem_cons_self)
    have notLast : entry ≠ last := fun same => off (same ▸ isMember)
    simp [update_of_ne notA, update_of_ne notB, update_of_ne notLast]

theorem Ring.listDel_alone (ring : Ring links a []) :
    ∃ after, links.listDel a = some after ∧ Outside links after [a] := by
  have alone : Joined links a a := ring.path
  unfold Links.listDel
  rw [alone.prev, alone.next]
  refine ⟨_, rfl, fun entry off => ?_⟩
  have notA : entry ≠ a := fun same => off (mem_singleton.mpr same)
  simp [update_of_ne notA]

theorem Ring.listDel (ring : Ring links a (b :: rest)) :
    ∃ after, links.listDel a = some after ∧ Ring after b rest ∧
      Outside links after (a :: b :: rest) := by
  obtain ⟨offA, nodup⟩ := nodup_cons.mp ring.nodup
  obtain ⟨first, path⟩ := ring.path
  obtain ⟨last, isMember, joined, again⟩ := path.split_last nodup
  have other : ∀ entry ∈ b :: rest, entry ≠ a := fun entry inside same => offA (same ▸ inside)
  unfold Links.listDel
  rw [joined.prev, Option.bind_some, first.next]
  refine ⟨_, rfl, ⟨nodup, again ?_ ?_ ⟨?_, ?_⟩⟩, fun entry off => ?_⟩
  · intro entry inside notLast
    exact (update_of_ne (other entry inside) ..).trans (update_of_ne notLast ..)
  · intro entry inside
    have notB : entry ≠ b := fun same => (nodup_cons.mp nodup).1 (same ▸ inside)
    exact (update_of_ne (other entry (mem_cons_of_mem b inside)) ..).trans
      (update_of_ne notB ..)
  · exact (update_of_ne (other last isMember) ..).trans (update_self ..)
  · exact (update_of_ne (other b mem_cons_self) ..).trans (update_self ..)
  · obtain ⟨notA, off⟩ := not_or.mp (mt mem_cons.mpr off)
    have notB : entry ≠ b := fun same => off (same ▸ mem_cons_self)
    have notLast : entry ≠ last := fun same => off (same ▸ isMember)
    simp [update_of_ne notA, update_of_ne notB, update_of_ne notLast]

/-- Taking out one entry leaves the others, seen from any of them. -/
theorem Ring.remove (ring : Ring links a rest) (inside : b ∈ a :: rest) (kept : c ∈ a :: rest)
    (distinct : c ≠ b) :
    ∃ after others, links.listDel b = some after ∧ Ring after c others ∧
      (∀ entry, entry ∈ c :: others ↔ entry ∈ a :: rest ∧ entry ≠ b) ∧
      Outside links after (a :: rest) := by
  obtain ⟨others, started, members⟩ := ring.start inside
  cases others with
  | nil =>
    have only := (members c).mpr kept
    exact absurd (mem_singleton.mp only) distinct
  | cons d others =>
    obtain ⟨after, deleted, left, outside⟩ := started.listDel
    have offB := (nodup_cons.mp started.nodup).1
    have onlyLeft : ∀ entry, entry ∈ d :: others ↔ entry ∈ a :: rest ∧ entry ≠ b := by
      intro entry
      rw [← members entry]
      constructor
      · intro found
        exact ⟨mem_cons_of_mem b found, fun same => offB (same ▸ found)⟩
      · intro found
        exact (mem_cons.mp found.1).resolve_left found.2
    obtain ⟨more, final, same⟩ := left.start ((onlyLeft c).mpr ⟨kept, distinct⟩)
    refine ⟨after, more, deleted, final, fun entry => (same entry).trans (onlyLeft entry), ?_⟩
    intro entry off
    exact outside entry fun found => off ((members entry).mp found)

end MagxKernel.CircularList
