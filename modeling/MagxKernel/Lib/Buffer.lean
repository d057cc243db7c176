import Mathlib.Data.List.Basic

namespace MagxKernel.Buffer

open List

variable {α : Type}

/-- Read an element. No result stands for a read outside the buffer. -/
def load (buffer : List α) (index : Int) : Option α :=
  if 0 ≤ index then buffer[index.toNat]? else none

/-- Write an element. No result stands for a write outside the buffer. -/
def store (buffer : List α) (index : Int) (value : α) : Option (List α) :=
  if 0 ≤ index ∧ index < buffer.length then some (buffer.set index.toNat value) else none

/-- The buffers hold the same first `count` elements. -/
def Agree (count : Nat) (first second : List α) : Prop :=
  ∀ index < count, first[index]? = second[index]?

@[simp] theorem load_natCast (buffer : List α) (index : Nat) :
    load buffer index = buffer[index]? :=
  if_pos (Int.natCast_nonneg index)

variable {buffer first second : List α} {index count : Nat}

theorem load_eq_some (inside : index < buffer.length) : load buffer index = some buffer[index] := by
  rw [load_natCast, getElem?_eq_getElem inside]

theorem store_eq_some (value : α) (inside : index < buffer.length) :
    store buffer index value = some (buffer.set index value) :=
  if_pos ⟨Int.natCast_nonneg index, Int.ofNat_lt.mpr inside⟩

theorem store_eq_none (value : α) (outside : buffer.length ≤ index) :
    store buffer index value = none :=
  if_neg fun within => by omega

theorem Agree.refl (count : Nat) (buffer : List α) : Agree count buffer buffer :=
  fun _ _ => rfl

theorem Agree.trans {third : List α} (left : Agree count first second)
    (right : Agree count second third) : Agree count first third :=
  fun index below => (left index below).trans (right index below)

variable (agree : Agree count first second)

include agree

theorem Agree.less {fewer : Nat} (order : fewer ≤ count) : Agree fewer first second :=
  fun index below => agree index (Nat.lt_of_lt_of_le below order)

theorem Agree.set {place : Nat} (value : α) (behind : count ≤ place) :
    Agree count (first.set place value) second := by
  intro index below
  rw [getElem?_set_ne (by omega)]
  exact agree index below

theorem Agree.snoc {value : α} (inside : count < first.length)
    (next : second[count]? = some value) :
    Agree (count + 1) (first.set count value) second := by
  intro index below
  by_cases here : index = count
  · rw [here, getElem?_set_self inside, next]
  · rw [getElem?_set_ne (Ne.symm here)]
    exact agree index (by omega)

theorem Agree.take (size : first.length = count) : first = second.take count := by
  apply ext_getElem?
  intro index
  by_cases below : index < count
  · rw [agree index below, getElem?_take_of_lt below]
  · rw [getElem?_eq_none (by omega), getElem?_eq_none]
    rw [length_take]
    omega

end MagxKernel.Buffer
