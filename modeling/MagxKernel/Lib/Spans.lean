import Mathlib.Algebra.GroupWithZero.Nat
import Mathlib.Data.List.Basic

namespace MagxKernel.Spans

open List

section Cover

variable {α : Type} (start size : α → Nat)

/-- The spans lie in order inside `[low, high)`, none of them empty and no two of
them overlapping. There may be gaps. -/
def Laid (high : Nat) : Nat → List α → Prop
  | low, [] => low ≤ high
  | low, span :: rest =>
      low ≤ start span ∧ 0 < size span ∧ Laid high (start span + size span) rest

/-- The spans cover `[low, high)` in order, without gap or overlap. -/
def Tiles (high : Nat) : Nat → List α → Prop
  | low, [] => low = high
  | low, span :: rest => start span = low ∧ 0 < size span ∧ Tiles high (low + size span) rest

/-- Where the last span ends. -/
def finish : Nat → List α → Nat
  | low, [] => low
  | _, span :: rest => finish (start span + size span) rest

/-- How much the spans cover together. -/
def total (spans : List α) : Nat := (spans.map size).sum

variable {start size}

@[simp] theorem total_nil : total size [] = 0 := rfl

@[simp] theorem total_cons (span : α) (rest : List α) :
    total size (span :: rest) = size span + total size rest := by
  simp [total]

@[simp] theorem total_append (first second : List α) :
    total size (first ++ second) = total size first + total size second := by
  simp [total]

theorem finish_append_singleton (low : Nat) (first : List α) (span : α) :
    finish start size low (first ++ [span]) = start span + size span := by
  induction first generalizing low with
  | nil => rfl
  | cons other rest ih => exact ih (start other + size other)

theorem laid_append {high low : Nat} {first second : List α} :
    Laid start size high low (first ++ second) ↔
      Laid start size (finish start size low first) low first ∧
        Laid start size high (finish start size low first) second := by
  induction first generalizing low with
  | nil => exact ⟨fun laid => ⟨Nat.le_refl low, laid⟩, And.right⟩
  | cons span rest ih =>
    simp only [cons_append, Laid, finish]
    rw [ih]
    simp only [and_assoc]

theorem Laid.raise {high higher low : Nat} {spans : List α}
    (laid : Laid start size high low spans) (grown : high ≤ higher) :
    Laid start size higher low spans := by
  induction spans generalizing low with
  | nil => exact Nat.le_trans laid grown
  | cons span rest ih => exact ⟨laid.1, laid.2.1, ih laid.2.2⟩

theorem Laid.lower {high low lower : Nat} {spans : List α}
    (laid : Laid start size high low spans) (less : lower ≤ low) :
    Laid start size high lower spans := by
  cases spans with
  | nil => exact Nat.le_trans less laid
  | cons span rest => exact ⟨Nat.le_trans less laid.1, laid.2⟩

section

variable {high low : Nat} {spans : List α} (laid : Laid start size high low spans)

include laid

theorem Laid.total_le : low + total size spans ≤ high := by
  induction spans generalizing low with
  | nil => exact laid
  | cons span rest ih =>
    have after := ih laid.2.2
    have before := laid.1
    rw [total_cons]
    omega

/-- Spans without overlap that cover as much as the range is long leave no gap. -/
theorem Laid.tiles (full : low + total size spans = high) : Tiles start size high low spans := by
  induction spans generalizing low with
  | nil => exact full
  | cons span rest ih =>
    have after := laid.2.2.total_le
    have before := laid.1
    rw [total_cons] at full
    have joined : start span = low := by omega
    have next := ih laid.2.2 (by omega)
    rw [joined] at next
    exact ⟨joined, laid.2.1, next⟩

theorem Laid.inside {span : α} (found : span ∈ spans) :
    low ≤ start span ∧ 0 < size span ∧ start span + size span ≤ high := by
  induction spans generalizing low with
  | nil => cases found
  | cons first rest ih =>
    have before := laid.1
    rcases mem_cons.mp found with rfl | later
    · have after := laid.2.2.total_le
      exact ⟨before, laid.2.1, by omega⟩
    · have inner := ih laid.2.2 later
      exact ⟨by omega, inner.2⟩

theorem Laid.pairwise :
    spans.Pairwise fun first second => start first + size first ≤ start second := by
  induction spans generalizing low with
  | nil => exact List.Pairwise.nil
  | cons span rest ih =>
    exact List.Pairwise.cons (fun second found => (laid.2.2.inside found).1) (ih laid.2.2)

end

theorem Laid.sublist {high low : Nat} {fewer spans : List α} (sub : fewer.Sublist spans)
    (laid : Laid start size high low spans) : Laid start size high low fewer := by
  induction sub generalizing low with
  | slnil => exact laid
  | cons span _ ih =>
    have later := ih laid.2.2
    exact later.lower (by have := laid.1; omega)
  | cons_cons span _ ih => exact ⟨laid.1, laid.2.1, ih laid.2.2⟩

end Cover

section Contents

variable {α β : Type} {start size : α → Nat} (contents : α → List β)

section

variable {high low : Nat} {spans : List α} (tiles : Tiles start size high low spans)
  (sized : ∀ span, (contents span).length = size span)

include tiles sized

theorem Tiles.length : low + (spans.flatMap contents).length = high := by
  induction spans generalizing low with
  | nil => exact tiles
  | cons span rest ih =>
    have after := ih tiles.2.2
    rw [flatMap_cons, length_append, sized]
    omega

/-- Each element of the joined contents is one of the span that covers its place. -/
theorem Tiles.element {place : Nat} (above : low ≤ place) (below : place < high) :
    ∃ span ∈ spans, start span ≤ place ∧ place < start span + size span ∧
      (spans.flatMap contents)[place - low]? = (contents span)[place - start span]? := by
  induction spans generalizing low with
  | nil =>
    have empty : low = high := tiles
    omega
  | cons span rest ih =>
    have first : start span = low := tiles.1
    have here := sized span
    rw [flatMap_cons]
    by_cases inside : place < low + size span
    · refine ⟨span, mem_cons_self, by omega, by omega, ?_⟩
      rw [first, getElem?_append_left (by omega)]
    · obtain ⟨other, found, lower, upper, same⟩ := ih tiles.2.2 (by omega)
      refine ⟨other, mem_cons_of_mem _ found, lower, upper, ?_⟩
      rw [getElem?_append_right (by omega), ← same]
      congr 1
      omega

end

end Contents

end MagxKernel.Spans
