import Mathlib.Data.List.Basic

namespace MagxKernel.IntervalMap

open List

variable {κ : Type}

/-- All integers from `first` to `last` carry `tag`. -/
structure Span (κ : Type) where
  tag : κ
  first : Int
  last : Int
deriving DecidableEq

/-- The order of a normalised list: disjoint, and not even adjacent when the
tags agree. -/
def Span.Before (left right : Span κ) : Prop :=
  left.last < right.first ∧ (left.tag = right.tag → left.last + 1 < right.first)

/-- Normal form of a partial map from integers to tags. -/
structure Normal (spans : List (Span κ)) : Prop where
  ordered : spans.Pairwise Span.Before
  nonempty : ∀ span ∈ spans, span.first ≤ span.last

/-- The map that a list of spans stands for. -/
def tagAt (spans : List (Span κ)) (position : Int) : Option κ :=
  (spans.find? fun span => decide (span.first ≤ position ∧ position ≤ span.last)).map Span.tag

/-- The span of an assignment; nothing is stored for an erased range. -/
def emit (tag : Option κ) (first last : Int) : List (Span κ) :=
  match tag with
  | none => []
  | some tag => [⟨tag, first, last⟩]

theorem tagAt_cons (span : Span κ) (spans : List (Span κ)) (position : Int) :
    tagAt (span :: spans) position =
      if span.first ≤ position ∧ position ≤ span.last then some span.tag
      else tagAt spans position := by
  unfold tagAt
  by_cases covered : span.first ≤ position ∧ position ≤ span.last <;> simp [covered]

theorem tagAt_below (spans : List (Span κ)) (position : Int)
    (below : ∀ span ∈ spans, position < span.first) : tagAt spans position = none := by
  induction spans with
  | nil => rfl
  | cons span spans ih =>
    have here := below span (by simp)
    rw [tagAt_cons, if_neg (by omega)]
    exact ih (forall_mem_cons.mp below).2

theorem tagAt_emit (tag : Option κ) (first last : Int) (spans : List (Span κ)) (position : Int)
    (clear : first ≤ position → position ≤ last → tagAt spans position = none) :
    tagAt (emit tag first last ++ spans) position =
      if first ≤ position ∧ position ≤ last then tag else tagAt spans position := by
  cases tag with
  | none =>
    split
    · rename_i inside
      exact clear inside.1 inside.2
    · rfl
  | some tag => simp only [emit, singleton_append, tagAt_cons]

variable {span : Span κ} {spans : List (Span κ)}

theorem Normal.tail (normal : Normal (span :: spans)) :
    Normal spans :=
  ⟨(pairwise_cons.mp normal.ordered).2, (forall_mem_cons.mp normal.nonempty).2⟩

theorem Normal.before (normal : Normal (span :: spans)) (other : Span κ) (member : other ∈ spans) :
    span.Before other :=
  (pairwise_cons.mp normal.ordered).1 other member

theorem Normal.cons (normal : Normal spans) (nonempty : span.first ≤ span.last)
    (before : ∀ other ∈ spans, span.Before other) :
    Normal (span :: spans) := by
  refine ⟨pairwise_cons.mpr ⟨before, normal.ordered⟩, ?_⟩
  exact forall_mem_cons.mpr ⟨nonempty, normal.nonempty⟩

theorem Normal.starts (normal : Normal (span :: spans)) {bound : Int} (here : bound ≤ span.first) :
    ∀ other ∈ span :: spans, bound ≤ other.first := by
  have nonempty := normal.nonempty span (by simp)
  refine forall_mem_cons.mpr ⟨here, fun other member => ?_⟩
  have after := (normal.before other member).1
  omega

/-- What stays of a span behind a place inside it. -/
theorem Normal.upper (normal : Normal (span :: spans)) {last : Int} (ends : last < span.last) :
    Normal ({ span with first := last + 1 } :: spans) :=
  normal.tail.cons ends normal.before

theorem Normal.behind (normal : Normal (span :: spans)) {tag : Option κ} {last : Int}
    (here : last < span.first ∧ (some span.tag = tag → last + 1 < span.first)) :
    ∀ other ∈ span :: spans, last < other.first ∧
      (some other.tag = tag → last + 1 < other.first) := by
  have nonempty := normal.nonempty span (by simp)
  refine forall_mem_cons.mpr ⟨here, fun other member => ?_⟩
  have after := (normal.before other member).1
  exact ⟨by omega, fun _ => by omega⟩

/-- Everything a consumer of `absorb` needs: the grown end, the remainder and
the map on both sides of that end. -/
structure Absorbed (tag : Option κ) (last : Int) (spans : List (Span κ)) (reached : Int)
    (rest : List (Span κ)) : Prop where
  grown : last ≤ reached
  normal : Normal rest
  behind : ∀ span ∈ rest, reached < span.first ∧ (some span.tag = tag → reached + 1 < span.first)
  origin : ∀ span ∈ rest, ∃ old ∈ spans, span.tag = old.tag ∧ old.first ≤ span.first ∧
    span.last = old.last
  bounded : ∀ bound, last ≤ bound → (∀ span ∈ spans, span.last ≤ bound) → reached ≤ bound
  swallowed : ∀ position, last < position → position ≤ reached → tagAt spans position = tag
  kept : ∀ position, reached < position → tagAt rest position = tagAt spans position

theorem absorb_stop (tag : Option κ) (last : Int) (spans : List (Span κ)) (normal : Normal spans)
    (behind : ∀ span ∈ spans, last < span.first ∧ (some span.tag = tag → last + 1 < span.first)) :
    Absorbed tag last spans last spans :=
  ⟨Int.le_refl last, normal, behind, fun span member => ⟨span, member, rfl, Int.le_refl _, rfl⟩,
    fun _ small _ => small, fun _ _ _ => by omega, fun _ _ => rfl⟩

/-- What an assignment to `[first, last]` makes of a normalised list. -/
structure Assigned (tag : Option κ) (first last : Int) (spans result : List (Span κ)) : Prop where
  normal : Normal result
  origin : ∀ span ∈ result, (∃ old ∈ spans, span.tag = old.tag ∧ old.first ≤ span.first) ∨
    (some span.tag = tag ∧ first ≤ span.first)
  bounded : ∀ bound, last ≤ bound → (∀ span ∈ spans, span.last ≤ bound) →
    ∀ span ∈ result, span.last ≤ bound
  maps : ∀ position, tagAt result position =
    if first ≤ position ∧ position ≤ last then tag else tagAt spans position

section

variable {tag : Option κ}

variable {first last : Int} {span : Span κ} {spans result : List (Span κ)}

theorem mem_emit (member : span ∈ emit tag first last) :
    some span.tag = tag ∧ span.first = first ∧ span.last = last := by
  cases tag with
  | none => simp [emit] at member
  | some tag =>
    simp only [emit, mem_singleton] at member
    subst member
    exact ⟨rfl, rfl, rfl⟩

/-- The assigned span in front of what it left over. -/
theorem Absorbed.assigned {reached : Int} {rest : List (Span κ)}
    (absorbed : Absorbed tag last spans reached rest) (nonempty : first ≤ last)
    (after : ∀ span ∈ spans, first ≤ span.first) :
    Assigned tag first last spans (emit tag first reached ++ rest) := by
  have grown := absorbed.grown
  refine ⟨?_, ?_, ?_, ?_⟩
  · cases tag with
    | none => exact absorbed.normal
    | some tag =>
      apply absorbed.normal.cons
      · dsimp only
        omega
      · intro other member
        obtain ⟨apart, strict⟩ := absorbed.behind other member
        exact ⟨apart, fun same => strict (congrArg some same.symm)⟩
  · intro span member
    rcases mem_append.mp member with new | old
    · obtain ⟨same, start, _⟩ := mem_emit new
      exact .inr ⟨same, by omega⟩
    · obtain ⟨source, member, same, start, _⟩ := absorbed.origin span old
      exact .inl ⟨source, member, same, start⟩
  · intro bound small all span member
    rcases mem_append.mp member with new | old
    · rw [(mem_emit new).2.2]
      exact absorbed.bounded bound small all
    · obtain ⟨source, member, _, _, ends⟩ := absorbed.origin span old
      rw [ends]
      exact all source member
  · intro position
    have clear : position ≤ reached → tagAt rest position = none := by
      intro inside
      apply tagAt_below
      intro other member
      have apart := (absorbed.behind other member).1
      omega
    rw [tagAt_emit tag first reached rest position (fun _ => clear)]
    by_cases below : position < first
    · rw [if_neg (by omega), if_neg (by omega), clear (by omega)]
      symm
      apply tagAt_below
      intro other member
      have start := after other member
      omega
    by_cases inside : position ≤ last
    · rw [if_pos (by omega), if_pos (by omega)]
    by_cases swallowed : position ≤ reached
    · rw [if_pos (by omega), if_neg (by omega)]
      exact (absorbed.swallowed position (by omega) swallowed).symm
    · rw [if_neg (by omega), if_neg (by omega)]
      exact absorbed.kept position (by omega)

theorem Assigned.skip (assigned : Assigned tag first last spans result)
    (normal : Normal (span :: spans))
    (before : span.last < first ∧ (some span.tag = tag → span.last + 1 < first)) :
    Assigned tag first last (span :: spans) (span :: result) := by
  refine ⟨?_, ?_, ?_, ?_⟩
  · apply assigned.normal.cons (normal.nonempty span (by simp))
    intro other member
    rcases assigned.origin other member with ⟨old, source, same, start⟩ | ⟨same, start⟩
    · obtain ⟨apart, strict⟩ := normal.before old source
      exact ⟨by omega, fun equal => by have := strict (equal.trans same); omega⟩
    · exact ⟨by omega, fun equal => by have := before.2 (equal ▸ same); omega⟩
  · intro other member
    rcases mem_cons.mp member with rfl | member
    · exact .inl ⟨other, by simp, rfl, Int.le_refl _⟩
    · exact (assigned.origin other member).imp_left fun ⟨old, source, facts⟩ =>
        ⟨old, by simp [source], facts⟩
  · intro bound small all other member
    rcases mem_cons.mp member with rfl | member
    · exact all other (by simp)
    · exact assigned.bounded bound small (forall_mem_cons.mp all).2 other member
  · intro position
    rw [tagAt_cons, tagAt_cons, assigned.maps]
    by_cases covered : span.first ≤ position ∧ position ≤ span.last
    · rw [if_pos covered, if_neg (by omega), if_pos covered]
    · rw [if_neg covered, if_neg covered]

/-- Only what stays of a span outside the range matters. -/
theorem Assigned.whole (pieces : List (Span κ))
    (assigned : Assigned tag first last (pieces ++ spans) result)
    (part : ∀ piece ∈ pieces, piece.tag = span.tag ∧ span.first ≤ piece.first ∧
      (piece.last ≤ last ∨ piece.last ≤ span.last))
    (maps : ∀ position, ¬(first ≤ position ∧ position ≤ last) →
      tagAt (pieces ++ spans) position = tagAt (span :: spans) position) :
    Assigned tag first last (span :: spans) result := by
  refine ⟨assigned.normal, ?_, ?_, ?_⟩
  · intro other member
    rcases assigned.origin other member with ⟨old, source, same, start⟩ | new
    · rcases mem_append.mp source with piece | source
      · obtain ⟨tag_eq, starts, _⟩ := part old piece
        exact .inl ⟨span, by simp, same.trans tag_eq, Int.le_trans starts start⟩
      · exact .inl ⟨old, by simp [source], same, start⟩
    · exact .inr new
  · intro bound small all
    apply assigned.bounded bound small
    refine forall_mem_append.mpr ⟨fun piece member => ?_, fun old source => ?_⟩
    · have whole := all span (by simp)
      have ends := (part piece member).2.2
      omega
    · exact all old (by simp [source])
  · intro position
    rw [assigned.maps]
    split
    next => rfl
    next outside => exact maps position outside

section

variable (normal : Normal (span :: spans)) (nonempty : first ≤ last) (starts : span.first < first)
  (different : some span.tag ≠ tag)

include normal nonempty starts different

/-- A span that begins in front of the range loses its end to it. -/
theorem Assigned.cut (assigned : Assigned tag first last spans result)
    (overlaps : first ≤ span.last) (ends : span.last ≤ last) :
    Assigned tag first last (span :: spans) ({ span with last := first - 1 } :: result) := by
  have shorter : Normal ({ span with last := first - 1 } :: spans) := by
    apply normal.tail.cons
    · dsimp only
      omega
    · intro other member
      have before := (normal.before other member).1
      exact ⟨by dsimp only; omega, fun _ => by dsimp only; omega⟩
  have rest := assigned.skip shorter ⟨by dsimp only; omega, fun same => absurd same different⟩
  apply Assigned.whole [{ span with last := first - 1 }] rest
  · exact forall_mem_singleton.mpr ⟨rfl, Int.le_refl _, .inl (by dsimp only; omega)⟩
  · intro position outside
    rw [singleton_append, tagAt_cons, tagAt_cons]
    dsimp only
    split
    · rw [if_pos (by omega)]
    · rw [if_neg (by omega)]

/-- The assignment lies strictly inside a span of another tag. -/
theorem assigned_split (ends : last < span.last) :
    Assigned tag first last (span :: spans) ({ span with last := first - 1 } ::
      (emit tag first last ++ { span with first := last + 1 } :: spans)) := by
  have upper := normal.upper ends
  have right : Assigned tag first last ({ span with first := last + 1 } :: spans)
      (emit tag first last ++ { span with first := last + 1 } :: spans) := by
    apply (absorb_stop tag last _ upper ?_).assigned nonempty
    · exact upper.starts (by dsimp only; omega)
    · exact upper.behind ⟨by dsimp only; omega, fun same => absurd same different⟩
  have lower : Normal ({ span with last := first - 1 } :: { span with first := last + 1 } ::
      spans) := by
    apply upper.cons
    · dsimp only
      omega
    · intro other member
      have before := upper.starts (Int.le_refl _) other member
      exact ⟨by dsimp only at *; omega, fun _ => by dsimp only at *; omega⟩
  have both := right.skip lower ⟨by dsimp only; omega, fun same => absurd same different⟩
  apply Assigned.whole [{ span with last := first - 1 }, { span with first := last + 1 }] both
  · refine forall_mem_cons.mpr ⟨⟨rfl, Int.le_refl _, .inl (by dsimp only; omega)⟩, ?_⟩
    exact forall_mem_singleton.mpr ⟨rfl, by dsimp only; omega, .inr (Int.le_refl _)⟩
  · intro position outside
    simp only [cons_append, nil_append, tagAt_cons]
    by_cases covered : span.first ≤ position ∧ position ≤ span.last
    · rw [if_pos covered]
      by_cases left : position < first
      · rw [if_pos (by omega)]
      · rw [if_neg (by omega), if_pos (by omega)]
    · rw [if_neg covered, if_neg (by omega), if_neg (by omega)]

end

/-- A span of the assigned tag that the range meets or touches is merged into it. -/
theorem Assigned.merge
    (assigned : Assigned tag (min first span.first) (max last span.last) spans result)
    (same : some span.tag = tag) (left : first - 1 ≤ span.last) (right : span.first ≤ last + 1) :
    Assigned tag first last (span :: spans) result := by
  refine ⟨assigned.normal, ?_, ?_, ?_⟩
  · intro other member
    rcases assigned.origin other member with ⟨old, source, facts⟩ | ⟨new, start⟩
    · exact .inl ⟨old, by simp [source], facts⟩
    · by_cases after : first ≤ other.first
      · exact .inr ⟨new, after⟩
      · exact .inl ⟨span, by simp, Option.some.inj (new.trans same.symm), by omega⟩
  · intro bound small all
    have ends := all span (by simp)
    exact assigned.bounded bound (by omega) (forall_mem_cons.mp all).2
  · intro position
    rw [assigned.maps, tagAt_cons]
    by_cases inside : first ≤ position ∧ position ≤ last
    · rw [if_pos (by omega), if_pos inside]
    by_cases covered : span.first ≤ position ∧ position ≤ span.last
    · rw [if_pos (by omega), if_neg inside, if_pos covered, same]
    · rw [if_neg (by omega), if_neg inside, if_neg covered]

end

section Assign

variable [DecidableEq κ]

/-- Swallow the spans after an assignment that ends at `last`: the end it grows
to and what remains behind it. -/
def absorb (tag : Option κ) (last : Int) : List (Span κ) → Int × List (Span κ)
  | [] => (last, [])
  | span :: spans =>
    if some span.tag = tag then
      if last + 1 < span.first then (last, span :: spans)
      else absorb tag (max last span.last) spans
    else if last < span.first then (last, span :: spans)
    else if last < span.last then (last, { span with first := last + 1 } :: spans)
    else absorb tag last spans

/-- An assignment that begins in front of all spans. -/
def assignFront (tag : Option κ) (first last : Int) (spans : List (Span κ)) : List (Span κ) :=
  emit tag first (absorb tag last spans).1 ++ (absorb tag last spans).2

/-- Overwrite `[first, last]` in a normalised list. -/
def assign (tag : Option κ) (first last : Int) : List (Span κ) → List (Span κ)
  | [] => emit tag first last
  | span :: spans =>
    if some span.tag = tag then
      if span.last < first - 1 then span :: assign tag first last spans
      else if last + 1 < span.first then emit tag first last ++ span :: spans
      else
        let (reached, rest) := absorb tag (max last span.last) spans
        emit tag (min first span.first) reached ++ rest
    else if span.last < first then span :: assign tag first last spans
    else if span.first < first then
      { span with last := first - 1 } ::
        if last < span.last then
          emit tag first last ++ { span with first := last + 1 } :: spans
        else
          let (reached, rest) := absorb tag last spans
          emit tag first reached ++ rest
    else
      let (reached, rest) := absorb tag last (span :: spans)
      emit tag first reached ++ rest

/-- Nothing stays in front of a range that begins before all spans. -/
theorem assign_of_le {tag : Option κ} {first last : Int} (nonempty : span.first ≤ span.last)
    (after : first ≤ span.first) :
    assign tag first last (span :: spans) = assignFront tag first last (span :: spans) := by
  rw [assign]
  split
  · rename_i same
    rw [assignFront, absorb, if_pos same, if_neg (by omega), Int.min_eq_left after]
    split <;> rfl
  · rw [if_neg (by omega), if_neg (by omega)]
    rfl

theorem absorb_spec (tag : Option κ) (last : Int) (spans : List (Span κ)) (normal : Normal spans) :
    Absorbed tag last spans (absorb tag last spans).1 (absorb tag last spans).2 := by
  induction spans generalizing last with
  | nil => exact absorb_stop tag last [] normal (by simp)
  | cons span spans ih =>
    have stop : (last < span.first ∧ (some span.tag = tag → last + 1 < span.first)) →
        Absorbed tag last (span :: spans) last (span :: spans) :=
      fun apart => absorb_stop tag last _ normal (normal.behind apart)
    -- a span is dropped once the assignment reaches its end
    have drop : ∀ grown, last ≤ grown → span.last ≤ grown → (grown ≤ last ∨ grown ≤ span.last) →
        (∀ position, last < position → position ≤ grown → some span.tag = tag ∧
          span.first ≤ position) →
        Absorbed tag last (span :: spans) (absorb tag grown spans).1
          (absorb tag grown spans).2 := by
      intro grown more covers tight between
      have rest := ih grown normal.tail
      refine ⟨Int.le_trans more rest.grown, rest.normal, rest.behind, ?_, ?_, ?_, ?_⟩
      · intro other member
        obtain ⟨old, source, facts⟩ := rest.origin other member
        exact ⟨old, mem_cons_of_mem span source, facts⟩
      · intro bound small all
        apply rest.bounded bound
        · have ends := all span (by simp)
          omega
        · exact (forall_mem_cons.mp all).2
      · intro position above reached
        by_cases inner : position ≤ grown
        · obtain ⟨same, starts⟩ := between position above inner
          rw [tagAt_cons, if_pos (by omega)]
          exact same
        · rw [tagAt_cons, if_neg (by omega)]
          exact rest.swallowed position (by omega) reached
      · intro position beyond
        have reach := rest.grown
        rw [tagAt_cons, if_neg (by omega)]
        exact rest.kept position beyond
    rw [absorb]
    split
    · rename_i same
      split
      · rename_i apart
        exact stop ⟨by omega, fun _ => apart⟩
      · apply drop (max last span.last) (by omega) (by omega) (by omega)
        intro position above inner
        exact ⟨same, by omega⟩
    · rename_i different
      split
      · rename_i apart
        exact stop ⟨apart, fun same => absurd same different⟩
      split
      · rename_i ends
        refine ⟨Int.le_refl last, normal.upper ends, ?_, ?_, fun _ small _ => small,
          fun _ _ _ => by omega, ?_⟩
        · apply (normal.upper ends).behind
          exact ⟨by dsimp only; omega, fun same => absurd same different⟩
        · intro other member
          rcases mem_cons.mp member with rfl | member
          · exact ⟨span, by simp, rfl, by dsimp only; omega, rfl⟩
          · exact ⟨other, by simp [member], rfl, Int.le_refl _, rfl⟩
        · intro position beyond
          rw [tagAt_cons, tagAt_cons]
          dsimp only
          by_cases inside : position ≤ span.last
          · rw [if_pos (by omega), if_pos (by omega)]
          · rw [if_neg (by omega), if_neg (by omega)]
      · apply drop last (Int.le_refl last) (by omega) (by omega)
        intro position above inner
        omega

/-- An assignment keeps the normal form and overwrites exactly its range. -/
theorem assign_spec (tag : Option κ) (first last : Int) (spans : List (Span κ))
    (normal : Normal spans) (nonempty : first ≤ last) :
    Assigned tag first last spans (assign tag first last spans) := by
  induction spans with
  | nil =>
    have alone := (absorb_stop tag last [] normal (by simp)).assigned nonempty (by simp)
    rw [append_nil] at alone
    exact alone
  | cons span spans ih =>
    have later : ∀ other ∈ spans, span.last < other.first :=
      fun other member => (normal.before other member).1
    by_cases inner : first ≤ span.first
    · rw [assign_of_le (normal.nonempty span (by simp)) inner]
      exact (absorb_spec tag last _ normal).assigned nonempty (normal.starts inner)
    rw [assign]
    split
    · rename_i same
      split
      · exact (ih normal.tail).skip normal ⟨by omega, fun _ => by omega⟩
      rw [if_neg (by omega)]
      · apply Assigned.merge _ same (by omega) (by omega)
        apply (absorb_spec tag _ spans normal.tail).assigned (by omega)
        intro other member
        have after := later other member
        omega
    · rename_i different
      split
      · rename_i before
        exact (ih normal.tail).skip normal ⟨before, fun same => absurd same different⟩
      split
      · rename_i starts
        split
        · rename_i ends
          exact assigned_split normal nonempty starts different ends
        · apply Assigned.cut normal nonempty starts different _ (by omega) (by omega)
          apply (absorb_spec tag last spans normal.tail).assigned nonempty
          intro other member
          have after := later other member
          omega
      · omega

end Assign

end MagxKernel.IntervalMap
