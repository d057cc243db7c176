import MagxKernel.Lib.Runs
import MagxKernel.Idr.Remove

namespace MagxKernel.Idr

open RadixSlots Runs Function

variable {α : Type}

/-- What a tree with this many layers holds for an id. -/
def entriesOf (layers : Nat) (top : Ptr α) (id : Nat) : Option (Ptr α) :=
  if id < span layers then entry id (layers - 1) top else none

/-- The finite map of an idr: none for a free id. -/
def entries (state : State α) : Nat → Option (Ptr α) := entriesOf state.layers state.top

structure StateOk (state : State α) : Prop where
  layers_le : state.layers ≤ 6
  valid : Valid (state.layers - 1) state.top
  null_iff : state.top = .null ↔ state.layers = 0
  pool : PoolOk state.pool
  cache : ∀ p ∈ state.cache, Empty p

theorem shiftLeft_layers (layers : Nat) : 1 <<< (layers * idrBits) = span layers := by
  rw [Nat.one_shiftLeft, Nat.mul_comm]
  rfl

section Find

theorem findLoop_eq {id level : Nat} {ptr : Ptr α} (valid : Valid level ptr) :
    findLoop id (level + 1) ptr = some ((entry id level ptr).getD .null) := by
  induction level generalizing ptr with
  | zero =>
    cases ptr with
    | null => rfl
    | user value => exact absurd valid (by simp [Valid])
    | layer p =>
      have ok : LeafOk p := valid
      change some (p.ary (slotOf id 0)) = _
      cases bit : p.bitmap (slotOf id 0) with
      | true => simp [entry, bit]
      | false => simp [entry, bit, ok.clear _ bit]
  | succ level ih =>
    cases ptr with
    | null => rfl
    | user value => exact absurd valid (by simp [Valid])
    | layer p => exact ih (valid.2 _)

theorem StateOk.find_eq {state : State α} (ok : StateOk state) (id : UInt32) :
    idrFind state id = some ((entries state (id.toNat &&& maxIdMask)).getD .null) := by
  unfold idrFind entries entriesOf
  simp only [shiftLeft_layers]
  split
  · rw [if_neg (by omega)]
    rfl
  · rw [if_pos (by omega)]
    cases count : state.layers with
    | zero =>
      have null := ok.null_iff.mpr count
      rw [null, entry_null]
      rfl
    | succ level =>
      have valid := ok.valid
      rw [count] at valid
      exact findLoop_eq valid

end Find

section Grow

/-- The layers over the old top have a single entry at 0. -/
def Stack : Nat → Layer (Ptr α) → Prop
  | 0, _ => True
  | above + 1, p => (∀ slot, slot ≠ 0 → p.ary slot = .null) ∧
      ∀ below, p.ary 0 = .layer below → Stack above below

variable {p : Layer (Ptr α)}

theorem tearDown_ok {above : Nat} {pool : Pool α} (stack : Stack above p) (ok : PoolOk pool) :
    PoolOk (tearDown above p pool) := by
  induction above generalizing p pool with
  | zero => exact ok
  | succ above ih =>
    have blank : Blank (⟨fun _ => false, update p.ary 0 .null, 0⟩ : Layer (Ptr α)) := by
      refine ⟨fun _ => rfl, ?_, rfl⟩
      intro slot other
      exact (update_of_ne other _ p.ary).trans (stack.1 slot other)
    have freed := freeLayer_ok ok blank
    rw [tearDown]
    cases below : p.ary 0 with
    | null | user => exact freed
    | layer next => exact ih (stack.2 next below) freed

theorem replaced_push {new p : Layer (Ptr α)} (empty : Empty new) :
    Replaced new (pushLayer new p) 0 (.layer p) := by
  have null := empty.slots 0
  have bit := empty.bits 0
  unfold pushLayer
  cases full : p.isFull with
  | true =>
    refine ⟨rfl, ?_, fun other ne => update_of_ne ne _ new.bitmap, ?_⟩
    · rw [null, empty.count]
      rfl
    · exact (update_self 0 true new.bitmap).trans full.symm
  | false =>
    refine ⟨rfl, ?_, fun _ _ => rfl, ?_⟩
    · rw [null, empty.count]
      rfl
    · exact bit.trans full.symm

theorem slotOf_eq_zero_iff {id level : Nat} (small : id < span (level + 1)) :
    slotOf id level = 0 ↔ id < span level := by
  rw [Fin.ext_iff, slotOf_eq]
  change id / span level % 32 = 0 ↔ _
  have quotient : id / span level < 32 := by
    apply Nat.div_lt_of_lt_mul
    rwa [← span_succ]
  rw [Nat.mod_eq_of_lt quotient, Nat.div_eq_zero_iff]
  have positive := span_pos level
  omega

/-- A layer with a single entry at 0 holds what the entry holds. -/
theorem entriesOf_single {level : Nat} (others : ∀ slot, slot ≠ 0 → p.ary slot = .null) :
    entriesOf (level + 2) (.layer p) = entriesOf (level + 1) (p.ary 0) := by
  funext id
  change (if id < span (level + 2) then entry id level (p.ary (slotOf id (level + 1))) else none) =
    if id < span (level + 1) then entry id level (p.ary 0) else none
  have grows : span (level + 2) = span (level + 1) * 32 := span_succ (level + 1)
  split
  · rename_i wide
    by_cases narrow : id < span (level + 1)
    · rw [if_pos narrow, (slotOf_eq_zero_iff wide).mpr narrow]
    · have other : slotOf id (level + 1) ≠ 0 :=
        fun zero => narrow ((slotOf_eq_zero_iff wide).mp zero)
      rw [if_neg narrow, others _ other, entry_null]
  · rw [if_neg (by omega)]

theorem entriesOf_empty (empty : Empty p) (layers : Nat) :
    entriesOf layers (.layer p) = fun _ => none := by
  funext id
  unfold entriesOf
  rw [empty.entry, ite_self]

/-- Result of the loop that adds layers: the same ids, and room for the new one
unless there are too many layers. -/
structure Grown (id layers : Nat) (p : Layer (Ptr α)) (layers' : Nat) (p' : Layer (Ptr α)) :
    Prop where
  valid : Valid (layers' - 1) (.layer p')
  more : layers ≤ layers'
  bound : layers' ≤ 7
  same : entriesOf layers' (.layer p') = entriesOf layers (.layer p)
  room : layers' ≤ 6 → id < span layers'
  fits : layers ≤ 6 → id < span 6 → layers' ≤ 6

theorem growLoop_grown (id left layers above : Nat) (p : Layer (Ptr α)) (pool : Pool α)
    (some_layers : 1 ≤ layers) (total : layers + left = 7) (valid : Valid (layers - 1) (.layer p))
    (ok : PoolOk pool) (stack : Stack above p) :
    PoolOk (growLoop id left layers above p pool).2 ∧
      ∀ p' layers', (growLoop id left layers above p pool).1 = some (p', layers') →
        Grown id layers p layers' p' := by
  induction left generalizing layers above p pool with
  | zero =>
    refine ⟨ok, ?_⟩
    rintro p' layers' ⟨⟩
    exact ⟨valid, Nat.le_refl _, by omega, rfl, by omega, by omega⟩
  | succ left ih =>
    rw [growLoop, shiftLeft_layers]
    split
    · -- a grown tree is also grown from the one before
      have step : ∀ {q : Layer (Ptr α)} {p' : Layer (Ptr α)} {layers' : Nat},
          entriesOf (layers + 1) (.layer q) = entriesOf layers (.layer p) →
          Grown id (layers + 1) q layers' p' → Grown id layers p layers' p' := by
        intro q p' layers' same grown
        refine { grown with
          more := Nat.le_of_succ_le grown.more, same := grown.same.trans same, fits := ?_ }
        intro few fits
        apply grown.fits _ fits
        have less : layers ≠ 6 := by
          rintro rfl
          omega
        omega
      split
      · rename_i none
        have empty := empty_of_count valid none
        obtain ⟨ok', grown⟩ := ih (layers + 1) above p pool (by omega) (by omega) (empty.valid _) ok
          stack
        exact ⟨ok', fun p' layers' done =>
          step (by rw [entriesOf_empty empty, entriesOf_empty empty])
          (grown p' layers' done)⟩
      · cases allocated : allocLayer pool with
        | none =>
          refine ⟨tearDown_ok stack ok, ?_⟩
          rintro p' layers' ⟨⟩
        | some result =>
          obtain ⟨new, pool'⟩ := result
          obtain ⟨empty, ok'⟩ := allocLayer_ok ok allocated
          obtain ⟨level, rfl⟩ : ∃ level, layers = level + 1 := ⟨layers - 1, by omega⟩
          have replaced := @replaced_push _ new p empty
          have valid' : Valid (level + 1) (.layer (pushLayer new p)) :=
            replaced.valid (empty.valid (level + 1)) valid
          have stack' : Stack (above + 1) (pushLayer new p) := by
            refine ⟨?_, ?_⟩
            · intro slot other
              rw [replaced.ary_other other, empty.slots]
            · intro below top
              rw [replaced.ary_self] at top
              cases top
              exact stack
          obtain ⟨ok'', grown⟩ := ih (level + 2) (above + 1) (pushLayer new p) pool' (by omega)
            (by omega) valid' ok' stack'
          have same := @entriesOf_single _ _ level stack'.1
          rw [replaced.ary_self] at same
          exact ⟨ok'', fun p' layers' done => step same (grown p' layers' done)⟩
    · refine ⟨ok, ?_⟩
      rintro p' layers' ⟨⟩
      exact ⟨valid, Nat.le_refl _, by omega, rfl, fun _ => by omega, fun few _ => few⟩

end Grow

end MagxKernel.Idr
