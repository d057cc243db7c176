import Mathlib.Data.Option.Basic

namespace MagxKernel.Runs

variable {σ ι : Type}

/-- Execute a list of operations. A step without a result (a failed assertion
or an access outside an object) stops the whole run. -/
def run (step : σ → ι → Option σ) : σ → List ι → Option σ
  | state, [] => some state
  | state, op :: ops => (step state op).bind fun next => run step next ops

/-- Every operation of the list meets `allowed` in the state it is applied to. -/
def Along (step : σ → ι → Option σ) (allowed : σ → ι → Prop) : σ → List ι → Prop
  | _, [] => True
  | state, op :: ops =>
      allowed state op ∧ ∀ next, step state op = some next → Along step allowed next ops

variable {step : σ → ι → Option σ} {allowed : σ → ι → Prop} {invariant : σ → Prop}

instance decidableAlong [∀ state op, Decidable (allowed state op)] :
    (state : σ) → (ops : List ι) → Decidable (Along step allowed state ops)
  | _, [] => isTrue trivial
  | state, op :: ops =>
      match found : step state op with
      | none => decidable_of_iff (allowed state op) (by simp [Along, found])
      | some next =>
          have : Decidable (Along step allowed next ops) := decidableAlong next ops
          decidable_of_iff (allowed state op ∧ Along step allowed next ops)
            (by simp [Along, found])

@[simp] theorem run_nil (state : σ) : run step state [] = some state := rfl

theorem run_cons (state : σ) (op : ι) (ops : List ι) :
    run step state (op :: ops) = (step state op).bind fun next => run step next ops := rfl

theorem run_append (state : σ) (first second : List ι) :
    run step state (first ++ second) =
      (run step state first).bind fun middle => run step middle second := by
  induction first generalizing state with
  | nil => rfl
  | cons op ops ih =>
    simp only [List.cons_append, run_cons, ih]
    cases step state op with
    | none | some next => rfl

theorem along_of_forall (always : ∀ state op, allowed state op) (ops : List ι) (state : σ) :
    Along step allowed state ops := by
  induction ops generalizing state with
  | nil => trivial
  | cons op ops ih => exact ⟨always state op, fun next _ => ih next⟩

theorem Along.imp {looser : σ → ι → Prop} {ops : List ι} {state : σ}
    (permitted : Along step allowed state ops)
    (weaker : ∀ state op, allowed state op → looser state op) : Along step looser state ops := by
  induction ops generalizing state with
  | nil => trivial
  | cons op ops ih =>
    exact ⟨weaker state op permitted.1, fun next stepped => ih (permitted.2 next stepped)⟩

/-- A step lemma that gives the result of every permitted step carries over to whole runs. -/
theorem run_total
    (steps : ∀ state op, invariant state → allowed state op →
      ∃ next, step state op = some next ∧ invariant next)
    (ops : List ι) (state : σ) (start : invariant state)
    (permitted : Along step allowed state ops) :
    ∃ final, run step state ops = some final ∧ invariant final := by
  induction ops generalizing state with
  | nil => exact ⟨state, rfl, start⟩
  | cons op ops ih =>
    obtain ⟨next, stepped, sound⟩ := steps state op start permitted.1
    obtain ⟨final, executed, ends⟩ := ih next sound (permitted.2 next stepped)
    exact ⟨final, by rw [run_cons, stepped]; exact executed, ends⟩

/-- What every permitted step preserves holds at the end of every permitted run. -/
theorem run_invariant
    (preserves : ∀ state op next, invariant state → allowed state op → step state op = some next →
      invariant next)
    (ops : List ι) (state final : σ) (start : invariant state)
    (permitted : Along step allowed state ops) (executed : run step state ops = some final) :
    invariant final := by
  induction ops generalizing state with
  | nil =>
    obtain rfl : state = final := by simpa using executed
    exact start
  | cons op ops ih =>
    obtain ⟨next, stepped, rest⟩ := Option.bind_eq_some_iff.mp executed
    exact ih next (preserves state op next start permitted.1 stepped)
      (permitted.2 next stepped) rest

variable {τ : Type} {abstractStep : τ → ι → τ → Prop} {related : σ → τ → Prop}

/-- Runs of a machine that is given as a relation. -/
def Reaches (abstractStep : τ → ι → τ → Prop) : τ → List ι → τ → Prop
  | state, [], final => final = state
  | state, op :: ops, final =>
      ∃ next, abstractStep state op next ∧ Reaches abstractStep next ops final

/-- Forward simulation: related states stay related along every run. -/
theorem run_simulates
    (simulates : ∀ state abstract op next, related state abstract → step state op = some next →
      ∃ abstract', abstractStep abstract op abstract' ∧ related next abstract')
    (ops : List ι) (state final : σ) (abstract : τ) (start : related state abstract)
    (executed : run step state ops = some final) :
    ∃ last, Reaches abstractStep abstract ops last ∧ related final last := by
  induction ops generalizing state abstract with
  | nil =>
    obtain rfl : state = final := by simpa using executed
    exact ⟨abstract, rfl, start⟩
  | cons op ops ih =>
    obtain ⟨next, stepped, rest⟩ := Option.bind_eq_some_iff.mp executed
    obtain ⟨middle, moved, related'⟩ := simulates state abstract op next start stepped
    obtain ⟨last, reaches, ends⟩ := ih next middle related' rest
    exact ⟨last, ⟨middle, moved, reaches⟩, ends⟩

variable {ο : Type}

/-- Execute a list of operations that all have a result, and collect the results. -/
def trace (act : σ → ι → σ × ο) : σ → List ι → σ × List ο
  | state, [] => (state, [])
  | state, op :: ops =>
      let rest := trace act (act state op).1 ops
      (rest.1, (act state op).2 :: rest.2)

/-- Two machines that answer alike from related states answer alike for ever. -/
theorem trace_refines {act : σ → ι → σ × ο} {abstractAct : τ → ι → τ × ο}
    (refines : ∀ state abstract op, related state abstract →
      related (act state op).1 (abstractAct abstract op).1 ∧
        (act state op).2 = (abstractAct abstract op).2)
    (ops : List ι) (state : σ) (abstract : τ) (start : related state abstract) :
    related (trace act state ops).1 (trace abstractAct abstract ops).1 ∧
      (trace act state ops).2 = (trace abstractAct abstract ops).2 := by
  induction ops generalizing state abstract with
  | nil => exact ⟨start, rfl⟩
  | cons op ops ih =>
    have moved := refines state abstract op start
    have rest := ih (act state op).1 (abstractAct abstract op).1 moved.1
    exact ⟨rest.1, List.cons_eq_cons.mpr ⟨moved.2, rest.2⟩⟩

end MagxKernel.Runs
