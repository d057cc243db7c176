import MagxKernel.SysvSem.UpdateQueue

namespace MagxKernel.SysvSem

open Function List

/-- For each undo list and semaphore the negated sum of the `SEM_UNDO` operations since
the last reset, as an integer. -/
abbrev Books := UndoId → Nat → Int

/-- The sum of the `SEM_UNDO` operations of an array on one semaphore. -/
def undoSum (num : Nat) : List Sembuf → Int
  | [] => 0
  | sop :: sops =>
      (if sop.semUndo ∧ sop.semNum = num then sop.semOp.toInt else 0) + undoSum num sops

/-- A completed array goes into the books of its undo list. -/
def post (books : Books) (un : Option UndoId) (sops : List Sembuf) : Books :=
  fun u num => if un = some u then books u num - undoSum num sops else books u num

/-- The calls of `try_atomic_semop` in a scan of `update_queue`, each with the set it finds. -/
def scanned : List SemQueue → SemArray → List (SemArray × SemQueue)
  | [], _ => []
  | q :: queue, sma =>
      (sma, q) :: scanned queue
        (if (attempt sma q).1 ≤ 0 then complete sma q else (attempt sma q).2)

/-- The calls of `try_atomic_semop` that one operation makes. -/
def tried (sma : SemArray) : Op → List (SemArray × SemQueue)
  | .semop task undoList pid sops =>
      let (un, found) := semopUndo sma undoList sops
      if sops.length < 1 ∨ semopm < sops.length ∨ found.semNsems ≤ maxNum sops then []
      else
        let (error, next) := tryAtomicSemop found sops un pid
        (found, ⟨task, un, pid, sops⟩) ::
          if error ≤ 0 ∧ alters sops then scanned next.semPending next else []
  | .interrupt _ => []
  | .setval semnum value pid =>
      if sma.semNsems ≤ semnum ∨ semvmx < value ∨ value < 0 then []
      else scanned sma.semPending (setvalAssign sma semnum value pid)
  | .setall semIo =>
      if ∃ num < sma.semNsems, semvmx < semIo num then []
      else scanned sma.semPending (setallAssign sma semIo)
  | .exit u pid =>
      if u ∈ sma.undo then scanned sma.semPending (exitAssign sma u pid) else []

/-- What an operation resets before it calls `try_atomic_semop`: `find_undo` begins new
books, `SETVAL` and `SETALL` clear the adjustments of a semaphore. -/
def reset (sma : SemArray) (books : Books) : Op → Books
  | .semop _ undoList _ sops =>
      if 1 ≤ sops.length ∧ sops.length ≤ semopm ∧ sops.any (·.semUndo) ∧ undoList ∉ sma.undo then
        Function.update books undoList fun _ => 0
      else books
  | .interrupt _ => books
  | .setval semnum value _ =>
      if sma.semNsems ≤ semnum ∨ semvmx < value ∨ value < 0 then books
      else fun u num => if num = semnum then 0 else books u num
  | .setall semIo =>
      if ∃ num < sma.semNsems, semvmx < semIo num then books
      else fun u num => if num < sma.semNsems then 0 else books u num
  | .exit _ _ => books

def postTried (books : Books) (call : SemArray × SemQueue) : Books :=
  if (attempt call.1 call.2).1 = 0 then post books call.2.undo call.2.sops else books

/-- A semaphore set with the books of its undo lists. -/
structure Booked where
  sma : SemArray
  books : Books

def bookedStep (state : Booked) (op : Op) : Option Booked :=
  some ⟨step state.sma op, (tried state.sma op).foldl postTried (reset state.sma state.books op)⟩

/-- If the array completes, all its `SEM_UNDO` operations on a semaphore together leave
the adjustment in its range. The code checks each one alone. -/
def FitsTogether (call : SemArray × SemQueue) : Prop :=
  (attempt call.1 call.2).1 = 0 → ∀ u ∈ call.2.undo, ∀ sop ∈ call.2.sops,
    -semaem - 1 ≤ (call.1.semadj u sop.semNum).toInt - undoSum sop.semNum call.2.sops ∧
      (call.1.semadj u sop.semNum).toInt - undoSum sop.semNum call.2.sops ≤ semaem

instance (call : SemArray × SemQueue) : Decidable (FitsTogether call) :=
  inferInstanceAs (Decidable (_ → _))

def FitsStep (state : Booked) (op : Op) : Prop := ∀ call ∈ tried state.sma op, FitsTogether call

instance (state : Booked) (op : Op) : Decidable (FitsStep state op) :=
  inferInstanceAs (Decidable (∀ call ∈ tried state.sma op, FitsTogether call))

/-- Every value is in its range and every adjustment is what the books say. -/
structure Exact (sma : SemArray) (books : Books) : Prop where
  values : Ranged sma
  adjusts : ∀ u ∈ sma.undo, ∀ num, (sma.semadj u num).toInt = books u num

section Commit

variable {u : UndoId} {pid : Int} (un : Option UndoId)

theorem undoSum_append (num : Nat) (first second : List Sembuf) :
    undoSum num (first ++ second) = undoSum num first + undoSum num second := by
  induction first with
  | nil => simp [undoSum]
  | cons sop sops ih =>
    simp only [cons_append, undoSum, ih]
    omega

theorem undoSum_reverse (num : Nat) (sops : List Sembuf) :
    undoSum num sops.reverse = undoSum num sops := by
  induction sops with
  | nil => rfl
  | cons sop sops ih =>
    rw [reverse_cons, undoSum_append, ih]
    simp only [undoSum]
    omega

theorem undoSum_absent (num : Nat) (sops : List Sembuf)
    (absent : ∀ sop ∈ sops, sop.semNum ≠ num) : undoSum num sops = 0 := by
  induction sops with
  | nil => rfl
  | cons sop sops ih =>
    rw [undoSum, ih (forall_mem_cons.mp absent).2, if_neg]
    · rfl
    · exact fun holds => absent sop mem_cons_self holds.2

/-- The stored adjustment after one operation, wrapped to a `short`. -/
theorem commitOp_semadj (sma : SemArray) (sop : Sembuf) (num : Nat) :
    (commitOp (some u) pid sma sop).semadj u num =
      Int16.ofInt ((sma.semadj u num).toInt - undoSum num [sop]) := by
  simp only [commitOp, undoSum]
  split
  · rename_i adds
    simp only [SemArray.setSemadj, update_self, semadj_setSempid]
    by_cases same : num = sop.semNum
    · subst same
      simp [adds]
    · rw [update_of_ne same, if_neg (by rintro ⟨_, rfl⟩; exact same rfl)]
      simp
  · rename_i adds
    rw [if_neg (fun holds => adds holds.1)]
    simp

variable (finished : List Sembuf)

/-- The closing loop subtracts the whole sum, modulo the range of a `short`. -/
theorem commitOps_semadj (sma : SemArray) (num : Nat) :
    (commitOps (some u) pid finished sma).semadj u num =
      Int16.ofInt ((sma.semadj u num).toInt - undoSum num finished) := by
  induction finished generalizing sma with
  | nil => simp [commitOps, undoSum]
  | cons sop finished ih =>
    have rest := ih (commitOp (some u) pid sma sop)
    rw [commitOps] at rest
    rw [commitOps, foldl_cons, rest, commitOp_semadj, Int16.ofInt_sub, Int16.ofInt_toInt,
      ← Int16.ofInt_sub]
    congr 1
    simp only [undoSum]
    omega

theorem commitOps_other (sma : SemArray) (other : UndoId) (apart : un ≠ some other) :
    (commitOps un pid finished sma).semadj other = sma.semadj other :=
  List.foldlRecOn (motive := fun now => now.semadj other = sma.semadj other) finished _ rfl
    fun now kept _ _ => Eq.trans (funext fun num =>
      commitOp_kept pid now other num fun _ _ _ => apart) kept

end Commit

/-- `try_atomic_semop` applies all operations in order, and no value leaves its range on the
way, or it fails and leaves the set and the adjustments as they were. -/
theorem tryAtomicSemop_allOrNothing (sma : SemArray) (sops : List Sembuf) (un : Option UndoId)
    (pid : Int) :
    ∃ result after, tryAtomicSemop sma sops un pid = (result, after) ∧
      (result ≠ 0 ∧ after = sma ∨
        result = 0 ∧ after = commitOps un pid sops.reverse (sops.foldl applyOp sma) ∧
          (∀ num, after.semval num = (sops.foldl applyOp sma).semval num) ∧
          ∀ first, first <+: sops → ∀ num, InRange sma num →
            InRange (first.foldl applyOp sma) num) := by
  rcases tryAtomicSemop_cases sma sops un pid with ⟨error, value, failed⟩ | ⟨done, inside⟩
  · exact ⟨error, sma, failed, .inl ⟨by omega, rfl⟩⟩
  · exact ⟨0, _, done, .inr ⟨rfl, rfl, commitOps_semval un pid sops.reverse _, inside⟩⟩

/-- One call of `try_atomic_semop` keeps the books exact. -/
theorem attempt_exact (sma : SemArray) (q : SemQueue) (books : Books) (exact_ : Exact sma books)
    (fits : FitsTogether (sma, q)) :
    Exact (attempt sma q).2 (postTried books (sma, q)) := by
  rw [postTried]
  have attempted := tryAtomicSemop_cases sma q.sops q.undo q.pid
  change (∃ error, _ ∧ attempt sma q = _) ∨ attempt sma q = _ ∧ _ at attempted
  have undo : (attempt sma q).2.undo = sma.undo :=
    (tryAtomicSemop_sameQueue sma q.sops q.undo q.pid).undo
  rcases attempted with ⟨error, value, failed⟩ | ⟨result, inside⟩
  · rw [failed, if_neg (by omega)]
    exact exact_
  · have done : (attempt sma q).1 = 0 := congrArg Prod.fst result
    rw [if_pos done]
    refine ⟨exact_.values.attempt q, ?_⟩
    · intro u member num
      rw [undo] at member
      have before := exact_.adjusts u member num
      rw [result, post]
      split
      next uses =>
        rw [uses, commitOps_semadj, applyOps_semadj, undoSum_reverse, before]
        by_cases named : ∃ sop ∈ q.sops, sop.semNum = num
        · obtain ⟨sop, listed, rfl⟩ := named
          have range := fits done u uses sop listed
          simp only [before] at range
          change -32767 - 1 ≤ _ ∧ _ ≤ (32767 : Int) at range
          apply Int16.toInt_ofInt_of_le
          · omega
          · omega
        · rw [undoSum_absent num q.sops fun sop listed same => named ⟨sop, listed, same⟩,
            ← before, Int.sub_zero, Int16.ofInt_toInt]
      next unused =>
        rw [commitOps_other q.undo q.sops.reverse _ u unused, applyOps_semadj]
        exact before

/-- Neither the queue nor the statuses are in the books. -/
theorem Exact.frame {first second : SemArray} {books : Books} (exact_ : Exact first books)
    (base : second.semBase = first.semBase) (adjust : second.semadj = first.semadj)
    (undo : second.undo = first.undo) : Exact second books := by
  refine ⟨fun num => ?_, ?_⟩
  · rw [InRange, SemArray.semval, base]
    exact exact_.values num
  · intro u member num
    rw [undo] at member
    rw [adjust]
    exact exact_.adjusts u member num

theorem updateLoop_exact (queue : List SemQueue) :
    ∀ sma books, Exact sma books → (∀ call ∈ scanned queue sma, FitsTogether call) →
      Exact (updateLoop queue sma).2 ((scanned queue sma).foldl postTried books) := by
  induction queue with
  | nil =>
    intro sma books exact_ _
    exact exact_
  | cons q queue ih =>
    intro sma books exact_ fits
    rw [scanned] at fits
    have first := attempt_exact sma q books exact_ (fits _ mem_cons_self)
    rw [updateLoop, scanned, foldl_cons]
    split
    next done =>
      rw [if_pos done] at fits
      exact ih (complete sma q) _ (first.frame rfl rfl rfl) (forall_mem_cons.mp fits).2
    next waits =>
      rw [if_neg waits] at fits
      exact ih (attempt sma q).2 _ first (forall_mem_cons.mp fits).2

theorem updateQueue_exact (sma : SemArray) (books : Books) (exact_ : Exact sma books)
    (fits : ∀ call ∈ scanned sma.semPending sma, FitsTogether call) :
    Exact (updateQueue sma) ((scanned sma.semPending sma).foldl postTried books) :=
  (updateLoop_exact sma.semPending sma books exact_ fits).frame rfl rfl rfl

section Operations

variable {sma : SemArray} {books : Books}

section

variable (exact_ : Exact sma books)

include exact_

theorem findUndo_exact (u : UndoId) :
    Exact (findUndo sma u)
      (if u ∉ sma.undo then update books u fun _ => 0 else books) := by
  rw [findUndo]
  by_cases known : u ∈ sma.undo
  · rw [if_pos known, if_neg (not_not.mpr known)]
    exact exact_
  · rw [if_neg known, if_pos known]
    refine ⟨exact_.values, ?_⟩
    intro v member num
    by_cases same : v = u
    · subst same
      simp
    · have old : v ∈ sma.undo := (mem_cons.mp member).resolve_left same
      simp only [update_of_ne same]
      exact exact_.adjusts v old num

theorem semopUndo_exact (undoList : UndoId) (sops : List Sembuf) :
    Exact (semopUndo sma undoList sops).2
      (if sops.any (·.semUndo) ∧ undoList ∉ sma.undo then
        update books undoList fun _ => 0 else books) := by
  rw [semopUndo]
  by_cases uses : sops.any (·.semUndo) = true
  · simp only [uses, true_and]
    exact findUndo_exact exact_ undoList
  · rw [if_neg uses]
    rw [if_neg fun holds => uses holds.1]
    exact exact_

theorem semop_exact (task : Nat) (undoList : UndoId) (pid : Int) (sops : List Sembuf)
    (fits : ∀ call ∈ tried sma (.semop task undoList pid sops), FitsTogether call) :
    Exact (semtimedop sma task undoList pid sops).2
      ((tried sma (.semop task undoList pid sops)).foldl postTried
        (reset sma books (.semop task undoList pid sops))) := by
  simp only [tried, reset] at fits ⊢
  rw [semtimedop]
  split
  next short =>
    rw [if_pos (Or.inl short), if_neg (by omega)]
    exact exact_
  next one =>
    split
    next long =>
      rw [if_pos (Or.inr (Or.inl long)), if_neg (by omega)]
      exact exact_
    next most =>
      have found := semopUndo_exact exact_ undoList sops
      simp only [show 1 ≤ sops.length by omega, show sops.length ≤ semopm by omega, true_and]
      generalize semopUndo sma undoList sops = undone at found fits ⊢
      generalize (if sops.any (·.semUndo) = true ∧ undoList ∉ sma.undo then
        update books undoList fun _ => 0 else books) = opening at found ⊢
      obtain ⟨un, next⟩ := undone
      split
      next outside =>
        rw [if_pos (.inr (.inr outside))]
        exact found
      next inside =>
        have valid : ¬(sops.length < 1 ∨ semopm < sops.length ∨ next.semNsems ≤ maxNum sops) := by
          dsimp only at inside
          omega
        rw [if_neg valid] at fits ⊢
        have first : Exact (tryAtomicSemop next sops un pid).2
            (postTried opening (next, ⟨task, un, pid, sops⟩)) :=
          attempt_exact next ⟨task, un, pid, sops⟩ opening found (fits _ mem_cons_self)
        split
        next done =>
          by_cases alter : alters sops = true
          · simp only [alter, if_true, and_true, if_pos done] at fits ⊢
            exact updateQueue_exact _ _ first (forall_mem_cons.mp fits).2
          · rw [if_neg alter, if_neg fun holds => alter holds.2]
            exact first
        next waits =>
          have idle : ¬((tryAtomicSemop next sops un pid).1 ≤ 0 ∧ alters sops = true) :=
            fun holds => waits holds.1
          rw [if_neg idle]
          exact first.frame rfl rfl rfl

theorem setvalAssign_exact (semnum : Nat) (value pid : Int) (low : 0 ≤ value)
    (high : value ≤ semvmx) :
    Exact (setvalAssign sma semnum value pid)
      (fun u num => if num = semnum then 0 else books u num) := by
  refine ⟨setvalAssign_ranged exact_.values low high, ?_⟩
  intro u member num
  rw [← exact_.adjusts u member num]
  change u ∈ sma.undo at member
  simp only [setvalAssign, SemArray.setSempid, SemArray.setSemval, clearAdjust, member, true_and,
    mem_singleton]
  split <;> rfl

theorem setallAssign_exact (semIo : Nat → Nat)
    (range : ∀ num < sma.semNsems, (semIo num : Int) ≤ semvmx) :
    Exact (setallAssign sma semIo)
      (fun u num => if num < sma.semNsems then 0 else books u num) := by
  refine ⟨setallAssign_ranged exact_.values range, ?_⟩
  intro u member num
  rw [← exact_.adjusts u member num]
  change u ∈ sma.undo at member
  simp only [setallAssign, clearAdjust, member, true_and, mem_range]
  split <;> rfl

theorem exitAssign_exact (u : UndoId) (pid : Int) : Exact (exitAssign sma u pid) books := by
  have erased : Exact { sma with undo := sma.undo.erase u } books :=
    ⟨exact_.values, fun v member num => exact_.adjusts v (mem_of_mem_erase member) num⟩
  refine List.foldlRecOn (motive := fun now => Exact now books) _ _ erased fun now kept num _ => ?_
  refine ⟨exitAdjust_ranged kept.values u pid num, ?_⟩
  rw [exitAdjust]
  split <;> exact kept.adjusts

theorem step_exact (op : Op) (fits : ∀ call ∈ tried sma op, FitsTogether call) :
    Exact (step sma op) ((tried sma op).foldl postTried (reset sma books op)) := by
  cases op with
  | semop task undoList pid sops => exact semop_exact exact_ task undoList pid sops fits
  | interrupt task => exact exact_.frame rfl rfl rfl
  | setval semnum value pid =>
    simp only [tried, reset, step, semctlSetval] at fits ⊢
    split
    next outside =>
      rw [if_pos (.inl outside), if_pos (.inl outside)]
      exact exact_
    next inside =>
      split
      next range =>
        rw [if_pos (.inr range), if_pos (.inr range)]
        exact exact_
      next range =>
        have valid : ¬(sma.semNsems ≤ semnum ∨ semvmx < value ∨ value < 0) := by omega
        rw [if_neg valid] at fits
        rw [if_neg valid, if_neg valid]
        exact updateQueue_exact _ _
          (setvalAssign_exact exact_ semnum value pid (by omega) (by omega)) fits
  | setall semIo =>
    simp only [tried, reset, step, semctlSetall] at fits ⊢
    split
    next bad => exact exact_
    next valid =>
      rw [if_neg valid] at fits
      refine updateQueue_exact _ _ (setallAssign_exact exact_ semIo ?_) fits
      intro num inside
      exact Int.not_lt.mp fun large => valid ⟨num, inside, large⟩
  | exit u pid =>
    simp only [tried, reset, step, exitSem] at fits ⊢
    split
    next member =>
      rw [if_pos member] at fits
      have pending : (exitAssign sma u pid).semPending = sma.semPending :=
        (foldl_sameQueue _ (exitAdjust_sameQueue u pid) _ _).pending
      have result := updateQueue_exact _ _ (exitAssign_exact exact_ u pid)
        (by rw [pending]; exact fits)
      rw [pending] at result
      exact result
    next => exact exact_

end

end Operations

/-- In every run whose completed arrays all fit: every value stays in its range, and every
adjustment is the exact negated sum of the `SEM_UNDO` operations and in its range. -/
theorem semadj_exact_of_fits (nsems : Nat) (ops : List Op) (final : Booked)
    (fits : Runs.Along bookedStep FitsStep ⟨newary nsems, fun _ _ => 0⟩ ops)
    (executed : Runs.run bookedStep ⟨newary nsems, fun _ _ => 0⟩ ops = some final) :
    (∀ num, 0 ≤ final.sma.semval num ∧ final.sma.semval num ≤ semvmx) ∧
      ∀ u ∈ final.sma.undo, ∀ num, (final.sma.semadj u num).toInt = final.books u num ∧
        -semaem - 1 ≤ (final.sma.semadj u num).toInt ∧
        (final.sma.semadj u num).toInt ≤ semaem := by
  have exact_ : Exact final.sma final.books := by
    apply Runs.run_invariant (fun state op next
      (before : Exact state.sma state.books) (fit : FitsStep state op) stepped => ?_)
      ops ⟨newary nsems, fun _ _ => 0⟩ final _ fits executed
    · exact ⟨fun _ => ⟨Int.le_refl 0, by change (0 : Int) ≤ 32767; decide⟩, fun u member =>
        absurd member not_mem_nil⟩
    · cases stepped
      exact step_exact before op fit
  refine ⟨exact_.values, ?_⟩
  intro u member num
  have low := Int16.le_toInt (final.sma.semadj u num)
  have high := Int16.toInt_lt (final.sma.semadj u num)
  refine ⟨exact_.adjusts u member num, ?_, ?_⟩
  · change (-32767 - 1 : Int) ≤ _
    omega
  · change _ ≤ (32767 : Int)
    omega

/-- Two processes whose operations are undone: one adds and takes, the other takes and exits. -/
def twoUndoLists : List Op :=
  [.semop 1 1 101 [⟨0, 5, false, true⟩, ⟨1, 2, false, true⟩],
    .semop 2 2 102 [⟨0, -3, false, true⟩, ⟨0, 1, false, false⟩], .exit 2 102]

theorem semadj_exact_of_fits_twoUndoLists :
    ∃ final, Runs.run bookedStep ⟨newary 2, fun _ _ => 0⟩ twoUndoLists = some final ∧
      final.sma.semval 0 = 6 ∧ (final.sma.semadj 1 0).toInt = final.books 1 0 := by
  refine ⟨_, rfl, by decide +kernel, ?_⟩
  exact ((semadj_exact_of_fits 2 twoUndoLists _ (by decide +kernel) rfl).2 1
    (by decide +kernel) 0).1

/-- Each of the two undone additions passes its check, and both do not fit a `short`. -/
def repeatedUndo : List Op :=
  [.semop 1 1 101 [⟨0, 30000, false, true⟩, ⟨0, -30000, false, false⟩, ⟨0, 30000, false, true⟩]]

theorem repeatedUndo_wraps :
    ∃ final, Runs.run bookedStep ⟨newary 1, fun _ _ => 0⟩ repeatedUndo = some final ∧
      1 ∈ final.sma.undo ∧ (final.sma.semadj 1 0).toInt = 5536 ∧ final.books 1 0 = -60000 ∧
      (final.sma.semadj 1 0).toInt ≠ final.books 1 0 := by
  refine ⟨_, rfl, ?_, ?_, ?_, ?_⟩ <;> decide +kernel

end MagxKernel.SysvSem
