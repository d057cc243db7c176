import MagxKernel.Lib.Runs
import MagxKernel.SysvSem.SemArray

namespace MagxKernel.SysvSem

open List Function

variable (sma : SemArray)

@[simp] theorem semval_setSemval (num other : Nat) (value : Int) :
    (sma.setSemval num value).semval other = if other = num then value else sma.semval other := by
  by_cases same : other = num
  · subst same
    simp [SemArray.semval, SemArray.setSemval]
  · simp [SemArray.semval, SemArray.setSemval, same]

@[simp] theorem semval_setSempid (num other : Nat) (pid : Int) :
    (sma.setSempid num pid).semval other = sma.semval other := by
  by_cases same : other = num
  · subst same
    simp [SemArray.semval, SemArray.setSempid]
  · simp [SemArray.semval, SemArray.setSempid, same]

@[simp] theorem semadj_setSempid (num : Nat) (pid : Int) :
    (sma.setSempid num pid).semadj = sma.semadj := rfl

theorem setSemval_restore (num : Nat) (value : Int) :
    (sma.setSemval num value).setSemval num (sma.semval num) = sma := by
  simp [SemArray.setSemval, SemArray.semval]

/-- What `try_atomic_semop` stores for an operation that passes its checks. -/
def applyOp (sop : Sembuf) : SemArray :=
  sma.setSemval sop.semNum (sma.semval sop.semNum + sop.semOp.toInt)

def InRange (num : Nat) : Prop := 0 ≤ sma.semval num ∧ sma.semval num ≤ semvmx

theorem opError_cases (un : Option UndoId) (sop : Sembuf) :
    (∃ error, opError sma un sop = some error ∧ (error = 1 ∨ error < 0)) ∨
      opError sma un sop = none ∧ InRange (applyOp sma sop) sop.semNum := by
  have block : wouldBlock sop = 1 ∨ wouldBlock sop < 0 := by
    unfold wouldBlock
    split <;> decide
  unfold opError
  dsimp only
  split
  · exact .inl ⟨_, rfl, block⟩
  split
  · exact .inl ⟨_, rfl, block⟩
  rename_i low
  split
  · exact .inl ⟨_, rfl, .inr (by decide)⟩
  rename_i high
  split
  · exact .inl ⟨_, rfl, .inr (by decide)⟩
  · refine .inr ⟨rfl, ?_⟩
    rw [InRange, applyOp, semval_setSemval, if_pos rfl]
    exact ⟨Int.not_lt.mp low, Int.not_lt.mp high⟩

theorem applyOp_inRange {sop : Sembuf} {num : Nat} (here : InRange (applyOp sma sop) sop.semNum)
    (before : InRange sma num) : InRange (applyOp sma sop) num := by
  by_cases same : num = sop.semNum
  · rwa [same]
  · rwa [InRange, applyOp, semval_setSemval, if_neg same]

/-- The forward loop applies every operation, each time inside the range, before
the closing loop starts, or it takes back exactly what it had applied. -/
theorem tryLoop_cases (un : Option UndoId) (pid : Int) (sops finished : List Sembuf)
    (sma : SemArray) :
    (∃ error, (error = 1 ∨ error < 0) ∧
        tryLoop un pid sops finished sma = (error, undoOps finished sma)) ∨
      tryLoop un pid sops finished sma =
          (0, commitOps un pid (sops.reverse ++ finished) (sops.foldl applyOp sma)) ∧
        ∀ first, first <+: sops → ∀ num, InRange sma num →
          InRange (first.foldl applyOp sma) num := by
  induction sops generalizing finished sma with
  | nil =>
    refine .inr ⟨rfl, ?_⟩
    intro first ahead num before
    rwa [prefix_nil.mp ahead]
  | cons sop sops ih =>
    rw [tryLoop]
    rcases opError_cases sma un sop with ⟨error, stopped, value⟩ | ⟨passed, here⟩
    · rw [stopped]
      exact .inl ⟨error, value, rfl⟩
    · rw [passed]
      rcases ih (sop :: finished) (applyOp sma sop) with ⟨error, value, failed⟩ | ⟨done, inside⟩
      · refine .inl ⟨error, value, failed.trans ?_⟩
        rw [undoOps, applyOp, semval_setSemval, if_pos rfl, Int.add_sub_cancel, setSemval_restore]
      · refine .inr ⟨?_, ?_⟩
        · rw [reverse_cons, append_assoc]
          exact done
        · intro first ahead num before
          rcases prefix_cons_iff.mp ahead with rfl | ⟨rest, rfl, further⟩
          · exact before
          · exact inside rest further num (applyOp_inRange sma here before)

theorem tryAtomicSemop_cases (sops : List Sembuf) (un : Option UndoId) (pid : Int) :
    (∃ error, (error = 1 ∨ error < 0) ∧ tryAtomicSemop sma sops un pid = (error, sma)) ∨
      tryAtomicSemop sma sops un pid = (0, commitOps un pid sops.reverse (sops.foldl applyOp sma)) ∧
        ∀ first, first <+: sops → ∀ num, InRange sma num →
          InRange (first.foldl applyOp sma) num := by
  have cases := tryLoop_cases un pid sops [] sma
  rwa [append_nil] at cases

theorem tryAtomicSemop_sleeps {sops : List Sembuf} {un : Option UndoId} {pid : Int}
    (sleeps : ¬(tryAtomicSemop sma sops un pid).1 ≤ 0) :
    tryAtomicSemop sma sops un pid = (1, sma) := by
  rcases tryAtomicSemop_cases sma sops un pid with ⟨error, value, failed⟩ | ⟨done, -⟩
  · rw [failed] at sleeps ⊢
    rcases value with rfl | negative
    · rfl
    · exact absurd (Int.le_of_lt negative) sleeps
  · rw [done] at sleeps
    exact absurd (Int.le_refl 0) sleeps

variable {un : Option UndoId} {first second : SemArray} {sop : Sembuf}

/-- The operation finds nothing in `second` that helps it where it is stopped in `first`. -/
structure NoBetter (un : Option UndoId) (sop : Sembuf) (first second : SemArray) : Prop where
  lowered : sop.semOp ≠ 0 → second.semval sop.semNum ≤ first.semval sop.semNum
  raised : sop.semOp = 0 → first.semval sop.semNum ≤ second.semval sop.semNum ∧
    (first.semval sop.semNum ≠ 0 → second.semval sop.semNum ≠ 0)
  waits : second.semval sop.semNum ≠ first.semval sop.semNum → sop.ipcNowait = false
  semadj : ∀ u ∈ un, sop.semUndo = true → second.semadj u sop.semNum = first.semadj u sop.semNum

theorem NoBetter.of_eq (value : second.semval sop.semNum = first.semval sop.semNum)
    (semadj : ∀ u ∈ un, second.semadj u = first.semadj u) : NoBetter un sop first second where
  lowered _ := Int.le_of_eq value
  raised _ := ⟨Int.le_of_eq value.symm, fun nonzero => value ▸ nonzero⟩
  waits changed := absurd value changed
  semadj u uses _ := congrFun (semadj u uses) _

theorem toInt_eq_zero {value : Int16} : value.toInt = 0 ↔ value = 0 :=
  ⟨fun zero => Int16.toInt_inj.mp zero, fun zero => by rw [zero]; rfl⟩

/-- An operation applied on both sides keeps what the later ones find apart as it was. -/
theorem NoBetter.applyOp {done : Sembuf} (later : NoBetter un sop first second)
    (here : NoBetter un done first second) :
    NoBetter un sop (applyOp first done) (applyOp second done) := by
  by_cases same : sop.semNum = done.semNum
  · have lowered := later.lowered
    have raised := later.raised
    have waits := later.waits
    have fixed : done.semOp = 0 → done.semOp.toInt = 0 := toInt_eq_zero.mpr
    have equal := here.lowered
    rw [← same] at equal
    refine ⟨fun changes => ?_, fun zero => ?_, fun changed => ?_, later.semadj⟩
    · simp only [SysvSem.applyOp, semval_setSemval, ← same, if_true]
      exact Int.add_le_add_right (lowered changes) _
    · simp only [SysvSem.applyOp, semval_setSemval, ← same, if_true]
      obtain ⟨order, nonzero⟩ := raised zero
      refine ⟨Int.add_le_add_right order _, fun left => ?_⟩
      by_cases idle : done.semOp = 0
      · rw [fixed idle, Int.add_zero] at left ⊢
        exact nonzero left
      · rwa [Int.le_antisymm (equal idle) order]
    · simp only [SysvSem.applyOp, semval_setSemval, ← same, if_true] at changed
      exact waits fun value => changed (by rw [value])
  · have kept : ∀ sma, (SysvSem.applyOp sma done).semval sop.semNum = sma.semval sop.semNum :=
      fun sma => by rw [SysvSem.applyOp, semval_setSemval, if_neg same]
    refine ⟨?_, ?_, ?_, later.semadj⟩
    · simpa only [kept] using later.lowered
    · simpa only [kept] using later.raised
    · simpa only [kept] using later.waits

/-- Where the operation sleeps it still sleeps; where it passes it passes or sleeps. -/
theorem NoBetter.opError (noBetter : NoBetter un sop first second) :
    (opError first un sop = some 1 → opError second un sop = some 1) ∧
      (opError first un sop = none →
        opError second un sop = none ∨ opError second un sop = some 1) := by
  obtain ⟨lowered, raised, waits, semadj⟩ := noBetter
  have range : undoOutOfRange second un sop = undoOutOfRange first un sop := by
    cases un with
    | none => rfl
    | some u =>
      cases adds : sop.semUndo with
      | false => simp only [undoOutOfRange, adds, Bool.false_and]
      | true => simp only [undoOutOfRange, semadj u rfl adds]
  have sleeps : second.semval sop.semNum ≠ first.semval sop.semNum → wouldBlock sop = 1 :=
    fun changed => by simp [wouldBlock, waits changed]
  simp only [SysvSem.opError, range]
  by_cases zero : sop.semOp = 0
  · obtain ⟨order, nonzero⟩ := raised zero
    simp only [zero, true_and]
    by_cases start : first.semval sop.semNum = 0
    · by_cases same : second.semval sop.semNum = first.semval sop.semNum
      · rw [same]
        exact ⟨id, .inl⟩
      · have block := sleeps same
        rw [start] at same
        simp [start, same, block]
    · simp [start, nonzero start]
  · have order := lowered zero
    simp only [zero, false_and, if_false]
    by_cases low : first.semval sop.semNum + sop.semOp.toInt < 0
    · have lower : second.semval sop.semNum + sop.semOp.toInt < 0 := by omega
      simp [low, lower]
    · by_cases lower : second.semval sop.semNum + sop.semOp.toInt < 0
      · have block := sleeps fun same => low (same ▸ lower)
        simp [lower, block]
      · by_cases high : semvmx < first.semval sop.semNum + sop.semOp.toInt
        · simp only [low, high, if_false, if_true]
          exact ⟨fun done => absurd (Option.some.inj done) (by decide), nofun⟩
        · have fits : ¬semvmx < second.semval sop.semNum + sop.semOp.toInt := by omega
          simp only [low, lower, high, fits, if_false]
          split <;> simp

theorem tryLoop_blocked (pid : Int) (sops firstDone secondDone : List Sembuf)
    (noBetter : ∀ sop ∈ sops, NoBetter un sop first second)
    (blocked : (tryLoop un pid sops firstDone first).1 = 1) :
    (tryLoop un pid sops secondDone second).1 = 1 := by
  induction sops generalizing firstDone secondDone first second with
  | nil => cases blocked
  | cons sop sops ih =>
    obtain ⟨here, later⟩ := forall_mem_cons.mp noBetter
    obtain ⟨sleeps, passes⟩ := here.opError
    rw [tryLoop] at blocked ⊢
    cases stopped : opError first un sop with
    | some error =>
      rw [stopped] at blocked
      obtain rfl : error = 1 := blocked
      rw [sleeps stopped]
    | none =>
      rw [stopped] at blocked
      rcases passes stopped with passed | asleep
      · rw [passed]
        exact ih _ _ (fun other listed => (later other listed).applyOp here) blocked
      · rw [asleep]

/-- The entry could not complete now: `try_atomic_semop` says sleep. -/
def Blocked (sma : SemArray) (q : SemQueue) : Prop := (attempt sma q).1 = 1

/-- No sleeper whose operations are satisfiable is left in the queue. -/
def Settled (sma : SemArray) : Prop := ∀ q ∈ sma.semPending, Blocked sma q

theorem Blocked.of_noBetter {q : SemQueue} (blocked : Blocked first q)
    (noBetter : ∀ sop ∈ q.sops, NoBetter q.undo sop first second) : Blocked second q :=
  tryLoop_blocked q.pid q.sops [] [] noBetter blocked

/-- Only the queue, the list of undo structures or the statuses differ. -/
theorem Blocked.frame {q : SemQueue} (blocked : Blocked first q)
    (base : second.semBase = first.semBase) (adjust : second.semadj = first.semadj) :
    Blocked second q := by
  refine blocked.of_noBetter fun sop _ => .of_eq ?_ fun u _ => by rw [adjust]
  rw [SemArray.semval, SemArray.semval, base]

/-- An entry that completes changes no semaphore of the other one in a way that could let it
complete too: it lowers what the other one waits to change, raises what the other one waits to
see at zero, and shares no adjustment with it. -/
def Indifferent (waiting q : SemQueue) : Prop :=
  ∀ change ∈ q.sops, change.semOp ≠ 0 → ∀ sop ∈ waiting.sops, sop.semNum = change.semNum →
    sop.ipcNowait = false ∧ (0 < change.semOp.toInt ↔ sop.semOp = 0) ∧
      (change.semUndo = true → sop.semUndo = true → q.undo ≠ waiting.undo)

instance (waiting q : SemQueue) : Decidable (Indifferent waiting q) :=
  inferInstanceAs (Decidable (∀ change ∈ q.sops, _ → ∀ sop ∈ waiting.sops, _ → _))

def Ranged (sma : SemArray) : Prop := ∀ num, InRange sma num

theorem commitOp_semval (un : Option UndoId) (pid : Int) (sma : SemArray) (sop : Sembuf)
    (num : Nat) :
    (commitOp un pid sma sop).semval num = sma.semval num := by
  cases un with
  | none => exact semval_setSempid sma sop.semNum num pid
  | some v =>
    simp only [commitOp]
    split
    next => exact semval_setSempid sma sop.semNum num pid
    next => exact semval_setSempid sma sop.semNum num pid

theorem commitOps_semval (un : Option UndoId) (pid : Int) (finished : List Sembuf)
    (sma : SemArray) (num : Nat) :
    (commitOps un pid finished sma).semval num = sma.semval num :=
  List.foldlRecOn (motive := fun now => now.semval num = sma.semval num) finished _ rfl
    fun now kept sop _ => (commitOp_semval un pid now sop num).trans kept

theorem commitOp_kept (pid : Int) (sma : SemArray) (u : UndoId) (num : Nat)
    (apart : sop.semNum = num → sop.semOp ≠ 0 → sop.semUndo = true → un ≠ some u) :
    (commitOp un pid sma sop).semadj u num = sma.semadj u num := by
  cases un with
  | none => rfl
  | some v =>
    simp only [commitOp]
    split
    next adds =>
      simp only [SemArray.setSemadj, semadj_setSempid]
      by_cases other : u = v
      · subst other
        by_cases elsewhere : num = sop.semNum
        · subst elsewhere
          have zero : sop.semOp = 0 := not_not.mp fun changes => apart rfl changes adds rfl
          simp [zero]
        · rw [update_self, update_of_ne elsewhere]
      · rw [update_of_ne other]
    next => rfl

theorem applyOps_semadj (sops : List Sembuf) (sma : SemArray) :
    (sops.foldl applyOp sma).semadj = sma.semadj :=
  List.foldlRecOn (motive := fun now => SemArray.semadj now = sma.semadj) sops _ rfl
    fun _ kept _ _ => kept

/-- What each operation on the semaphore keeps, the whole array keeps. -/
theorem applyOps_semval (good : Int → Prop) {num : Nat} (sops : List Sembuf) (sma : SemArray)
    (keeps : ∀ change ∈ sops, change.semNum = num →
      ∀ value, good value → good (value + change.semOp.toInt))
    (start : good (sma.semval num)) : good ((sops.foldl applyOp sma).semval num) := by
  refine List.foldlRecOn (motive := fun now : SemArray => good (now.semval num)) sops _ start ?_
  intro now kept change listed
  rw [applyOp, semval_setSemval]
  split
  next here =>
    rw [← here]
    exact keeps change listed here.symm _ kept
  next => exact kept

section

variable {sma} (ranged : Ranged sma)

include ranged

theorem Ranged.attempt (q : SemQueue) : Ranged (attempt sma q).2 := by
  intro num
  rcases tryAtomicSemop_cases sma q.sops q.undo q.pid with ⟨error, -, failed⟩ | ⟨done, inside⟩
  · rw [SysvSem.attempt, failed]
    exact ranged num
  · rw [SysvSem.attempt, done, InRange, commitOps_semval]
    exact inside q.sops (prefix_refl _) num (ranged num)

/-- An entry that completes leaves blocked what it is indifferent to. -/
theorem Blocked.attempt {waiting q : SemQueue} (blocked : Blocked sma waiting)
    (indifferent : Indifferent waiting q) : Blocked (attempt sma q).2 waiting := by
  rcases tryAtomicSemop_cases sma q.sops q.undo q.pid with ⟨error, -, failed⟩ | ⟨done, -⟩
  · rw [SysvSem.attempt, failed]
    exact blocked
  rw [SysvSem.attempt, done]
  refine blocked.of_noBetter fun sop listed => ?_
  have apart := fun change member nonzero => indifferent change member nonzero sop listed
  have idle : ∀ change : Sembuf, change.semOp = 0 → ∀ value, value + change.semOp.toInt = value :=
    fun change zero value => by rw [toInt_eq_zero.mpr zero, Int.add_zero]
  refine ⟨fun changes => ?_, fun zero => ?_, fun changed => ?_, fun u uses adds => ?_⟩
  · rw [commitOps_semval]
    refine applyOps_semval (· ≤ _) q.sops sma ?_ (Int.le_refl _)
    intro change member here value below
    by_cases nothing : change.semOp = 0
    · rwa [idle change nothing]
    · have lowers := mt (apart change member nothing here.symm).2.1.mp changes
      omega
  · have above : sma.semval sop.semNum ≤ (q.sops.foldl applyOp sma).semval sop.semNum := by
      refine applyOps_semval (_ ≤ ·) q.sops sma ?_ (Int.le_refl _)
      intro change member here value below
      by_cases nothing : change.semOp = 0
      · rwa [idle change nothing]
      · have raises := (apart change member nothing here.symm).2.1.mpr zero
        omega
    have positive := (ranged sop.semNum).1
    rw [commitOps_semval]
    exact ⟨above, by omega⟩
  · by_contra nowait
    rw [commitOps_semval] at changed
    refine changed (applyOps_semval (· = _) q.sops sma ?_ rfl)
    intro change member here value same
    by_cases nothing : change.semOp = 0
    · rwa [idle change nothing]
    · exact absurd (apart change member nothing here.symm).1 nowait
  · have kept : (commitOps q.undo q.pid q.sops.reverse (q.sops.foldl applyOp sma)).semadj u
        sop.semNum = (q.sops.foldl applyOp sma).semadj u sop.semNum := by
      refine List.foldlRecOn (motive := fun now => SemArray.semadj now u sop.semNum = _)
        q.sops.reverse _ rfl fun now kept change member => (commitOp_kept q.pid now u sop.semNum
          fun here changes undone shared => ?_).trans kept
      exact (apart change (mem_reverse.mp member) changes here.symm).2.2 undone adds
        (shared.trans uses.symm)
    rw [kept, applyOps_semadj]

/-- A scan of entries that are indifferent to the ones behind them reaches a fixpoint: what it
passed over and what it keeps is blocked at the values it ends with. -/
theorem updateLoop_blocked (passed queue : List SemQueue)
    (indifferent : (passed ++ queue).Pairwise Indifferent)
    (waiting : ∀ q ∈ passed, Blocked sma q) :
    (∀ q ∈ passed ++ (updateLoop queue sma).1, Blocked (updateLoop queue sma).2 q) ∧
      Ranged (updateLoop queue sma).2 := by
  induction queue generalizing passed sma with
  | nil => exact ⟨by simpa [updateLoop] using waiting, ranged⟩
  | cons q queue ih =>
    by_cases done : (SysvSem.attempt sma q).1 ≤ 0
    · rw [updateLoop, if_pos done]
      have next : Ranged (complete sma q) := ranged.attempt q
      refine ih next passed (indifferent.sublist (by simp)) fun other member => ?_
      have ahead := (pairwise_append.mp indifferent).2.2 other member q mem_cons_self
      exact ((waiting other member).attempt ranged ahead).frame rfl rfl
    · have sleeps : SysvSem.attempt sma q = (1, sma) := tryAtomicSemop_sleeps sma done
      have blocked : Blocked sma q := congrArg Prod.fst sleeps
      have rest := ih ranged (passed ++ [q]) (by simpa using indifferent)
        (forall_mem_append.mpr ⟨waiting, forall_mem_singleton.mpr blocked⟩)
      simp only [updateLoop, sleeps]
      exact ⟨fun other member => rest.1 other (by simpa using member), rest.2⟩

theorem updateQueue_settled (indifferent : sma.semPending.Pairwise Indifferent) :
    Settled (updateQueue sma) ∧ Ranged (updateQueue sma) := by
  have scanned := updateLoop_blocked ranged [] sma.semPending indifferent (by simp)
  exact ⟨fun q member => (scanned.1 q (by simpa [updateQueue] using member)).frame rfl rfl,
    scanned.2⟩

theorem setvalAssign_ranged {semnum : Nat} {value pid : Int} (low : 0 ≤ value)
    (high : value ≤ semvmx) : Ranged (setvalAssign sma semnum value pid) := by
  intro num
  rw [InRange, setvalAssign, semval_setSempid, semval_setSemval]
  split
  next => exact ⟨low, high⟩
  next => exact ranged num

theorem setallAssign_ranged {semIo : Nat → Nat}
    (range : ∀ num < sma.semNsems, (semIo num : Int) ≤ semvmx) :
    Ranged (setallAssign sma semIo) := by
  intro num
  simp only [InRange, setallAssign, clearAdjust, SemArray.semval]
  split
  next inside => exact ⟨Int.natCast_nonneg _, range num inside⟩
  next => exact ranged num

/-- The value is capped at both ends, so that it stays in its range. -/
theorem exitAdjust_ranged (u : UndoId) (pid : Int) (num : Nat) :
    Ranged (exitAdjust u pid sma num) := by
  rw [exitAdjust]
  split
  next =>
    intro other
    rw [InRange, semval_setSempid, semval_setSemval]
    split
    next =>
      have cap : semvmx = 32767 := rfl
      split
      next => omega
      next =>
        split
        next => omega
        next => omega
    next => exact ranged other
  next => exact ranged

theorem exitAssign_ranged (u : UndoId) (pid : Int) : Ranged (exitAssign sma u pid) :=
  List.foldlRecOn (motive := Ranged) _ _ ranged fun _ kept num _ => exitAdjust_ranged kept u pid num

end

/-- The operation calls `update_queue`. -/
def Scans (sma : SemArray) : Op → Prop
  | .semop _ undoList pid sops =>
    let undone := semopUndo sma undoList sops
    (tryAtomicSemop undone.2 sops undone.1 pid).1 ≤ 0 ∧ alters sops = true
  | .interrupt _ => False
  | .setval semnum value _ => semnum < sma.semNsems ∧ 0 ≤ value ∧ value ≤ semvmx
  | .setall semIo => ∀ num < sma.semNsems, (semIo num : Int) ≤ semvmx
  | .exit u _ => u ∈ sma.undo

instance (sma : SemArray) : (op : Op) → Decidable (Scans sma op)
  | .semop _ _ _ _ => inferInstanceAs (Decidable (_ ≤ _ ∧ _ = _))
  | .interrupt _ => isFalse id
  | .setval _ _ _ => inferInstanceAs (Decidable (_ ∧ _))
  | .setall _ => inferInstanceAs (Decidable (∀ num < sma.semNsems, _))
  | .exit u _ => inferInstanceAs (Decidable (u ∈ sma.undo))

/-- When the queue is scanned, each entry is indifferent to those behind it. -/
def QuietStep (sma : SemArray) (op : Op) : Prop :=
  Scans sma op → sma.semPending.Pairwise Indifferent

instance (sma : SemArray) (op : Op) : Decidable (QuietStep sma op) :=
  inferInstanceAs (Decidable (_ → _))

/-- A sleeping task makes no calls, and an undo list dies with its last task, so
no sleeper still refers to it. -/
def Allowed (sma : SemArray) : Op → Prop
  | .semop task _ _ _ => ∀ q ∈ sma.semPending, q.sleeper ≠ task
  | .exit u _ => ∀ q ∈ sma.semPending, q.undo ≠ some u
  | _ => True

instance (sma : SemArray) : ∀ op, Decidable (Allowed sma op)
  | .semop task _ _ _ => inferInstanceAs (Decidable (∀ q ∈ sma.semPending, q.sleeper ≠ task))
  | .exit u _ => inferInstanceAs (Decidable (∀ q ∈ sma.semPending, q.undo ≠ some u))
  | .interrupt _ | .setval _ _ _ | .setall _ => isTrue trivial

/-- Queued entries refer to undo structures that are on the set. -/
def UndoListed (sma : SemArray) : Prop :=
  ∀ q ∈ sma.semPending, ∀ u ∈ q.undo, u ∈ sma.undo

/-- Nothing but values, adjustments, pids and statuses changes. -/
structure SameQueue (old new : SemArray) : Prop where
  nsems : new.semNsems = old.semNsems
  pending : new.semPending = old.semPending
  undo : new.undo = old.undo

theorem SameQueue.refl : SameQueue sma sma := ⟨rfl, rfl, rfl⟩

theorem SameQueue.trans {third : SemArray} (left : SameQueue first second)
    (right : SameQueue second third) : SameQueue first third :=
  ⟨right.nsems.trans left.nsems, right.pending.trans left.pending, right.undo.trans left.undo⟩

theorem foldl_sameQueue {α : Type} (change : SemArray → α → SemArray)
    (each : ∀ sma item, SameQueue sma (change sma item)) (items : List α) (sma : SemArray) :
    SameQueue sma (items.foldl change sma) :=
  List.foldlRecOn items change (SameQueue.refl sma) fun now kept item _ =>
    kept.trans (each now item)

theorem commitOp_sameQueue (un : Option UndoId) (pid : Int) (sma : SemArray) (sop : Sembuf) :
    SameQueue sma (commitOp un pid sma sop) := by
  cases un with
  | none => exact ⟨rfl, rfl, rfl⟩
  | some u =>
    unfold commitOp
    dsimp only
    split <;> exact ⟨rfl, rfl, rfl⟩

theorem tryAtomicSemop_sameQueue (sops : List Sembuf) (un : Option UndoId) (pid : Int) :
    SameQueue sma (tryAtomicSemop sma sops un pid).2 := by
  rcases tryAtomicSemop_cases sma sops un pid with ⟨error, -, failed⟩ | ⟨done, -⟩
  · rw [failed]
    exact SameQueue.refl sma
  · rw [done]
    exact (foldl_sameQueue applyOp (fun _ _ => ⟨rfl, rfl, rfl⟩) sops sma).trans
      (foldl_sameQueue _ (commitOp_sameQueue un pid) sops.reverse _)

theorem updateLoop_sameQueue (queue : List SemQueue) (sma : SemArray) :
    SameQueue sma (updateLoop queue sma).2 := by
  induction queue generalizing sma with
  | nil => exact SameQueue.refl sma
  | cons q queue ih =>
    have tried : SameQueue sma (attempt sma q).2 := tryAtomicSemop_sameQueue sma q.sops q.undo q.pid
    have completed : SameQueue sma (complete sma q) := { tried with }
    rw [updateLoop]
    split
    · exact completed.trans (ih _)
    · exact tried.trans (ih _)

theorem updateLoop_sublist (queue : List SemQueue) (sma : SemArray) :
    (updateLoop queue sma).1.Sublist queue := by
  induction queue generalizing sma with
  | nil => exact List.Sublist.slnil
  | cons q queue ih =>
    rw [updateLoop]
    split
    · exact (ih _).cons q
    · exact (ih _).cons_cons q

theorem UndoListed.of_sameQueue {old new : SemArray} (listed : UndoListed old)
    (same : SameQueue old new) : UndoListed new := by
  intro q member u uses
  rw [same.pending] at member
  rw [same.undo]
  exact listed q member u uses

theorem exitAdjust_sameQueue (u : UndoId) (pid : Int) (sma : SemArray) (num : Nat) :
    SameQueue sma (exitAdjust u pid sma num) := by
  unfold exitAdjust
  split
  · exact ⟨rfl, rfl, rfl⟩
  · exact SameQueue.refl sma

theorem updateQueue_undoListed (listed : UndoListed sma) : UndoListed (updateQueue sma) := by
  intro q member u uses
  have source : q ∈ sma.semPending := (updateLoop_sublist sma.semPending sma).subset member
  have same : (updateQueue sma).undo = sma.undo := (updateLoop_sameQueue sma.semPending sma).undo
  rw [same]
  exact listed q source u uses

theorem findUndo_blocked (u : UndoId) {q : SemQueue} (listed : ∀ v ∈ q.undo, v ∈ sma.undo)
    (blocked : Blocked sma q) : Blocked (findUndo sma u) q := by
  unfold findUndo
  split
  · exact blocked
  · rename_i absent
    refine blocked.of_noBetter fun sop _ => .of_eq rfl fun v uses => ?_
    have different : v ≠ u := fun same => absent (same ▸ listed v uses)
    simp [different]

structure Calm (sma : SemArray) : Prop where
  settled : Settled sma
  listed : UndoListed sma
  ranged : Ranged sma

theorem updateQueue_calm (listed : UndoListed sma) (ranged : Ranged sma)
    (indifferent : sma.semPending.Pairwise Indifferent) : Calm (updateQueue sma) where
  settled := (updateQueue_settled ranged indifferent).1
  listed := updateQueue_undoListed sma listed
  ranged := (updateQueue_settled ranged indifferent).2

section

variable {sma} (calm : Calm sma)

include calm

/-- The state that `find_undo` leaves is as calm as the one it found. -/
theorem semopUndo_calm (undoList : UndoId) (sops : List Sembuf) :
    Calm (semopUndo sma undoList sops).2 ∧
      (semopUndo sma undoList sops).2.semPending = sma.semPending ∧
      ∀ u ∈ (semopUndo sma undoList sops).1, u ∈ (semopUndo sma undoList sops).2.undo := by
  unfold semopUndo
  split
  · have pending : (findUndo sma undoList).semPending = sma.semPending := by
      unfold findUndo
      split <;> rfl
    have known : ∀ u ∈ undoList :: sma.undo, u ∈ (findUndo sma undoList).undo := by
      unfold findUndo
      split
      · rename_i old
        exact forall_mem_cons.mpr ⟨old, fun _ member => member⟩
      · exact fun _ member => member
    have ranged : Ranged (findUndo sma undoList) := by
      unfold findUndo
      split <;> exact calm.ranged
    refine ⟨⟨?_, ?_, ranged⟩, pending, ?_⟩
    · intro q member
      rw [pending] at member
      exact findUndo_blocked sma undoList (calm.listed q member) (calm.settled q member)
    · intro q member u uses
      rw [pending] at member
      exact known u (mem_cons_of_mem _ (calm.listed q member u uses))
    · intro u uses
      rw [Option.mem_some_iff] at uses
      exact uses ▸ known undoList mem_cons_self
  · exact ⟨calm, rfl, fun _ absent => by simp at absent⟩

theorem semtimedop_calm (task : Nat) (undoList : UndoId) (pid : Int) (sops : List Sembuf)
    (quiet : QuietStep sma (.semop task undoList pid sops)) :
    Calm (semtimedop sma task undoList pid sops).2 := by
  obtain ⟨found, samePending, unListed⟩ := semopUndo_calm calm undoList sops
  unfold semtimedop
  split
  · exact calm
  split
  · exact calm
  simp only [QuietStep, Scans] at quiet
  rw [← samePending] at quiet
  generalize semopUndo sma undoList sops = undone at found unListed quiet ⊢
  obtain ⟨un, next⟩ := undone
  dsimp only at *
  split
  · exact found
  have frame : SameQueue next (tryAtomicSemop next sops un pid).2 :=
    tryAtomicSemop_sameQueue next sops un pid
  have ranged : Ranged (tryAtomicSemop next sops un pid).2 :=
    found.ranged.attempt ⟨task, un, pid, sops⟩
  split
  · rename_i done
    split
    · rename_i alter
      exact updateQueue_calm _ (found.listed.of_sameQueue frame) ranged
        (frame.pending ▸ quiet ⟨done, alter⟩)
    · rename_i unaltered
      refine ⟨fun q member => ?_, found.listed.of_sameQueue frame, ranged⟩
      rw [frame.pending] at member
      refine (found.settled q member).attempt found.ranged (q := ⟨task, un, pid, sops⟩) ?_
      intro change used nonzero
      exact absurd (any_eq_true.mpr ⟨change, used, decide_eq_true nonzero⟩) unaltered
  · rename_i sleeps
    have unchanged := tryAtomicSemop_sleeps next sleeps
    have blocked : Blocked next ⟨task, un, pid, sops⟩ := congrArg Prod.fst unchanged
    simp only [unchanged]
    have member : ∀ q, q ∈ (if alters sops = true then next.semPending ++ [⟨task, un, pid, sops⟩]
        else ⟨task, un, pid, sops⟩ :: next.semPending) →
        q ∈ next.semPending ∨ q = ⟨task, un, pid, sops⟩ := by
      intro q
      split
      · simp
      · simp [or_comm]
    refine ⟨?_, ?_, found.ranged⟩
    · intro q queued
      rcases member q queued with old | rfl
      · exact (found.settled q old).frame rfl rfl
      · exact blocked.frame rfl rfl
    · intro q queued u uses
      rcases member q queued with old | rfl
      · exact found.listed q old u uses
      · exact unListed u uses

/-- Removing an undo structure that no sleeper refers to. -/
theorem exitAssign_undoListed (u : UndoId) (pid : Int)
    (unused : ∀ q ∈ sma.semPending, q.undo ≠ some u) : UndoListed (exitAssign sma u pid) := by
  have erased : UndoListed { sma with undo := sma.undo.erase u } := by
    intro q member v uses
    have different : v ≠ u := by
      rintro rfl
      exact unused q member uses
    exact (mem_erase_of_ne different).mpr (calm.listed q member v uses)
  exact erased.of_sameQueue (foldl_sameQueue _ (exitAdjust_sameQueue u pid) _ _)

theorem step_calm (op : Op) (allowed : Allowed sma op) (quiet : QuietStep sma op) :
    Calm (step sma op) := by
  cases op with
  | semop task undoList pid sops => exact semtimedop_calm calm task undoList pid sops quiet
  | interrupt task =>
    have fewer : ∀ q ∈ sma.semPending.eraseP (·.sleeper == task), q ∈ sma.semPending :=
      fun _ => mem_of_mem_eraseP
    exact ⟨fun q member => (calm.settled q (fewer q member)).frame rfl rfl,
      fun q member => calm.listed q (fewer q member), calm.ranged⟩
  | setval semnum value pid =>
    simp only [step, semctlSetval]
    split
    · exact calm
    split
    · exact calm
    · exact updateQueue_calm _ (calm.listed.of_sameQueue ⟨rfl, rfl, rfl⟩)
        (setvalAssign_ranged calm.ranged (by omega) (by omega))
        (quiet ⟨by omega, by omega, by omega⟩)
  | setall semIo =>
    simp only [step, semctlSetall]
    split
    · exact calm
    · rename_i outside
      have range : ∀ num < sma.semNsems, (semIo num : Int) ≤ semvmx := fun num inside =>
        Int.not_lt.mp fun large => outside ⟨num, inside, large⟩
      exact updateQueue_calm _ (calm.listed.of_sameQueue ⟨rfl, rfl, rfl⟩)
        (setallAssign_ranged calm.ranged range) (quiet range)
  | exit u pid =>
    simp only [step, exitSem]
    split
    · rename_i member
      have pending : (exitAssign sma u pid).semPending = sma.semPending :=
        (foldl_sameQueue _ (exitAdjust_sameQueue u pid) _ _).pending
      exact updateQueue_calm _ (exitAssign_undoListed calm u pid allowed)
        (exitAssign_ranged calm.ranged u pid) (pending ▸ quiet member)
    · exact calm

end

/-- In every run whose scans are all quiet, every entry left on the queue after
every operation is one that `try_atomic_semop` still sends to sleep. -/
theorem pending_blocked_of_quiet (nsems : Nat) (ops : List Op) (final : SemArray)
    (allowed : Runs.Along (fun sma op => some (step sma op))
      (fun sma op => Allowed sma op ∧ QuietStep sma op) (newary nsems) ops)
    (executed : Runs.run (fun sma op => some (step sma op)) (newary nsems) ops = some final) :
    ∀ q ∈ final.semPending, (tryAtomicSemop final q.sops q.undo q.pid).1 = 1 := by
  have start : Calm (newary nsems) :=
    ⟨forall_mem_nil _, forall_mem_nil _, fun _ =>
      ⟨Int.le_refl 0, by change (0 : Int) ≤ 32767; decide⟩⟩
  have result : Calm final := by
    apply Runs.run_invariant (fun sma op next (calm : Calm sma) permitted stepped => ?_)
      ops (newary nsems) final start allowed executed
    cases stepped
    exact step_calm calm op permitted.1 permitted.2
  exact result.settled

/-- One sleeper waits to see semaphore 1 at zero and two want semaphore 0; the last one also
raises semaphore 1. -/
def threeWaiters : List Op :=
  [.setval 1 1 30, .semop 1 1 10 [{ semNum := 1, semOp := 0 }],
    .semop 2 2 20 [{ semNum := 0, semOp := -1 }],
    .semop 3 3 30 [{ semNum := 0, semOp := -1 }, { semNum := 1, semOp := 1 }], .setval 0 2 30]

/-- Raising semaphore 0 completes its two waiters and leaves the first one. -/
theorem pending_blocked_of_quiet_threeWaiters :
    ∃ final, Runs.run (fun sma op => some (step sma op)) (newary 2) threeWaiters = some final ∧
      final.semPending.map (·.sleeper) = [1] ∧ final.semval 1 = 2 ∧
      ∀ q ∈ final.semPending, (tryAtomicSemop final q.sops q.undo q.pid).1 = 1 :=
  ⟨_, rfl, by decide, by decide,
    pending_blocked_of_quiet 2 threeWaiters _ (by decide +kernel) rfl⟩

/-- The first sleeper wants semaphore 0; the second one wants semaphore 1 and
then gives semaphore 0. -/
def lostWakeup : List Op :=
  [.semop 1 1 10 [{ semNum := 0, semOp := -1 }],
    .semop 2 2 20 [{ semNum := 1, semOp := -1 }, { semNum := 0, semOp := 1 }], .setval 1 1 30]

/-- Raising semaphore 1 completes the second sleeper; the single pass leaves the
first one queued although it could complete. -/
theorem lostWakeup_unblocked :
    Runs.Along (fun sma op => some (step sma op)) Allowed (newary 2) lostWakeup ∧
    ∃ final, Runs.run (fun sma op => some (step sma op)) (newary 2) lostWakeup = some final ∧
      ∃ q ∈ final.semPending, (tryAtomicSemop final q.sops q.undo q.pid).1 = 0 := by
  constructor
  · refine ⟨by decide, ?_⟩
    rintro _ ⟨⟩
    refine ⟨by decide, ?_⟩
    rintro _ ⟨⟩
    exact ⟨trivial, fun _ _ => trivial⟩
  · exact ⟨_, rfl, ⟨1, none, 10, [{ semNum := 0, semOp := -1 }]⟩, by decide, by decide⟩

end MagxKernel.SysvSem
