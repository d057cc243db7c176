import MagxKernel.RwSem.Semaphore

namespace MagxKernel.RwSem

open List
open MachineInt (s32 s32_of_range)

section WakeReaders

theorem wakeReaders_woken (list : List RwsemWaiter) (waiter : RwsemWaiter)
    (woken : waiter ∈ (wakeReaders list).1) : waiter.flags = .waitingForRead := by
  induction list with
  | nil => cases woken
  | cons head rest ih =>
    rw [wakeReaders] at woken
    split at woken
    next reads =>
      rcases mem_cons.mp woken with rfl | later
      · exact reads
      · exact ih later
    next => cases woken

theorem wakeReaders_left (list : List RwsemWaiter) (waiter : RwsemWaiter)
    (rest : List RwsemWaiter) (left : (wakeReaders list).2 = waiter :: rest) :
    waiter.flags = .waitingForWrite := by
  induction list with
  | nil => cases left
  | cons head tail ih =>
    rw [wakeReaders] at left
    split at left
    next => exact ih left
    next writes =>
      cases left
      exact writes

theorem wakeReaders_cons_pos (waiter : RwsemWaiter) (rest : List RwsemWaiter)
    (reads : waiter.flags = .waitingForRead) :
    0 < (wakeReaders (waiter :: rest)).1.length := by
  simp [wakeReaders, reads]

end WakeReaders

section Resume

variable (system : System)

theorem wake_readers (woken : List RwsemWaiter)
    (readers : ∀ waiter ∈ woken, waiter.flags = .waitingForRead) :
    (woken.foldl System.wake system).sem = system.sem ∧
      (woken.foldl System.wake system).writeHolders = system.writeHolders ∧
      (woken.foldl System.wake system).readHolders.length =
        system.readHolders.length + woken.length := by
  induction woken generalizing system with
  | nil => exact ⟨rfl, rfl, rfl⟩
  | cons waiter rest ih =>
    have head : system.wake waiter =
        { system with readHolders := waiter.task :: system.readHolders } := by
      rw [System.wake, readers waiter mem_cons_self]
    have tail := ih (system.wake waiter) fun other later =>
      readers other (mem_cons_of_mem _ later)
    rw [head] at tail
    rw [foldl_cons, head]
    refine ⟨tail.1, tail.2.1, ?_⟩
    rw [tail.2.2, length_cons, length_cons]
    omega

theorem resume_writer (released : CompatRwSemaphore) (waiter : RwsemWaiter)
    (writes : waiter.flags = .waitingForWrite) :
    system.resume (released, [waiter]) =
      { system with sem := released, writeHolders := waiter.task :: system.writeHolders } := by
  simp [System.resume, System.wake, writes]

end Resume

theorem written_sound (task : Task) (rest : List RwsemWaiter) : Sound ⟨⟨-1, rest⟩, [], [task]⟩ := by
  exact ⟨.inr ⟨rfl, rfl, rfl⟩, fun zero => (by cases zero), fun positive => (by cases positive)⟩

variable {system : System}

section

variable (sound : Sound system)

include sound

/-- A lock that is free or read and nobody waits for can be read by one more. -/
theorem grantRead_sound (task : Task) (open_ : 0 ≤ system.sem.activity ∧ system.sem.waitList = [])
    (bound : system.readHolders.length + 1 < 2 ^ 31) :
    Sound (system.grantRead task
      ({ system.sem with activity := s32 (system.sem.activity + 1) }, true)) := by
  rcases sound.counted with ⟨reads, writers⟩ | ⟨written, _, _⟩
  · have next : s32 (system.sem.activity + 1) = system.sem.activity + 1 :=
      s32_of_range _ (by omega) (by omega)
    refine ⟨.inl ⟨?_, writers⟩, ?_, ?_⟩
    · change s32 (system.sem.activity + 1) = ((task :: system.readHolders).length : Int)
      rw [next, reads, length_cons]
      omega
    · exact fun _ => open_.2
    · intro _ waiter rest waits
      cases waits.symm.trans open_.2
  · omega

theorem grantWrite_sound (task : Task)
    (open_ : system.sem.activity = 0 ∧ system.sem.waitList = []) :
    Sound (system.grantWrite task ({ system.sem with activity := -1 }, true)) := by
  rcases sound.counted with ⟨reads, writers⟩ | ⟨written, _, _⟩
  · have nobody : system.readHolders = [] := by
      apply eq_nil_of_length_eq_zero
      omega
    change Sound ⟨⟨-1, system.sem.waitList⟩, system.readHolders, task :: system.writeHolders⟩
    rw [nobody, writers]
    exact written_sound task _
  · omega

/-- A task that cannot have the lock queues behind the others; the first of them stays first. -/
theorem wait_sound (waiter : RwsemWaiter) (held : system.sem.activity ≠ 0)
    (first : 0 < system.sem.activity → system.sem.waitList = [] → waiter.flags = .waitingForWrite) :
    Sound { system with
      sem := { system.sem with waitList := system.sem.waitList ++ [waiter] } } := by
  refine ⟨sound.counted, ?_, ?_⟩
  · intro zero
    exact absurd zero held
  · intro positive head rest waits
    cases queue : system.sem.waitList with
    | nil =>
      rw [queue] at waits
      cases waits
      exact first positive queue
    | cons old others =>
      rw [queue] at waits
      cases waits
      exact sound.writerFirst positive head others queue

section

variable (task : Task)

include task

theorem downRead_sound (bound : (act system (.downRead task)).readHolders.length < 2 ^ 31) :
    Sound (act system (.downRead task)) := by
  simp only [act, CompatRwSemaphore.downRead] at bound ⊢
  split at bound
  next open_ =>
    rw [if_pos open_]
    exact grantRead_sound sound task open_ bound
  next busy =>
    rw [if_neg busy]
    apply wait_sound sound ⟨task, .waitingForRead⟩
    · intro zero
      exact busy ⟨by omega, sound.free zero⟩
    · intro positive empty
      exact absurd ⟨by omega, empty⟩ busy

theorem downReadTrylock_sound
    (bound : (act system (.downReadTrylock task)).readHolders.length < 2 ^ 31) :
    Sound (act system (.downReadTrylock task)) := by
  simp only [act, CompatRwSemaphore.downReadTrylock] at bound ⊢
  split at bound
  next open_ =>
    rw [if_pos open_]
    exact grantRead_sound sound task open_ bound
  next busy =>
    rw [if_neg busy]
    exact sound

theorem downWrite_sound : Sound (act system (.downWrite task)) := by
  simp only [act, CompatRwSemaphore.downWrite]
  split
  next open_ => exact grantWrite_sound sound task open_
  next busy =>
    apply wait_sound sound ⟨task, .waitingForWrite⟩
    · intro zero
      exact busy ⟨zero, sound.free zero⟩
    · intro _ _
      rfl

theorem downWriteTrylock_sound : Sound (act system (.downWriteTrylock task)) := by
  simp only [act, CompatRwSemaphore.downWriteTrylock]
  split
  next open_ => exact grantWrite_sound sound task open_
  next busy => exact sound

/-- A reader's counter while a task of `readHolders` holds the lock. -/
theorem activity_of_reader (holds : task ∈ system.readHolders) :
    system.sem.activity = system.readHolders.length ∧ system.writeHolders = [] := by
  rcases sound.counted with reads | ⟨_, nobody, _⟩
  · exact reads
  · rw [nobody] at holds
    cases holds

theorem holders_of_writer (holds : task ∈ system.writeHolders) :
    system.readHolders = [] ∧ system.writeHolders.erase task = [] := by
  rcases sound.counted with ⟨_, nobody⟩ | ⟨_, readers, one⟩
  · rw [nobody] at holds
    cases holds
  · refine ⟨readers, ?_⟩
    apply eq_nil_of_length_eq_zero
    rw [length_erase_of_mem holds, one]

/-- `__up_read` wakes at most the first waiter, and only a writer. -/
theorem upRead_wakes_writer (holds : task ∈ system.readHolders)
    (bound : system.readHolders.length < 2 ^ 31) (waiter : RwsemWaiter)
    (woken : waiter ∈ system.sem.upRead.2) :
    waiter.flags = .waitingForWrite := by
  have reads := activity_of_reader sound task holds
  have positive : 0 < system.readHolders.length := length_pos_of_mem holds
  rw [CompatRwSemaphore.upRead] at woken
  split at woken
  next =>
    rw [CompatRwSemaphore.rwsemWakeOneWriter] at woken
    split at woken
    next => cases woken
    next first rest queue =>
      obtain rfl := mem_singleton.mp woken
      exact sound.writerFirst (by omega) waiter rest queue
  next => cases woken

theorem upRead_sound (holds : task ∈ system.readHolders)
    (bound : system.readHolders.length < 2 ^ 31) :
    Sound (act system (.upRead task)) := by
  have reads := activity_of_reader sound task holds
  have positive : 0 < system.readHolders.length := length_pos_of_mem holds
  have fewer : (system.readHolders.erase task).length = system.readHolders.length - 1 :=
    length_erase_of_mem holds
  have next : s32 (system.sem.activity - 1) = system.sem.activity - 1 :=
    s32_of_range _ (by omega) (by omega)
  simp only [act, CompatRwSemaphore.upRead, next]
  split
  next last =>
    -- the lock is free and somebody waits for it
    cases queue : system.sem.waitList with
    | nil => exact absurd queue last.2
    | cons waiter rest =>
      have writes := sound.writerFirst (by omega) waiter rest queue
      simp only [CompatRwSemaphore.rwsemWakeOneWriter]
      have nobody : system.readHolders.erase task = [] := by
        apply eq_nil_of_length_eq_zero
        omega
      rw [resume_writer _ _ _ writes]
      simp only [nobody, reads.2]
      exact written_sound waiter.task rest
  next others =>
    refine ⟨.inl ⟨?_, reads.2⟩, ?_, ?_⟩
    · change system.sem.activity - 1 = ((system.readHolders.erase task).length : Int)
      omega
    · intro zero
      exact not_not.mp fun waits => others ⟨zero, waits⟩
    · intro _
      exact sound.writerFirst (by omega)

end

end

/-- The readers in front of the queue join those that have the lock. -/
theorem batch_sound (holders : List Task) {waiter : RwsemWaiter} {rest : List RwsemWaiter}
    (reads : waiter.flags = .waitingForRead) {after : System}
    (resumed : System.resume ⟨⟨holders.length, waiter :: rest⟩, holders, []⟩
      (⟨s32 (holders.length + (wakeReaders (waiter :: rest)).1.length),
        (wakeReaders (waiter :: rest)).2⟩, (wakeReaders (waiter :: rest)).1) = after)
    (bound : after.readHolders.length < 2 ^ 31) : Sound after := by
  have some_ := wakeReaders_cons_pos waiter rest reads
  generalize waits : waiter :: rest = queue at resumed some_
  obtain ⟨sem, writers, readers⟩ := wake_readers ⟨⟨s32 (holders.length +
    (wakeReaders queue).1.length), (wakeReaders queue).2⟩, holders, []⟩ _ (wakeReaders_woken queue)
  rw [← resumed, System.resume] at bound ⊢
  dsimp only at bound readers ⊢
  have next : s32 (holders.length + (wakeReaders queue).1.length) =
      holders.length + (wakeReaders queue).1.length := s32_of_range _ (by omega) (by omega)
  refine ⟨.inl ⟨?_, writers⟩, ?_, ?_⟩
  · rw [sem, readers, next]
    rfl
  · rw [sem]
    dsimp only
    omega
  · rw [sem]
    intro _
    exact wakeReaders_left queue

theorem unlocked_sound : Sound unlocked := by
  exact ⟨.inl ⟨rfl, rfl⟩, fun _ => rfl, fun positive => (by cases positive)⟩

/-- One reader in front of the queue that a writer left. -/
theorem downgraded_sound (task : Task) (queue : List RwsemWaiter)
    (first : ∀ waiter rest, queue = waiter :: rest → waiter.flags = .waitingForWrite) :
    Sound ⟨⟨1, queue⟩, [task], []⟩ := by
  exact ⟨.inl ⟨rfl, rfl⟩, fun zero => (by cases zero), fun _ => first⟩

theorem upWrite_sound (sound : Sound system) (task : Task)
    (holds : task ∈ system.writeHolders)
    (bound : (act system (.upWrite task)).readHolders.length < 2 ^ 31) :
    Sound (act system (.upWrite task)) := by
  obtain ⟨nobody, alone⟩ := holders_of_writer sound task holds
  simp only [act, CompatRwSemaphore.upWrite, nobody, alone] at bound ⊢
  cases queue : system.sem.waitList with
  | nil => exact unlocked_sound
  | cons waiter rest =>
    rw [queue, if_pos (cons_ne_nil _ _)] at bound
    rw [if_pos (cons_ne_nil _ _)]
    simp only [CompatRwSemaphore.rwsemDoWake] at bound ⊢
    cases flags : waiter.flags with
    | waitingForWrite =>
      rw [resume_writer _ _ _ flags]
      exact written_sound waiter.task rest
    | waitingForRead =>
      simp only [flags] at bound ⊢
      exact batch_sound [] flags rfl bound

theorem downgradeWrite_sound (sound : Sound system) (task : Task)
    (holds : task ∈ system.writeHolders)
    (bound : (act system (.downgradeWrite task)).readHolders.length < 2 ^ 31) :
    Sound (act system (.downgradeWrite task)) := by
  obtain ⟨nobody, alone⟩ := holders_of_writer sound task holds
  simp only [act, CompatRwSemaphore.downgradeWrite, nobody, alone] at bound ⊢
  cases queue : system.sem.waitList with
  | nil =>
    exact downgraded_sound task [] nofun
  | cons waiter rest =>
    rw [queue, if_pos (cons_ne_nil _ _)] at bound
    simp only [CompatRwSemaphore.rwsemDoWake] at bound ⊢
    cases flags : waiter.flags with
    | waitingForWrite =>
      apply downgraded_sound task (waiter :: rest)
      intro first others waits
      cases waits
      exact flags
    | waitingForRead =>
      simp only [flags] at bound ⊢
      exact batch_sound [task] flags rfl bound

/-- The release is by a holder, and the counter can count the readers afterwards. -/
def Allowed (system : System) (op : Op) : Prop :=
  ByHolder system op ∧ (act system op).readHolders.length < 2 ^ 31

instance (system : System) (op : Op) : Decidable (Allowed system op) :=
  inferInstanceAs (Decidable (_ ∧ _))

/-- The invariant of a run: the counter still counts the readers. -/
structure Counting (system : System) : Prop where
  sound : Sound system
  bound : system.readHolders.length < 2 ^ 31

theorem act_counting (counting : Counting system) (op : Op) (allowed : Allowed system op) :
    Counting (act system op) := by
  refine ⟨?_, allowed.2⟩
  obtain ⟨byHolder, bound⟩ := allowed
  cases op with
  | downRead task => exact downRead_sound counting.sound task bound
  | downReadTrylock task => exact downReadTrylock_sound counting.sound task bound
  | downWrite task => exact downWrite_sound counting.sound task
  | downWriteTrylock task => exact downWriteTrylock_sound counting.sound task
  | upRead task => exact upRead_sound counting.sound task byHolder counting.bound
  | upWrite task => exact upWrite_sound counting.sound task byHolder bound
  | downgradeWrite task => exact downgradeWrite_sound counting.sound task byHolder bound

/-- As long as fewer than `2 ^ 31` read locks are held at once: the counter counts the
holders, nobody waits for a free lock, a lock that readers hold is waited for by a
writer first, and the last reader hands it to a writer. -/
theorem rwsem_counts_holders (ops : List Op) (final : System)
    (permitted : Runs.Along step Allowed unlocked ops)
    (executed : Runs.run step unlocked ops = some final) :
    ((final.sem.activity = final.readHolders.length ∧ final.writeHolders = []) ∨
      (final.sem.activity = -1 ∧ final.readHolders = [] ∧ final.writeHolders.length = 1)) ∧
    (final.sem.activity = 0 → final.sem.waitList = []) ∧
    (0 < final.sem.activity → ∀ waiter rest,
      final.sem.waitList = waiter :: rest → waiter.flags = .waitingForWrite) ∧
    (∀ task ∈ final.readHolders, ∀ waiter ∈ final.sem.upRead.2,
      waiter.flags = .waitingForWrite) := by
  have counting : Counting final := by
    apply Runs.run_invariant _ ops unlocked final ⟨unlocked_sound, by decide⟩ permitted executed
    intro state op next before allowed stepped
    cases stepped
    exact act_counting before op allowed
  refine ⟨counting.sound.counted, counting.sound.free, counting.sound.writerFirst, ?_⟩
  intro task holds waiter woken
  exact upRead_wakes_writer counting.sound task holds counting.bound waiter woken

/-- Two readers, a writer and a reader that wait, and the releases that serve them. -/
theorem rwsem_counts_holders_queue :
    ∃ final, Runs.run step unlocked [.downRead 1, .downRead 2, .downWrite 3, .downRead 4,
        .upRead 1, .upRead 2, .downgradeWrite 3] = some final ∧
      final.readHolders = [4, 3] ∧ final.sem.activity = 2 ∧
      (final.sem.activity = 0 → final.sem.waitList = []) := by
  refine ⟨⟨⟨2, []⟩, [4, 3], []⟩, (and_iff_left_of_imp fun executed => ?_).mpr (by decide +kernel)⟩
  exact ⟨rfl, rfl, (rwsem_counts_holders _ _ (by decide +kernel) executed).2.1⟩

/-- Below the limit every reader is granted and counted. -/
theorem run_downRead (count : Nat) (bound : count < 2 ^ 31) :
    Runs.run step unlocked (List.replicate count (.downRead 0)) =
      some ⟨⟨count, []⟩, List.replicate count 0, []⟩ := by
  induction count with
  | zero => rfl
  | succ count ih =>
    have next : s32 ((count : Int) + 1) = (count + 1 : Nat) := s32_of_range _ (by omega) (by omega)
    rw [replicate_succ', Runs.run_append, ih (by omega), Option.bind_some, Runs.run_cons]
    simp [step, act, CompatRwSemaphore.downRead, System.grantRead, next, replicate_succ]

/-- The reader that makes `2 ^ 31` of them turns the counter negative. -/
theorem tooManyReaders_miscounted :
    ∃ final, Runs.run step unlocked (List.replicate (2 ^ 31) (.downRead 0)) = some final ∧
      Runs.Along step ByHolder unlocked (List.replicate (2 ^ 31) (.downRead 0)) ∧
      ¬((final.sem.activity = final.readHolders.length ∧ final.writeHolders = []) ∨
        (final.sem.activity = -1 ∧ final.readHolders = [] ∧ final.writeHolders.length = 1)) := by
  refine ⟨⟨⟨-2 ^ 31, []⟩, List.replicate (2 ^ 31) 0, []⟩, ?_, ?_, ?_⟩
  · rw [show 2 ^ 31 = 2 ^ 31 - 1 + 1 by decide, replicate_succ', Runs.run_append,
      run_downRead _ (by decide), Option.bind_some, Runs.run_cons]
    rfl
  · generalize 2 ^ 31 = count
    generalize unlocked = start
    induction count generalizing start with
    | zero => trivial
    | succ count ih => exact ⟨trivial, fun next _ => ih next⟩
  · rintro (⟨counted, _⟩ | ⟨written, _⟩)
    · have negative : (-2 ^ 31 : Int) = ((List.replicate (2 ^ 31) 0).length : Int) := counted
      omega
    · have value : (-2 ^ 31 : Int) = -1 := written
      omega

end MagxKernel.RwSem
