import MagxKernel.FileLocks.PosixLock
import MagxKernel.Lib.MachineInt

namespace MagxKernel.FileLocks

open MachineInt (s32)

abbrev einval : Int := 22
abbrev eoverflow : Int := 75

/-- `struct flock`, whose offsets are of type `off_t`, or `struct flock64`. -/
structure Flock where
  lType : Int
  lWhence : Int
  lStart : Int
  lLen : Int

/-- The position of an open file, and the size of its inode. -/
structure OpenFile where
  fPos : Int
  iSize : Int

variable {Owner : Type}

/-- The position that `l_start` counts from. -/
def Flock.base (l : Flock) (filp : OpenFile) : Except Int Int :=
  match l.lWhence with
  | 0 => .ok 0
  | 1 => .ok filp.fPos
  | 2 => .ok filp.iSize
  | _ => .error (-einval)

def assignType : Int → Except Int LockType
  | 0 => .ok .rdlck
  | 1 => .ok .wrlck
  | 2 => .ok .unlck
  | _ => .error (-einval)

/-- A lock of the owner `files` on a range; wait queues stay as they are. -/
def FileLock.fill (fl : FileLock Owner) (files : Owner) (type : LockType) (start stop : Int) :
    FileLock Owner :=
  ⟨files, type, start, stop, true, false, false, fl.flNext, fl.flBlock⟩

/-- What both conversions do with the bounds. -/
def storeRange (files : Owner) (fl : FileLock Owner) (l : Flock) (start stop : Int) :
    Except Int (FileLock Owner) :=
  if 0 < l.lLen ∧ stop < 0 then .error (-eoverflow)
  else (assignType l.lType).map fun type =>
    fl.fill files type start (if l.lLen = 0 then offsetMax else stop)

/-- `start` and `end` are of type `off_t`, which has 32 bits. -/
def flockToPosixLock (files : Owner) (filp : OpenFile) (fl : FileLock Owner) (l : Flock) :
    Except Int (FileLock Owner) :=
  (l.base filp).bind fun base =>
    let place := s32 (s32 base + l.lStart)
    let stop := if l.lLen < 0 then s32 (place - 1) else s32 (place + l.lLen - 1)
    let start := if l.lLen < 0 then s32 (place + l.lLen) else place
    if start < 0 then .error (-einval) else storeRange files fl l start stop

def flock64ToPosixLock (files : Owner) (filp : OpenFile) (fl : FileLock Owner) (l : Flock) :
    Except Int (FileLock Owner) :=
  (l.base filp).bind fun base =>
    let start := loff (base + l.lStart)
    if start < 0 ∨ l.lLen < 0 then .error (-einval)
    else storeRange files fl l start (loff (start + l.lLen - 1))

/-- The first byte that a request means. -/
def Flock.first (l : Flock) (base : Int) : Int :=
  if l.lLen < 0 then base + l.lStart + l.lLen else base + l.lStart

/-- The last byte that a request means. -/
def Flock.last (l : Flock) (base : Int) : Int :=
  if l.lLen < 0 then base + l.lStart - 1
  else if l.lLen = 0 then offsetMax else base + l.lStart + l.lLen - 1

/-- The bytes lie up to a limit; a range without an end only has to begin there. -/
def Flock.Within (l : Flock) (limit base : Int) : Prop :=
  0 ≤ l.first base ∧ l.first base ≤ limit ∧ (l.lLen ≠ 0 → l.last base ≤ limit)

/-- The lock covers exactly the bytes that the request means. -/
def Exact (limit : Int) (files : Owner) (filp : OpenFile) (fl : FileLock Owner) (l : Flock)
    (lock : FileLock Owner) : Prop :=
  ∃ base type, l.base filp = .ok base ∧ assignType l.lType = .ok type ∧ l.Within limit base ∧
    lock = fl.fill files type (l.first base) (l.last base)

/-- The members fit their type. -/
structure Flock.InType (l : Flock) (bound : Int) : Prop where
  lStart : -bound ≤ l.lStart ∧ l.lStart < bound
  lLen : -bound ≤ l.lLen ∧ l.lLen < bound

structure OpenFile.Valid (filp : OpenFile) : Prop where
  fPos : 0 ≤ filp.fPos ∧ filp.fPos ≤ offsetMax
  iSize : 0 ≤ filp.iSize ∧ filp.iSize ≤ offsetMax

/-- The position fits an `off_t`, and the bounds of a range that ends in front of the
place `l_start` do too. -/
def Flock.NoWrap (l : Flock) (filp : OpenFile) : Prop :=
  ∀ base, l.base filp = .ok base → base < 2 ^ 31 ∧
    (l.lLen < 0 → base + l.lStart ≤ 2 ^ 31 ∧ -2 ^ 31 ≤ base + l.lStart + l.lLen)

section

variable {files : Owner} {filp : OpenFile} {fl lock : FileLock Owner} {l : Flock}

theorem OpenFile.Valid.base (valid : filp.Valid) {base : Int} (found : l.base filp = .ok base) :
    0 ≤ base ∧ base ≤ offsetMax := by
  unfold Flock.base at found
  split at found
  · cases found
    decide
  · cases found
    exact valid.fPos
  · cases found
    exact valid.iSize
  · cases found

/-- A conversion is exact if its tests accept the right ranges and it then has the right
bounds. -/
theorem exact_iff {limit start stop base : Int} {refused : Prop} [Decidable refused]
    (found : l.base filp = .ok base)
    (accepts : ¬refused ∧ ¬(0 < l.lLen ∧ stop < 0) ↔ l.Within limit base)
    (bounds : l.Within limit base → start = l.first base ∧
      (if l.lLen = 0 then offsetMax else stop) = l.last base) :
    (if refused then .error (-einval) else storeRange files fl l start stop) = .ok lock ↔
      Exact limit files filp fl l lock := by
  unfold Exact storeRange
  rw [found]
  by_cases within : l.Within limit base
  · obtain ⟨known, fits⟩ := accepts.mpr within
    obtain ⟨first, last⟩ := bounds within
    rw [if_neg known, if_neg fits, first, last]
    cases assignType l.lType <;> simp [Except.map, within, eq_comm]
  · have refuses := mt accepts.mp within
    by_cases known : refused
    · simp [known, within]
    · have past : 0 < l.lLen ∧ stop < 0 := Classical.byContradiction fun fits =>
        refuses ⟨known, fits⟩
      simp [known, past, within]

/-- Both conversions store the exact range and refuse all others, the one for `off_t`
within the limits of that type and the other one without negative lengths. -/
theorem toPosixLock_exact (valid : filp.Valid) :
    (l.InType (2 ^ 63) → (flock64ToPosixLock files filp fl l = .ok lock ↔
      0 ≤ l.lLen ∧ Exact offsetMax files filp fl l lock)) ∧
    (l.InType (2 ^ 31) → l.NoWrap filp → (flockToPosixLock files filp fl l = .ok lock ↔
      Exact (2 ^ 31 - 1) files filp fl l lock)) := by
  unfold flock64ToPosixLock flockToPosixLock
  cases found : l.base filp with
  | error refused => simp [Exact, found, Except.bind]
  | ok base =>
    have ⟨lower, upper⟩ := valid.base found
    refine ⟨fun ⟨start, len⟩ => ?_, fun ⟨start, len⟩ noWrap => ?_⟩
    · by_cases forward : 0 ≤ l.lLen
      · rw [and_iff_right forward]
        apply exact_iff found <;>
          simp only [loff, Int.bmod_def, Flock.Within, Flock.first, Flock.last, offsetMax] at * <;>
          omega
      · simp [Except.bind, forward, Int.not_le.mp forward]
    · have narrow := noWrap base found
      apply exact_iff found <;>
        simp only [s32, Int.bmod_def, Flock.Within, Flock.first, Flock.last, offsetMax] at * <;>
        omega

end

/-- A lock that `locks_init_lock` has made. -/
def initLock : FileLock Unit := ⟨(), .rdlck, 0, 0, false, false, false, none, []⟩

/-- A range in front of the position, and one up to the end of the file. -/
theorem toPosixLock_exact_around :
    flockToPosixLock () ⟨10, 20⟩ initLock ⟨0, 1, 5, -3⟩ =
      .ok ⟨(), .rdlck, 12, 14, true, false, false, none, []⟩ ∧
    flock64ToPosixLock () ⟨10, 20⟩ initLock ⟨1, 2, 5, 0⟩ =
      .ok ⟨(), .wrlck, 25, offsetMax, true, false, false, none, []⟩ := by
  have valid : OpenFile.Valid ⟨10, 20⟩ := ⟨by decide, by decide⟩
  constructor
  · refine ((toPosixLock_exact valid).2 ⟨by decide, by decide⟩ ?_).mpr
      ⟨10, .rdlck, rfl, rfl, ⟨by decide, by decide, by decide⟩, rfl⟩
    rintro base ⟨⟩
    decide
  · exact ((toPosixLock_exact valid).1 ⟨by decide, by decide⟩).mpr
      ⟨by decide, 20, .wrlck, rfl, rfl, ⟨by decide, by decide, by decide⟩, rfl⟩

/-- A range that ends just past the largest `off_t` is refused, and so is one in front of
the place `l_start` of a `struct flock64`. -/
theorem toPosixLock_refuses :
    (Flock.mk 0 0 (2 ^ 31 - 1) 2).Within offsetMax 0 ∧
    flockToPosixLock () ⟨0, 0⟩ initLock
      ⟨0, 0, 2 ^ 31 - 1, 2⟩ = .error (-eoverflow) ∧
    (Flock.mk 0 0 5 (-3)).Within offsetMax 0 ∧
    flock64ToPosixLock () ⟨0, 0⟩ initLock
      ⟨0, 0, 5, -3⟩ = .error (-einval) :=
  ⟨⟨by decide, by decide, by decide⟩, rfl, ⟨by decide, by decide, by decide⟩, rfl⟩

end MagxKernel.FileLocks
