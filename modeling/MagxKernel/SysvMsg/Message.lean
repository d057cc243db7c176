import Mathlib.Algebra.GroupWithZero.Nat
import Mathlib.Data.List.Basic
import MagxKernel.Lib.MachineInt

namespace MagxKernel.SysvMsg

open List
open MachineInt (s32 s32_of_range)

/-- `struct msg_msg`: its identity, `m_type` and `m_ts`. The text is never looked at. -/
structure Msg where
  ident : Nat
  mType : Int
  mTs : Nat
deriving DecidableEq

inductive SearchMode where
  | any
  | equal
  | notEqual
  | lessEqual
deriving DecidableEq

/-- The bits of `msgflg` that `sys_msgrcv` reads. -/
structure RecvFlags where
  ipcNowait : Bool
  msgNoerror : Bool
  msgExcept : Bool
deriving DecidableEq

/-- `LONG_MIN` of a machine with 32-bit longs. -/
def longMin : Int := -2 ^ 31

def InLong (value : Int) : Prop := -2 ^ 31 ≤ value ∧ value < 2 ^ 31

def testmsg (msg : Msg) (type : Int) (mode : SearchMode) : Bool :=
  match mode with
  | .any => true
  | .lessEqual => decide (msg.mType ≤ type)
  | .equal => decide (msg.mType = type)
  | .notEqual => decide (msg.mType ≠ type)

/-- `convert_mode`: the new `*msgtyp` and the mode. The negation is a signed long. -/
def convertMode (msgtyp : Int) (msgExcept : Bool) : Int × SearchMode :=
  if msgtyp = 0 then (msgtyp, .any)
  else if msgtyp < 0 then (s32 (-msgtyp), .lessEqual)
  else if msgExcept then (msgtyp, .notEqual)
  else (msgtyp, .equal)

/-- The walk of `sys_msgrcv` over `q_messages`. A message that matches a
`SEARCH_LESSEQUAL` lowers the type that the rest has to undercut. -/
def scan (mode : SearchMode) : Int → Option Msg → List Msg → Option Msg
  | _, found, [] => found
  | msgtyp, found, walkMsg :: rest =>
      if testmsg walkMsg msgtyp mode then
        if mode = .lessEqual ∧ walkMsg.mType ≠ 1 then
          scan mode (s32 (walkMsg.mType - 1)) (some walkMsg) rest
        else some walkMsg
      else scan mode msgtyp found rest

/-- What one turn of the loop of `sys_msgrcv` finds. -/
inductive Found where
  /-- a message, unlinked from the queue -/
  | taken (msg : Msg) (left : List Msg)
  /-- `-E2BIG`, the message stays -/
  | tooBig (msg : Msg)
  /-- no message: the caller sleeps or gets `-ENOMSG` -/
  | nothing
deriving DecidableEq

def takeMessage (qMessages : List Msg) (msgtyp : Int) (mode : SearchMode) (msgsz : Nat)
    (msgNoerror : Bool) : Found :=
  match scan mode msgtyp none qMessages with
  | none => .nothing
  | some msg =>
      if msgsz < msg.mTs ∧ msgNoerror = false then .tooBig msg
      else .taken msg (qMessages.erase msg)

/-- `sys_msgrcv` from its entry to the end of the first walk. -/
def msgrcv (qMessages : List Msg) (msgsz : Nat) (msgtyp : Int) (flags : RecvFlags) : Found :=
  let converted := convertMode msgtyp flags.msgExcept
  takeMessage qMessages converted.1 converted.2 msgsz flags.msgNoerror

/-- The messages a call may be given. `msgtyp` is the caller's, before any conversion. -/
def Qualifies (msgtyp : Int) (msgExcept : Bool) (msg : Msg) : Prop :=
  if msgtyp = 0 then True
  else if msgtyp < 0 then msg.mType ≤ -msgtyp
  else if msgExcept then msg.mType ≠ msgtyp
  else msg.mType = msgtyp

/-- Of the messages that qualify for a negative `msgtyp` only those of the lowest
type are wanted. -/
def Wanted (qMessages : List Msg) (msgtyp : Int) (msgExcept : Bool) (msg : Msg) : Prop :=
  Qualifies msgtyp msgExcept msg ∧
    (msgtyp < 0 → ∀ other ∈ qMessages, Qualifies msgtyp msgExcept other → msg.mType ≤ other.mType)

/-- The element is the first of the list with the property. -/
def IsFirst {α : Type} (wanted : α → Prop) (list : List α) (found : α) : Prop :=
  ∃ before after, list = before ++ found :: after ∧ wanted found ∧
    ∀ other ∈ before, ¬ wanted other

/-- The call acts on the first wanted message: it takes it, or leaves it on the
queue when it is longer than the buffer and may not be cut. It finds nothing only
when no message qualifies. -/
def ActsOnWanted (qMessages : List Msg) (msgsz : Nat) (msgtyp : Int) (flags : RecvFlags) :
    Found → Prop
  | .taken msg left =>
      IsFirst (Wanted qMessages msgtyp flags.msgExcept) qMessages msg ∧
        left = qMessages.erase msg ∧ (msg.mTs ≤ msgsz ∨ flags.msgNoerror = true)
  | .tooBig msg =>
      IsFirst (Wanted qMessages msgtyp flags.msgExcept) qMessages msg ∧
        msgsz < msg.mTs ∧ flags.msgNoerror = false
  | .nothing => ∀ msg ∈ qMessages, ¬ Qualifies msgtyp flags.msgExcept msg

theorem IsFirst.head {α : Type} {wanted : α → Prop} {found : α} {rest : List α}
    (holds : wanted found) : IsFirst wanted (found :: rest) found :=
  ⟨[], rest, rfl, holds, forall_mem_nil _⟩

theorem IsFirst.cons {α : Type} {wanted narrower : α → Prop} {first found : α} {rest : List α}
    (inRest : IsFirst narrower rest found) (skipped : ¬ wanted first)
    (same : ∀ element ∈ rest, narrower element ↔ wanted element) :
    IsFirst wanted (first :: rest) found := by
  obtain ⟨before, after, rfl, holds, earlier⟩ := inRest
  refine ⟨first :: before, after, rfl, (same found (by simp)).mp holds,
    forall_mem_cons.mpr ⟨skipped, fun other inBefore wants => earlier other inBefore ?_⟩⟩
  exact (same other (mem_append_left _ inBefore)).mpr wants

variable {mode : SearchMode} {msgtyp : Int} {qMessages : List Msg} (msgExcept : Bool)

/-- The other modes stop at the first match. -/
theorem scan_first (plain : mode ≠ .lessEqual) (qMessages : List Msg) (msgtyp : Int)
    (found : Option Msg) :
    (∃ msg, IsFirst (testmsg · msgtyp mode = true) qMessages msg ∧
        scan mode msgtyp found qMessages = some msg) ∨
      (∀ msg ∈ qMessages, testmsg msg msgtyp mode = false) ∧
        scan mode msgtyp found qMessages = found := by
  induction qMessages with
  | nil => exact .inr ⟨forall_mem_nil _, rfl⟩
  | cons walkMsg rest ih =>
    by_cases hit : testmsg walkMsg msgtyp mode = true
    · refine .inl ⟨walkMsg, IsFirst.head hit, ?_⟩
      rw [scan, if_pos hit, if_neg (fun both => plain both.1)]
    · rw [scan, if_neg hit]
      cases ih with
      | inl hitLater =>
        obtain ⟨msg, first, result⟩ := hitLater
        exact .inl ⟨msg, first.cons hit (fun _ _ => Iff.rfl), result⟩
      | inr missed =>
        exact .inr ⟨forall_mem_cons.mpr ⟨Bool.eq_false_iff.mpr hit, missed.1⟩, missed.2⟩

/-- A message of the lowest type up to a limit. -/
def Least (limit : Int) (qMessages : List Msg) (msg : Msg) : Prop :=
  msg.mType ≤ limit ∧ ∀ other ∈ qMessages, other.mType ≤ limit → msg.mType ≤ other.mType

theorem least_cons_of_lower {limit : Int} {first : Msg} {rest : List Msg} {lower : Msg}
    (within : first.mType ≤ limit) (inRest : lower ∈ rest)
    (below : lower.mType ≤ first.mType - 1) (msg : Msg) :
    Least (first.mType - 1) rest msg ↔ Least limit (first :: rest) msg := by
  constructor
  · intro least
    refine ⟨by have := least.1; omega, fun other inside _ => ?_⟩
    cases mem_cons.mp inside with
    | inl here => have := least.1; rw [here]; omega
    | inr later =>
      by_cases under : other.mType ≤ first.mType - 1
      · exact least.2 other later under
      · have := least.1
        omega
  · intro least
    have bound := least.2 lower (mem_cons_of_mem _ inRest) (by omega)
    exact ⟨by omega, fun other later under =>
      least.2 other (mem_cons_of_mem _ later) (by omega)⟩

theorem least_cons_of_above {limit : Int} {first : Msg} {rest : List Msg}
    (above : limit < first.mType) (msg : Msg) :
    Least limit rest msg ↔ Least limit (first :: rest) msg := by
  constructor
  · intro least
    refine ⟨least.1, fun other inside within => ?_⟩
    cases mem_cons.mp inside with
    | inl here => rw [here] at within; omega
    | inr later => exact least.2 other later within
  · exact fun least => ⟨least.1, fun other later =>
      least.2 other (mem_cons_of_mem _ later)⟩

/-- `SEARCH_LESSEQUAL` ends with the first message of the lowest type. -/
theorem scan_least (qMessages : List Msg) (msgtyp : Int) (found : Option Msg)
    (types : ∀ msg ∈ qMessages, 1 ≤ msg.mType ∧ InLong msg.mType) :
    (∃ msg, IsFirst (Least msgtyp qMessages) qMessages msg ∧
        scan .lessEqual msgtyp found qMessages = some msg) ∨
      (∀ msg ∈ qMessages, msgtyp < msg.mType) ∧ scan .lessEqual msgtyp found qMessages = found := by
  induction qMessages generalizing msgtyp found with
  | nil => exact .inr ⟨forall_mem_nil _, rfl⟩
  | cons walkMsg rest ih =>
    have positive := (types walkMsg (by simp)).1
    have inLong := (types walkMsg (by simp)).2
    have restTypes := fun msg inside => types msg (mem_cons_of_mem walkMsg inside)
    by_cases hit : walkMsg.mType ≤ msgtyp
    · have matched : testmsg walkMsg msgtyp .lessEqual = true := decide_eq_true hit
      by_cases lowest : walkMsg.mType = 1
      · refine .inl ⟨walkMsg, IsFirst.head ⟨hit, fun other inside _ => ?_⟩, ?_⟩
        · rw [lowest]
          exact (types other inside).1
        · rw [scan, if_pos matched, if_neg (fun both => both.2 lowest)]
      · have lowered : s32 (walkMsg.mType - 1) = walkMsg.mType - 1 := by
          have := inLong.2
          apply s32_of_range <;> omega
        rw [scan, if_pos matched, if_pos ⟨rfl, lowest⟩, lowered]
        cases ih (walkMsg.mType - 1) (some walkMsg) restTypes with
        | inl hitLater =>
          obtain ⟨msg, first, result⟩ := hitLater
          have place := first
          obtain ⟨before, after, rfl, least, _⟩ := place
          have inRest : msg ∈ before ++ msg :: after := by simp
          have same := least_cons_of_lower hit inRest least.1
          refine .inl ⟨msg, first.cons (fun leastHead => ?_) (fun other _ => same other), result⟩
          have := leastHead.2 msg (by simp) (by have := least.1; omega)
          have := least.1
          omega
        | inr missed =>
          refine .inl ⟨walkMsg, IsFirst.head ⟨hit, fun other inside _ => ?_⟩, missed.2⟩
          cases mem_cons.mp inside with
          | inl here => exact here ▸ Int.le_refl _
          | inr later => have := missed.1 other later; omega
    · have above : msgtyp < walkMsg.mType := by omega
      have missing : ¬ testmsg walkMsg msgtyp .lessEqual = true := fun matched =>
        hit (of_decide_eq_true matched)
      rw [scan, if_neg missing]
      cases ih msgtyp found restTypes with
      | inl hitLater =>
        obtain ⟨msg, first, result⟩ := hitLater
        exact .inl ⟨msg, first.cons (fun leastHead => hit leastHead.1)
          (fun other _ => least_cons_of_above above other), result⟩
      | inr missed =>
        exact .inr ⟨forall_mem_cons.mpr ⟨above, missed.1⟩, missed.2⟩

theorem scan_mem {found : Option Msg} {msg : Msg}
    (result : scan mode msgtyp found qMessages = some msg) :
    msg ∈ qMessages ∨ found = some msg := by
  induction qMessages generalizing msgtyp found with
  | nil => exact .inr result
  | cons walkMsg rest ih =>
    rw [scan] at result
    split at result
    · split at result
      · cases ih result with
        | inl later => exact .inl (mem_cons_of_mem _ later)
        | inr here => exact .inl (Option.some.inj here ▸ mem_cons_self)
      · exact .inl (Option.some.inj result ▸ mem_cons_self)
    · exact (ih result).imp_left (mem_cons_of_mem _)

theorem scan_some (msgtyp : Int) (msg : Msg) (qMessages : List Msg) :
    scan mode msgtyp (some msg) qMessages ≠ none := by
  induction qMessages generalizing msgtyp msg with
  | nil => exact Option.some_ne_none msg
  | cons walkMsg rest ih =>
    rw [scan]
    split
    · split
      · exact ih _ _
      · exact Option.some_ne_none walkMsg
    · exact ih _ _

theorem scan_none (result : scan mode msgtyp none qMessages = none) :
    ∀ msg ∈ qMessages, testmsg msg msgtyp mode = false := by
  induction qMessages with
  | nil => exact forall_mem_nil _
  | cons walkMsg rest ih =>
    rw [scan] at result
    split at result
    · split at result
      · exact absurd result (scan_some _ _ _)
      · cases result
    · rename_i missed
      intro msg inside
      cases mem_cons.mp inside with
      | inl here => exact here ▸ Bool.eq_false_iff.mpr missed
      | inr later => exact ih result msg later

theorem takeMessage_taken {left : List Msg} {msgsz : Nat} {msgNoerror : Bool} {msg : Msg}
    (found : takeMessage qMessages msgtyp mode msgsz msgNoerror = .taken msg left) :
    msg ∈ qMessages ∧ left = qMessages.erase msg := by
  unfold takeMessage at found
  split at found
  · cases found
  rename_i selected result
  split at found
  · cases found
  obtain ⟨rfl, rfl⟩ := Found.taken.inj found
  exact ⟨(scan_mem result).resolve_right (Option.some_ne_none _ ∘ Eq.symm), rfl⟩

theorem takeMessage_nothing {msgsz : Nat} {msgNoerror : Bool}
    (found : takeMessage qMessages msgtyp mode msgsz msgNoerror = .nothing) :
    ∀ msg ∈ qMessages, testmsg msg msgtyp mode = false := by
  unfold takeMessage at found
  split at found
  · rename_i result
    exact scan_none result
  · split at found
    · cases found
    · cases found

theorem s32_neg (inLong : InLong msgtyp) (notMin : msgtyp ≠ longMin) : s32 (-msgtyp) = -msgtyp := by
  have := inLong.1
  have := inLong.2
  have : msgtyp ≠ -2 ^ 31 := notMin
  apply s32_of_range <;> omega

/-- Outside `SEARCH_LESSEQUAL` the walk tests exactly what qualifies. -/
theorem testmsg_convertMode (notNegative : ¬ msgtyp < 0) (msg : Msg) :
    testmsg msg (convertMode msgtyp msgExcept).1 (convertMode msgtyp msgExcept).2 = true ↔
      Qualifies msgtyp msgExcept msg := by
  unfold convertMode Qualifies
  split
  · simp [testmsg]
  · cases msgExcept with
    | false | true => simp [testmsg]

theorem convertMode_plain (notNegative : ¬ msgtyp < 0) :
    (convertMode msgtyp msgExcept).2 ≠ .lessEqual := by
  unfold convertMode
  split
  · simp
  · cases msgExcept with
    | false | true => simp

theorem qualifies_negative {msgExcept : Bool} (negative : msgtyp < 0) (msg : Msg) :
    Qualifies msgtyp msgExcept msg ↔ msg.mType ≤ -msgtyp := by
  rw [Qualifies, if_neg (by omega), if_pos negative]

/-- The walk ends with the first wanted message, for every type but `LONG_MIN`. -/
theorem scan_wanted (qMessages : List Msg)
    (types : ∀ msg ∈ qMessages, 1 ≤ msg.mType ∧ InLong msg.mType) (inLong : InLong msgtyp)
    (msgExcept : Bool) (notMin : msgtyp ≠ longMin) :
    let converted := convertMode msgtyp msgExcept
    (∃ msg, IsFirst (Wanted qMessages msgtyp msgExcept) qMessages msg ∧
        scan converted.2 converted.1 none qMessages = some msg) ∨
      (∀ msg ∈ qMessages, ¬ Qualifies msgtyp msgExcept msg) ∧
        scan converted.2 converted.1 none qMessages = none := by
  intro converted
  by_cases negative : msgtyp < 0
  · have modes : converted = (-msgtyp, .lessEqual) := by
      rw [← s32_neg inLong notMin]
      exact (if_neg (by omega)).trans (if_pos negative)
    have wanted : ∀ msg, Wanted qMessages msgtyp msgExcept msg ↔ Least (-msgtyp) qMessages msg := by
      intro msg
      simp [Wanted, Least, qualifies_negative negative, negative]
    rw [modes]
    cases scan_least qMessages (-msgtyp) none types with
    | inl hit =>
      obtain ⟨msg, first, result⟩ := hit
      rw [← funext fun other => propext (wanted other)] at first
      exact .inl ⟨msg, first, result⟩
    | inr missed =>
      refine .inr ⟨fun msg inside qualifies => ?_, missed.2⟩
      have := (qualifies_negative negative msg).mp qualifies
      have := missed.1 msg inside
      omega
  · have tests := testmsg_convertMode msgExcept negative
    have wanted : ∀ msg, testmsg msg converted.1 converted.2 = true ↔
        Wanted qMessages msgtyp msgExcept msg := fun msg =>
      (tests msg).trans ⟨fun qualifies => ⟨qualifies, fun low => absurd low negative⟩, And.left⟩
    cases scan_first (convertMode_plain msgExcept negative) qMessages converted.1 none with
    | inl hit =>
      obtain ⟨msg, first, result⟩ := hit
      rw [funext fun other => propext (wanted other)] at first
      exact .inl ⟨msg, first, result⟩
    | inr missed =>
      refine .inr ⟨fun msg inside qualifies => ?_, missed.2⟩
      have := missed.1 msg inside
      rw [(tests msg).mpr qualifies] at this
      cases this

/-- `-LONG_MIN` is `LONG_MIN` again, and no type is that small. -/
theorem scan_longMin (qMessages : List Msg)
    (types : ∀ msg ∈ qMessages, 1 ≤ msg.mType ∧ InLong msg.mType) (msgExcept : Bool) :
    let converted := convertMode longMin msgExcept
    scan converted.2 converted.1 none qMessages = none := by
  intro converted
  cases scan_least qMessages longMin none types with
  | inl hit =>
    obtain ⟨msg, ⟨before, after, rfl, least, _⟩, _⟩ := hit
    have := (types msg (by simp)).1
    have : msg.mType ≤ -2 ^ 31 := least.1
    omega
  | inr missed => exact missed.2

/-- `sys_msgrcv` acts on the message its `msgtyp` asks for, except that the most
negative type finds nothing in any queue. -/
theorem msgrcv_acts_on_wanted_iff (qMessages : List Msg)
    (types : ∀ msg ∈ qMessages, 1 ≤ msg.mType ∧ InLong msg.mType) (msgsz : Nat) (msgtyp : Int)
    (inLong : InLong msgtyp) (flags : RecvFlags) :
    ActsOnWanted qMessages msgsz msgtyp flags (msgrcv qMessages msgsz msgtyp flags) ↔
      (msgtyp ≠ longMin ∨ qMessages = []) := by
  constructor
  · intro acts
    by_cases isMin : msgtyp = longMin
    · subst isMin
      have result : msgrcv qMessages msgsz longMin flags = .nothing := by
        dsimp only [msgrcv, takeMessage]
        rw [scan_longMin qMessages types flags.msgExcept]
      rw [result] at acts
      right
      apply eq_nil_iff_forall_not_mem.mpr
      intro msg inside
      apply acts msg inside
      apply (qualifies_negative (by decide) msg).mpr
      have := (types msg inside).2.2
      have : -longMin = 2 ^ 31 := by decide
      omega
    · exact .inl isMin
  · intro condition
    by_cases isMin : msgtyp = longMin
    · obtain rfl := condition.resolve_left (fun other => other isMin)
      exact forall_mem_nil _
    · dsimp only [msgrcv, takeMessage]
      cases scan_wanted qMessages types inLong flags.msgExcept isMin with
      | inl hit =>
        obtain ⟨msg, first, result⟩ := hit
        rw [result]
        dsimp only
        split
        · rename_i tooLong
          exact ⟨first, tooLong⟩
        · rename_i fits
          refine ⟨first, rfl, ?_⟩
          cases noerror : flags.msgNoerror with
          | true => exact .inr rfl
          | false => exact .inl (Nat.le_of_not_lt fun longer => fits ⟨longer, noerror⟩)
      | inr missed =>
        rw [missed.2]
        exact missed.1

def threeMessages : List Msg := [⟨0, 7, 10⟩, ⟨1, 3, 20⟩, ⟨2, 3, 5⟩]

theorem msgrcv_acts_on_wanted_lowest :
    ActsOnWanted threeMessages 64 (-7) ⟨false, false, false⟩
      (.taken ⟨1, 3, 20⟩ [⟨0, 7, 10⟩, ⟨2, 3, 5⟩]) :=
  (msgrcv_acts_on_wanted_iff threeMessages (by unfold InLong; decide) 64 (-7)
    (by unfold InLong; decide) ⟨false, false, false⟩).mpr (.inl (by decide))

/-- A message of type 1 waits, but `msgtyp = LONG_MIN` finds nothing. -/
theorem msgrcv_longMin_misses :
    msgrcv [⟨0, 1, 4⟩] 64 longMin ⟨false, false, false⟩ = .nothing ∧
      Qualifies longMin false ⟨0, 1, 4⟩ := by
  refine ⟨by decide, ?_⟩
  unfold Qualifies
  decide

end MagxKernel.SysvMsg
