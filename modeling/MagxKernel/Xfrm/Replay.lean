import Mathlib.Data.List.Basic

namespace MagxKernel.Xfrm

/-- The part of `struct xfrm_state` that replay protection uses. The numbers are those of the
packets; no difference that is formed of them is negative. -/
structure XfrmState where
  seq : Nat
  bitmap : BitVec 32
  statsReplayWindow : Nat
  statsReplay : Nat
deriving DecidableEq

abbrev einval : Int := 22

/-- A shift by 32 or more leaves 0, as the `lsl` of the processor does. -/
def xfrmReplayCheck (replayWindow : Nat) (x : XfrmState) (seq : Nat) : Int × XfrmState :=
  if seq = 0 then (-einval, x)
  else if x.seq < seq then (0, x)
  else if replayWindow ≤ x.seq - seq then
    (-einval, { x with statsReplayWindow := x.statsReplayWindow + 1 })
  else if x.bitmap &&& 1#32 <<< (x.seq - seq) ≠ 0#32 then
    (-einval, { x with statsReplay := x.statsReplay + 1 })
  else (0, x)

def xfrmReplayAdvance (replayWindow : Nat) (x : XfrmState) (seq : Nat) : XfrmState :=
  if x.seq < seq then
    { x with
      bitmap := if seq - x.seq < replayWindow then x.bitmap <<< (seq - x.seq) ||| 1 else 1
      seq := seq }
  else { x with bitmap := x.bitmap ||| 1#32 <<< (x.seq - seq) }

/-- A state and the numbers it has accepted. -/
structure Received where
  x : XfrmState
  accepted : List Nat

def receive (replayWindow : Nat) (received : Received) (seq : Nat) : Received :=
  let checked := xfrmReplayCheck replayWindow received.x seq
  if checked.1 = 0 then
    ⟨xfrmReplayAdvance replayWindow checked.2 seq, seq :: received.accepted⟩
  else { received with x := checked.2 }

/-- What has been accepted when the numbers have come in, from `replay.seq` 0 on. -/
def receiveAll (replayWindow : Nat) (seqs : List Nat) : Received :=
  seqs.foldl (receive replayWindow) ⟨⟨0, 0, 0, 0⟩, []⟩

/-- Nothing that was accepted is accepted again, and what lies in the window is. -/
structure Exact (replayWindow : Nat) (received : Received) : Prop where
  once : ∀ seq, (xfrmReplayCheck replayWindow received.x seq).1 = 0 → seq ∉ received.accepted
  inWindow : ∀ seq, seq ∉ received.accepted → seq ≠ 0 → received.x.seq < seq + replayWindow →
    (xfrmReplayCheck replayWindow received.x seq).1 = 0

/-- The bitmap tells which numbers of the window have been accepted. -/
structure Recorded (replayWindow : Nat) (x : XfrmState) (accepted : List Nat) : Prop where
  le : ∀ seq ∈ accepted, seq ≤ x.seq
  positive : 0 ∉ accepted
  bits : ∀ i < replayWindow, x.bitmap.getLsbD i = decide (i ≤ x.seq ∧ x.seq - i ∈ accepted)

theorem and_shift_eq_zero (bitmap : BitVec 32) {i : Nat} (small : i < 32) :
    bitmap &&& 1#32 <<< i = 0#32 ↔ bitmap.getLsbD i = false := by
  rw [← BitVec.twoPow_eq, BitVec.and_twoPow]
  cases bit : bitmap.getLsbD i with
  | false => simp
  | true =>
    have set : BitVec.twoPow 32 i ≠ 0#32 := fun zero => by
      have lowered := congrArg (BitVec.getLsbD · i) zero
      simp [small] at lowered
    simpa using set

section Window

variable {replayWindow seq : Nat} {x : XfrmState} {accepted : List Nat}
  (recorded : Recorded replayWindow x accepted) (narrow : replayWindow ≤ 32)

include recorded narrow

theorem Recorded.check_iff (seq : Nat) : (xfrmReplayCheck replayWindow x seq).1 = 0 ↔
    seq ≠ 0 ∧ seq ∉ accepted ∧ x.seq < seq + replayWindow := by
  have old := recorded.le seq
  unfold xfrmReplayCheck
  split
  · simp_all [einval]
  split
  · simp only [true_iff]
    exact ⟨by omega, fun member => absurd (old member) (by omega), by omega⟩
  split
  · simp only [einval]
    omega
  · rename_i nonzero low near
    have clear : x.bitmap &&& 1#32 <<< (x.seq - seq) = 0#32 ↔ seq ∉ accepted := by
      rw [and_shift_eq_zero _ (by omega), recorded.bits _ (by omega), Nat.sub_sub_self (by omega)]
      simp
    have inside : x.seq < seq + replayWindow := by omega
    by_cases member : seq ∈ accepted
    · simp [clear, member, einval]
    · simp [clear, member, nonzero, inside]

/-- The window moves up to a number above it. -/
theorem Recorded.moveUp {diff : Nat} (positive : 0 < diff) (bitmap : BitVec 32)
    (isBitmap : bitmap = if diff < replayWindow then x.bitmap <<< diff ||| 1 else 1) {i : Nat}
    (inside : i < replayWindow) :
    bitmap.getLsbD i =
      decide (i ≤ x.seq + diff ∧ x.seq + diff - i ∈ (x.seq + diff) :: accepted) := by
  have here : x.seq + diff - i = x.seq + diff ↔ i = 0 := by omega
  rw [Bool.eq_iff_iff, decide_eq_true_iff, List.mem_cons, here]
  by_cases ahead : i < diff
  · have later : x.seq + diff - i ∉ accepted := fun member => by
      have := recorded.le _ member
      omega
    rw [isBitmap]
    split <;> simp [ahead, later] <;> omega
  · have bit := recorded.bits (i - diff) (by omega)
    rw [isBitmap, if_pos (by omega)]
    have back : x.seq - (i - diff) = x.seq + diff - i := by omega
    have down : i - diff ≤ x.seq ↔ i ≤ x.seq + diff := by omega
    have first : i ≠ 0 := by omega
    simp [ahead, bit, back, down, first]
    omega

theorem Recorded.advance (nonzero : seq ≠ 0) (near : x.seq < seq + replayWindow) :
    Recorded replayWindow (xfrmReplayAdvance replayWindow x seq) (seq :: accepted) := by
  have positive : 0 ∉ seq :: accepted := by simpa [nonzero.symm] using recorded.positive
  unfold xfrmReplayAdvance
  split
  · rename_i higher
    obtain ⟨diff, rfl⟩ : ∃ diff, seq = x.seq + diff := ⟨seq - x.seq, by omega⟩
    refine ⟨?_, positive, fun i inside => ?_⟩
    · simp only [List.mem_cons, forall_eq_or_imp, Nat.le_refl, true_and]
      exact fun other member => Nat.le_trans (recorded.le other member) (Nat.le_of_lt higher)
    · rw [Nat.add_sub_cancel_left]
      exact recorded.moveUp narrow (by omega) _ rfl inside
  · refine ⟨?_, positive, fun i inside => ?_⟩
    · simp only [List.mem_cons, forall_eq_or_imp]
      exact ⟨by omega, recorded.le⟩
    · rw [BitVec.getLsbD_or, recorded.bits i inside, ← BitVec.twoPow_eq, BitVec.getLsbD_twoPow,
        Bool.eq_iff_iff]
      have here : x.seq - seq = i ↔ i ≤ x.seq ∧ x.seq - i = seq := by omega
      have small : x.seq - seq < 32 := by omega
      simp [here, small]
      tauto

end Window

theorem check_keeps (replayWindow : Nat) (x : XfrmState) (seq : Nat) :
    (xfrmReplayCheck replayWindow x seq).2.seq = x.seq ∧
      (xfrmReplayCheck replayWindow x seq).2.bitmap = x.bitmap := by
  unfold xfrmReplayCheck
  repeat' split
  all_goals exact ⟨rfl, rfl⟩

section Runs

variable {replayWindow : Nat} (narrow : replayWindow ≤ 32)

include narrow

theorem Recorded.receive {received : Received} (seq : Nat)
    (recorded : Recorded replayWindow received.x received.accepted) :
    Recorded replayWindow (receive replayWindow received seq).x
      (receive replayWindow received seq).accepted := by
  have same := check_keeps replayWindow received.x seq
  have passed := recorded.check_iff narrow seq
  unfold Xfrm.receive
  generalize xfrmReplayCheck replayWindow received.x seq = checked at same passed
  have kept : Recorded replayWindow checked.2 received.accepted := by
    refine ⟨?_, recorded.positive, ?_⟩
    · rw [same.1]
      exact recorded.le
    · rw [same.1, same.2]
      exact recorded.bits
  dsimp only
  split
  · rename_i accepted
    obtain ⟨nonzero, _, near⟩ := passed.mp accepted
    exact kept.advance narrow nonzero (same.1 ▸ near)
  · exact kept

theorem receiveAll_recorded (seqs : List Nat) : Recorded replayWindow
    (receiveAll replayWindow seqs).x (receiveAll replayWindow seqs).accepted := by
  refine List.foldlRecOn (motive := fun received : Received => Recorded replayWindow received.x
    received.accepted) seqs _ ⟨by simp, by simp, by simp⟩ ?_
  exact fun _ recorded seq _ => recorded.receive narrow seq

end Runs

/-- Replay protection is exact as long as the window fits into the bitmap. -/
theorem replay_exact_iff (replayWindow : Nat) :
    (∀ seqs, Exact replayWindow (receiveAll replayWindow seqs)) ↔ replayWindow ≤ 32 := by
  constructor
  · intro exact
    by_contra wide
    -- the bit for number 1 is shifted out, so it is accepted whenever it comes
    have again := (exact [33, 1]).once 1
    simp [receiveAll, receive, xfrmReplayCheck, xfrmReplayAdvance, wide] at again
  · intro narrow seqs
    have recorded := receiveAll_recorded narrow seqs
    constructor
    · exact fun seq passed => ((recorded.check_iff narrow seq).mp passed).2.1
    · exact fun seq new nonzero near => (recorded.check_iff narrow seq).mpr ⟨nonzero, new, near⟩

theorem replay_accepts_twice : (receiveAll 64 [33, 1, 1]).accepted = [1, 1, 33] := by
  decide

end MagxKernel.Xfrm
