import MagxKernel.Lib.Buffer
import MagxKernel.Lib.MachineInt

namespace MagxKernel.Jffs2

open Function List Option
open Buffer (load store Agree)
open MachineInt (s16)

/-- What a compressor returns and leaves. `cpageOut` is all of the buffer. -/
structure Compressed where
  ret : Int
  sourcelen : Nat
  dstlen : Nat
  cpageOut : List UInt8
deriving DecidableEq

/-- The inner loop of `jffs2_rtime_compress`: how far the data repeats what stands
at `backpos`. The run is never longer than 255. -/
def rtimeRun (dataIn : List UInt8) : Nat → Int → Nat → Nat → Option (Nat × Nat)
  | 0, _, _, _ => none
  | fuel + 1, backpos, pos, runlen =>
      if backpos < pos ∧ pos < dataIn.length then
        (load dataIn pos).bind fun value =>
          (load dataIn backpos).bind fun earlier =>
            if value = earlier ∧ runlen < 255 then
              rtimeRun dataIn fuel (backpos + 1) (pos + 1) (runlen + 1)
            else some (pos, runlen)
      else some (pos, runlen)

structure RtimeState where
  pos : Nat
  outpos : Nat
  positions : UInt8 → Int
  cpageOut : List UInt8

/-- The outer loop. The bound `*dstlen - 2` is a `uint32_t`. -/
def rtimeCompressLoop (dataIn : List UInt8) (dstlen : Nat) :
    Nat → RtimeState → Option RtimeState
  | 0, _ => none
  | fuel + 1, state =>
      if state.pos < dataIn.length ∧ state.outpos ≤ (dstlen + 2 ^ 32 - 2) % 2 ^ 32 then
        (load dataIn state.pos).bind fun value =>
          (store state.cpageOut state.outpos value).bind fun out =>
            (rtimeRun dataIn 256 (state.positions value) (state.pos + 1) 0).bind fun run =>
              (store out (state.outpos + 1 : Nat) (UInt8.ofNat run.2)).bind fun out =>
                rtimeCompressLoop dataIn dstlen fuel
                  ⟨run.1, state.outpos + 2,
                    Function.update state.positions value (s16 (state.pos + 1 : Nat)), out⟩
      else some state

/-- `*sourcelen` is the length of the data, `*dstlen` that of the output buffer. -/
def rtimeCompress (dataIn cpageOut : List UInt8) : Option Compressed :=
  (rtimeCompressLoop dataIn cpageOut.length (dataIn.length + 1)
      ⟨0, 0, fun _ => 0, cpageOut⟩).map fun state =>
    if state.pos ≤ state.outpos then ⟨-1, dataIn.length, cpageOut.length, state.cpageOut⟩
    else ⟨0, state.pos, state.outpos, state.cpageOut⟩

/-- The loop that copies byte by byte, also bytes it has just written. -/
def rtimeCopy : Nat → List UInt8 → Int → Nat → Option (List UInt8)
  | 0, out, _, _ => some out
  | rest + 1, out, backoffs, outpos =>
      (load out backoffs).bind fun value =>
        (store out outpos value).bind fun out => rtimeCopy rest out (backoffs + 1) (outpos + 1)

def memcpy (out : List UInt8) (target : Nat) (source : Int) (count : Nat) : Option (List UInt8) :=
  if 0 ≤ source ∧ source + count ≤ out.length ∧ target + count ≤ out.length then
    some (out.take target ++ (out.drop source.toNat).take count ++ out.drop (target + count))
  else none

def rtimeDecompressLoop (dataIn : List UInt8) (destlen : Nat) :
    Nat → RtimeState → Option (List UInt8)
  | 0, _ => none
  | fuel + 1, state =>
      if state.outpos < destlen then
        (load dataIn state.pos).bind fun value =>
          (store state.cpageOut state.outpos value).bind fun out =>
            (load dataIn (state.pos + 1 : Nat)).bind fun count =>
              let outpos := state.outpos + 1
              let backoffs := state.positions value
              let copied :=
                if outpos ≤ backoffs + count.toNat then rtimeCopy count.toNat out backoffs outpos
                else memcpy out outpos backoffs count.toNat
              (if count = 0 then some out else copied).bind fun out =>
                rtimeDecompressLoop dataIn destlen fuel
                  ⟨state.pos + 2, outpos + count.toNat,
                    Function.update state.positions value (s16 outpos), out⟩
      else some state.cpageOut

/-- `srclen` is the length of the data, `destlen` that of the output buffer. -/
def rtimeDecompress (dataIn cpageOut : List UInt8) : Option (List UInt8) :=
  rtimeDecompressLoop dataIn cpageOut.length (cpageOut.length + 1) ⟨0, 0, fun _ => 0, cpageOut⟩

section Runs

variable {dataIn out : List UInt8}

/-- The run that is found repeats the data from `backpos` on. -/
theorem rtimeRun_spec (fuel backpos pos runlen : Nat) (enough : 255 < runlen + fuel)
    (short : runlen ≤ 255) (earlier : backpos < pos) (inside : pos ≤ dataIn.length) :
    ∃ count, rtimeRun dataIn fuel backpos pos runlen = some (pos + count, runlen + count) ∧
      runlen + count ≤ 255 ∧ pos + count ≤ dataIn.length ∧
      ∀ index < count, dataIn[pos + index]? = dataIn[backpos + index]? := by
  induction fuel generalizing backpos pos runlen with
  | zero => omega
  | succ fuel ih =>
    have nothing : ∀ index < 0, dataIn[pos + index]? = dataIn[backpos + index]? :=
      fun index below => absurd below (Nat.not_lt_zero index)
    rw [rtimeRun]
    by_cases more : pos < dataIn.length
    · rw [if_pos ⟨by omega, more⟩, Buffer.load_eq_some more,
        Buffer.load_eq_some (by omega : backpos < dataIn.length), bind_some, bind_some]
      by_cases same : dataIn[pos] = dataIn[backpos] ∧ runlen < 255
      · obtain ⟨count, run, few, within, repeats⟩ :=
          ih (backpos + 1) (pos + 1) (runlen + 1) (by omega) (by omega) (by omega) (by omega)
        refine ⟨count + 1, ?_, by omega, by omega, ?_⟩
        · rw [if_pos same]
          push_cast at run
          rw [run]
          congr 2 <;> omega
        · intro index below
          cases index with
          | zero =>
            rw [Nat.add_zero, Nat.add_zero, getElem?_eq_getElem more,
              getElem?_eq_getElem (by omega), same.1]
          | succ index =>
            have next := repeats index (by omega)
            rw [show pos + (index + 1) = pos + 1 + index by omega,
              show backpos + (index + 1) = backpos + 1 + index by omega]
            exact next
      · exact ⟨0, by rw [if_neg same]; rfl, by omega, by omega, nothing⟩
    · exact ⟨0, by rw [if_neg fun wrong => more wrong.2]; rfl, by omega, by omega, nothing⟩

/-- Copying byte by byte produces the run, also when it overlaps its source. -/
theorem rtimeCopy_spec (count : Nat) (out : List UInt8) (backoffs outpos : Nat)
    (earlier : backoffs < outpos) (room : outpos + count ≤ out.length)
    (produced : Agree outpos out dataIn)
    (repeats : ∀ index < count, dataIn[outpos + index]? = dataIn[backoffs + index]?) :
    ∃ copied, rtimeCopy count out backoffs outpos = some copied ∧ copied.length = out.length ∧
      Agree (outpos + count) copied dataIn := by
  induction count generalizing out backoffs outpos with
  | zero => exact ⟨out, rfl, rfl, produced⟩
  | succ count ih =>
    have source : backoffs < out.length := by omega
    have value : dataIn[outpos]? = some out[backoffs] := by
      have same := repeats 0 (Nat.zero_lt_succ count)
      rw [Nat.add_zero, Nat.add_zero] at same
      rw [same, ← produced backoffs earlier, getElem?_eq_getElem source]
    have step := produced.snoc (by omega) value
    obtain ⟨copied, run, length, agree⟩ := ih (out.set outpos out[backoffs]) (backoffs + 1)
      (outpos + 1) (by omega) (by rw [length_set]; omega) step (by
        intro index below
        have next := repeats (index + 1) (by omega)
        rw [show outpos + 1 + index = outpos + (index + 1) by omega,
          show backoffs + 1 + index = backoffs + (index + 1) by omega]
        exact next)
    refine ⟨copied, ?_, by rw [length, length_set], ?_⟩
    · rw [rtimeCopy, Buffer.load_eq_some source, bind_some,
        Buffer.store_eq_some _ (by omega), bind_some]
      exact run
    · rw [show outpos + (count + 1) = outpos + 1 + count by omega]
      exact agree

section

variable {count backoffs outpos : Nat} (room : outpos + count ≤ out.length)
  (produced : Agree outpos out dataIn)
  (repeats : ∀ index < count, dataIn[outpos + index]? = dataIn[backoffs + index]?)

include room produced repeats

/-- A block copy does the same where it does not overlap its source. -/
theorem memcpy_spec (apart : backoffs + count ≤ outpos) :
    ∃ copied, memcpy out outpos backoffs count = some copied ∧ copied.length = out.length ∧
      Agree (outpos + count) copied dataIn := by
  refine ⟨_, if_pos ⟨by omega, by omega, room⟩, ?_, ?_⟩
  · simp only [length_append, length_take, length_drop]
    omega
  · intro index below
    rw [Int.toNat_natCast, append_assoc]
    by_cases before : index < outpos
    · rw [getElem?_append_left (by rw [length_take]; omega),
        getElem?_take_of_lt before]
      exact produced index before
    · have prefix_length : (out.take outpos).length = outpos := by
        rw [length_take]
        omega
      have run_length : ((out.drop backoffs).take count).length = count := by
        rw [length_take, length_drop]
        omega
      rw [getElem?_append_right (by omega), prefix_length,
        getElem?_append_left (by omega), getElem?_take_of_lt (by omega),
        getElem?_drop]
      have same := repeats (index - outpos) (by omega)
      rw [show outpos + (index - outpos) = index by omega] at same
      rw [same]
      exact produced _ (by omega)

/-- One of the two copies, or none for an empty run. -/
theorem rtimeCopied_spec (few : count ≤ 255) (earlier : backoffs < outpos) :
    ∃ copied,
      (if UInt8.ofNat count = 0 then some out
        else if (outpos : Int) ≤ backoffs + (UInt8.ofNat count).toNat then
          rtimeCopy (UInt8.ofNat count).toNat out backoffs outpos
        else memcpy out outpos backoffs (UInt8.ofNat count).toNat) = some copied ∧
      copied.length = out.length ∧ Agree (outpos + count) copied dataIn := by
  have byte : (UInt8.ofNat count).toNat = count := by
    rw [UInt8.toNat_ofNat']
    omega
  rw [byte]
  split
  · rename_i none_left
    have zero : count = 0 := by
      rw [← byte, none_left]
      rfl
    rw [zero]
    exact ⟨out, rfl, rfl, produced⟩
  · split
    · exact rtimeCopy_spec count out backoffs outpos earlier room produced repeats
    · exact memcpy_spec room produced repeats (by omega)

end

end Runs

/-- Every remembered position lies behind the current one. -/
def Known (positions : UInt8 → Int) (pos : Nat) : Prop :=
  ∀ value, ∃ earlier : Nat, positions value = earlier ∧ earlier ≤ pos

theorem Known.update {positions : UInt8 → Int} {pos later : Nat} (known : Known positions pos)
    (value : UInt8) (order : pos + 1 ≤ later) (short : later ≤ 32767) :
    Known (update positions value (s16 (pos + 1 : Nat))) later := by
  intro other
  by_cases here : other = value
  · refine ⟨pos + 1, ?_, order⟩
    rw [here, update_self, MachineInt.s16_of_range _ (by omega) (by omega)]
  · obtain ⟨earlier, same, before⟩ := known other
    exact ⟨earlier, by rw [update_of_ne here, same], by omega⟩

/-- What the loop of the compressor leaves, and what the decompressor makes of it
from the corresponding state on. -/
structure Undone (dataIn : List UInt8) (dstlen : Nat) (state final : RtimeState) : Prop where
  length : final.cpageOut.length = dstlen
  outpos : state.outpos ≤ final.outpos ∧ final.outpos ≤ dstlen
  pos : state.pos ≤ final.pos ∧ final.pos ≤ dataIn.length
  kept : Agree state.outpos final.cpageOut state.cpageOut
  undone : ∀ (input page : List UInt8) (fuel : Nat), Agree final.outpos input final.cpageOut →
    page.length = final.pos → Agree state.pos page dataIn → final.pos < state.pos + fuel →
    ∃ out, rtimeDecompressLoop input final.pos fuel
        ⟨state.outpos, state.pos, state.positions, page⟩ = some out ∧
      out.length = final.pos ∧ Agree final.pos out dataIn

variable {dataIn : List UInt8}

theorem Undone.stop {dstlen : Nat} {state : RtimeState} (length : state.cpageOut.length = dstlen)
    (outpos : state.outpos ≤ dstlen) (pos : state.pos ≤ dataIn.length) :
    Undone dataIn dstlen state state := by
  refine ⟨length, ⟨Nat.le_refl _, outpos⟩, ⟨Nat.le_refl _, pos⟩, Agree.refl _ _, ?_⟩
  intro input page fuel _ size produced enough
  obtain ⟨fuel, rfl⟩ := Nat.exists_eq_add_one_of_ne_zero (by omega : fuel ≠ 0)
  refine ⟨page, ?_, size, produced⟩
  exact if_neg (Nat.lt_irrefl _)

theorem Undone.turn {dstlen count earlier : Nat} {state final : RtimeState} {value : UInt8}
    (short : dataIn.length ≤ 32767) (here : dataIn[state.pos]? = some value)
    (size : state.cpageOut.length = dstlen) (room : state.outpos + 2 ≤ dstlen)
    (known : state.positions value = earlier) (before : earlier ≤ state.pos) (few : count ≤ 255)
    (repeats : ∀ index < count,
      dataIn[state.pos + 1 + index]? = dataIn[earlier + index]?) (rest : Undone dataIn dstlen
      ⟨state.pos + 1 + count, state.outpos + 2,
        update state.positions value (s16 (state.pos + 1 : Nat)),
        (state.cpageOut.set state.outpos value).set (state.outpos + 1) (UInt8.ofNat count)⟩ final) :
    Undone dataIn dstlen state final := by
  have outpos := rest.outpos
  have pos := rest.pos
  simp only at outpos pos
  have kept := rest.kept
  simp only at kept
  have first : final.cpageOut[state.outpos]? = some value := by
    rw [kept _ (by omega), getElem?_set_ne (by omega), getElem?_set_self (by omega)]
  have second : final.cpageOut[state.outpos + 1]? = some (UInt8.ofNat count) := by
    rw [kept _ (by omega), getElem?_set_self (by rw [length_set]; omega)]
  refine ⟨rest.length, ⟨by omega, outpos.2⟩, ⟨by omega, pos.2⟩, ?_, ?_⟩
  · refine (kept.less (by omega)).trans ?_
    exact ((Agree.refl _ _).set _ (Nat.le_refl _)).set _ (by omega)
  · intro input page fuel given page_size produced enough
    obtain ⟨fuel, rfl⟩ := Nat.exists_eq_add_one_of_ne_zero (by omega : fuel ≠ 0)
    have byte : (UInt8.ofNat count).toNat = count := by
      rw [UInt8.toNat_ofNat']
      omega
    obtain ⟨copied, copies, copied_size, agree⟩ := @rtimeCopied_spec dataIn
      (page.set state.pos value) count earlier (state.pos + 1) (by rw [length_set]; omega)
      (produced.snoc (by omega) here) repeats few (by omega)
    obtain ⟨result, run, result_size, result_agrees⟩ := rest.undone input copied fuel given
      (by rw [copied_size, length_set, page_size]) agree (by simp only; omega)
    refine ⟨result, ?_, result_size, result_agrees⟩
    rw [rtimeDecompressLoop]
    simp only
    rw [if_pos (by omega), Buffer.load_natCast, given _ (by omega), first, bind_some,
      Buffer.store_eq_some _ (by omega), bind_some, Buffer.load_natCast,
      given _ (by omega), second, bind_some, known]
    rw [copies, bind_some, byte]
    exact run

/-- The compressor stays inside its buffers, and what it produced can be undone. -/
theorem rtimeCompressLoop_undone {dstlen : Nat} (short : dataIn.length ≤ 32767) (two : 2 ≤ dstlen)
    (narrow : dstlen < 2 ^ 32) (fuel : Nat) (state : RtimeState)
    (enough : dataIn.length < state.pos + fuel) (inside : state.pos ≤ dataIn.length)
    (size : state.cpageOut.length = dstlen) (outside : state.outpos ≤ dstlen)
    (known : Known state.positions state.pos) :
    ∃ final, rtimeCompressLoop dataIn dstlen fuel state = some final ∧
      Undone dataIn dstlen state final := by
  have bound : (dstlen + 2 ^ 32 - 2) % 2 ^ 32 = dstlen - 2 := by omega
  induction fuel generalizing state with
  | zero => omega
  | succ fuel ih =>
    rw [rtimeCompressLoop, bound]
    split
    · rename_i more
      rw [Buffer.load_eq_some more.1, bind_some,
        Buffer.store_eq_some _ (by omega), bind_some]
      obtain ⟨earlier, same, before⟩ := known dataIn[state.pos]
      obtain ⟨count, run, few, within, repeats⟩ := @rtimeRun_spec dataIn 256 earlier
        (state.pos + 1) 0 (by omega) (by omega) (by omega) (by omega)
      rw [Nat.zero_add] at run few
      rw [same, run, bind_some, Buffer.store_eq_some _ (by rw [length_set]; omega),
        bind_some]
      obtain ⟨final, done, rest⟩ := ih
        ⟨state.pos + 1 + count, state.outpos + 2,
          update state.positions dataIn[state.pos] (s16 (state.pos + 1 : Nat)),
          (state.cpageOut.set state.outpos dataIn[state.pos]).set (state.outpos + 1)
            (UInt8.ofNat count)⟩
        (by simp only; omega) within (by simp only [length_set]; exact size)
        (by simp only; omega) (known.update _ (by simp only; omega) (by simp only; omega))
      exact ⟨final, done, rest.turn short (getElem?_eq_getElem more.1) size (by omega) same
        before few repeats⟩
    · exact ⟨state, rfl, Undone.stop size outside inside⟩

/-- Without room for two bytes the bound of the loop wraps, and the first turn
writes outside the buffer. -/
theorem rtimeCompress_overruns {dataIn cpageOut : List UInt8} (some_data : 0 < dataIn.length)
    (small : cpageOut.length < 2) : rtimeCompress dataIn cpageOut = none := by
  rw [rtimeCompress, rtimeCompressLoop, if_pos ⟨some_data, by simp only; omega⟩]
  simp only
  rw [Buffer.load_eq_some some_data, bind_some]
  by_cases empty : cpageOut.length = 0
  · rw [Buffer.store_eq_none _ (by omega)]
    rfl
  · rw [Buffer.store_eq_some _ (by omega), bind_some]
    cases rtimeRun dataIn 256 0 (0 + 1) 0 with
    | none => rfl
    | some run =>
      rw [bind_some, Buffer.store_eq_none _ (by rw [length_set]; omega)]
      rfl

/-- The compressor keeps to its buffer, and the decompressor gives back what it
took in, if and only if there is room for two bytes. -/
theorem rtime_roundTrip_iff (dataIn cpageOut : List UInt8) (some_data : 1 ≤ dataIn.length)
    (short : dataIn.length ≤ 32767) (narrow : cpageOut.length < 2 ^ 32) :
    (∃ result, rtimeCompress dataIn cpageOut = some result ∧
        (result.ret = 0 → ∀ page : List UInt8, page.length = result.sourcelen →
          rtimeDecompress (result.cpageOut.take result.dstlen) page =
            some (dataIn.take result.sourcelen))) ↔
      2 ≤ cpageOut.length := by
  constructor
  · intro works
    obtain ⟨result, done, _⟩ := works
    by_contra small
    rw [rtimeCompress_overruns some_data (by omega)] at done
    cases done
  · intro two
    obtain ⟨final, done, undone⟩ := rtimeCompressLoop_undone short two narrow (dataIn.length + 1)
      ⟨0, 0, fun _ => 0, cpageOut⟩ (by simp only; omega) (Nat.zero_le _) rfl (Nat.zero_le _)
      fun _ => ⟨0, rfl, Nat.le_refl 0⟩
    rw [rtimeCompress, done, map_some]
    split
    · exact ⟨_, rfl, fun wrong => absurd wrong (by decide : ¬ (-1 : Int) = 0)⟩
    · refine ⟨_, rfl, ?_⟩
      intro _ page page_size
      have given : Agree final.outpos (final.cpageOut.take final.outpos) final.cpageOut :=
        fun index below => getElem?_take_of_lt below
      obtain ⟨out, run, out_size, agree⟩ := undone.undone _ page (final.pos + 1) given page_size
        (fun index below => absurd below (Nat.not_lt_zero index)) (by simp only; omega)
      rw [rtimeDecompress, page_size, run, agree.take out_size]

theorem rtime_roundTrip_iff_repeats :
    1 ≤ [7, 7, 7, 7, 7, 7].length ∧
      ((∃ result, rtimeCompress [7, 7, 7, 7, 7, 7] [0, 0, 0, 0, 0] = some result ∧
          (result.ret = 0 → ∀ page : List UInt8, page.length = result.sourcelen →
            rtimeDecompress (result.cpageOut.take result.dstlen) page =
              some ([7, 7, 7, 7, 7, 7].take result.sourcelen))) ↔
        2 ≤ [0, 0, 0, 0, 0].length) :=
  ⟨by decide, rtime_roundTrip_iff [7, 7, 7, 7, 7, 7] [0, 0, 0, 0, 0] (by decide) (by decide)
    (by decide)⟩

/-- A page of one byte and room for one byte: the length of the run is written
behind the buffer. -/
theorem rtimeCompress_oneByte : rtimeCompress [65] [0] = none := by
  decide

section Arbitrary

variable {dataIn out : List UInt8} {count backoffs outpos : Nat}

theorem rtimeCopy_length (earlier : backoffs < outpos) (inside : outpos ≤ out.length) :
    (rtimeCopy count out backoffs outpos).map List.length =
      if outpos + count ≤ out.length then some out.length else none := by
  induction count generalizing out backoffs outpos with
  | zero => exact (if_pos inside).symm
  | succ count ih =>
    rw [rtimeCopy, Buffer.load_eq_some (by omega), bind_some]
    by_cases room : outpos < out.length
    · rw [Buffer.store_eq_some _ room, bind_some, ← Int.natCast_succ,
        ih (by omega) (by rw [length_set]; exact room), length_set, Nat.add_right_comm]
      rfl
    · rw [Buffer.store_eq_none _ (by omega), if_neg (by omega)]
      rfl

theorem memcpy_length (apart : backoffs + count ≤ outpos) :
    (memcpy out outpos backoffs count).map List.length =
      if outpos + count ≤ out.length then some out.length else none := by
  unfold memcpy
  split
  · rename_i within
    rw [if_pos within.2.2]
    simp only [map_some, length_append, length_take, length_drop]
    congr 1
    omega
  · rw [if_neg (by omega)]
    rfl

theorem rtimeCopied_length {count : UInt8} (earlier : backoffs < outpos)
    (inside : outpos ≤ out.length) :
    (if count = 0 then some out
      else if (outpos : Int) ≤ backoffs + count.toNat then rtimeCopy count.toNat out backoffs outpos
      else memcpy out outpos backoffs count.toNat).map List.length =
      if outpos + count.toNat ≤ out.length then some out.length else none := by
  split
  · rename_i empty
    rw [empty]
    exact (if_pos inside).symm
  · split
    · exact rtimeCopy_length earlier inside
    · exact memcpy_length (by omega)

/-- How many bytes the first pairs of a stream stand for. -/
def described (dataIn : List UInt8) : Nat → Nat
  | 0 => 0
  | pairs + 1 => described dataIn pairs + 1 + (dataIn.getD (2 * pairs + 1) 0).toNat

theorem described_mono {fewer pairs : Nat} (order : fewer ≤ pairs) :
    described dataIn fewer ≤ described dataIn pairs := by
  induction order with
  | refl => exact Nat.le_refl _
  | step _ ih =>
    rw [described]
    omega

/-- The pairs that follow describe just what is missing. -/
def Ends (dataIn : List UInt8) (destlen done : Nat) : Prop :=
  ∃ pairs, done ≤ pairs ∧ 2 * pairs ≤ dataIn.length ∧ described dataIn pairs = destlen

theorem ends_succ_iff {destlen done : Nat} (more : described dataIn done < destlen) :
    Ends dataIn destlen done ↔
      2 * done + 2 ≤ dataIn.length ∧ described dataIn (done + 1) ≤ destlen ∧
        Ends dataIn destlen (done + 1) := by
  constructor
  · rintro ⟨pairs, order, inside, exactly⟩
    have next : done + 1 ≤ pairs := by
      rcases Nat.lt_or_eq_of_le order with later | rfl
      · exact later
      · omega
    exact ⟨by omega, exactly ▸ described_mono next, pairs, next, inside, exactly⟩
  · rintro ⟨_, _, pairs, order, rest⟩
    exact ⟨pairs, by omega, rest⟩

theorem rtimeDecompressLoop_isSome_iff {destlen : Nat} (short : destlen ≤ 32767) (fuel done : Nat)
    (positions : UInt8 → Int) (size : out.length = destlen)
    (known : Known positions (described dataIn done)) (inside : 2 * done ≤ dataIn.length)
    (within : described dataIn done ≤ destlen) (enough : destlen < described dataIn done + fuel) :
    (rtimeDecompressLoop dataIn destlen fuel
        ⟨2 * done, described dataIn done, positions, out⟩).isSome ↔ Ends dataIn destlen done := by
  induction fuel generalizing done positions out with
  | zero => omega
  | succ fuel ih =>
    rw [rtimeDecompressLoop]
    simp only
    split
    · rename_i more
      rw [ends_succ_iff more]
      by_cases pair : 2 * done + 2 ≤ dataIn.length
      · rw [Buffer.load_eq_some (by omega), bind_some, Buffer.store_eq_some _ (by omega),
          bind_some, Buffer.load_eq_some (by omega), bind_some]
        have next : described dataIn (done + 1) =
            described dataIn done + 1 + dataIn[2 * done + 1].toNat := by
          rw [described, getD_eq_getElem?_getD, getElem?_eq_getElem (by omega)]
          rfl
        obtain ⟨earlier, same, before⟩ := known dataIn[2 * done]
        have copied := @rtimeCopied_length
          (out.set (described dataIn done) dataIn[2 * done]) earlier
          (described dataIn done + 1) dataIn[2 * done + 1] (by omega)
          (by rw [length_set]; omega)
        rw [length_set, size, ← next] at copied
        rw [same]
        by_cases room : described dataIn (done + 1) ≤ destlen
        · rw [if_pos room] at copied
          obtain ⟨page, copy, length⟩ := map_eq_some_iff.mp copied
          rw [copy, bind_some, ← next]
          have rest := ih (done + 1) _ length (known.update dataIn[2 * done] (by omega) (by omega))
            pair room (by omega)
          exact rest.trans ⟨fun ends => ⟨pair, room, ends⟩, fun ends => ends.2.2⟩
        · rw [if_neg room] at copied
          rw [map_eq_none_iff.mp copied]
          exact ⟨nofun, fun ends => absurd ends.2.1 room⟩
      · refine ⟨fun reads => ?_, fun ends => absurd ends.1 pair⟩
        cases first : load dataIn (2 * done : Nat) with
        | none =>
          rw [first] at reads
          cases reads
        | some value =>
          rw [first, bind_some, Buffer.store_eq_some _ (by omega), bind_some,
            Buffer.load_natCast, getElem?_eq_none (by omega)] at reads
          cases reads
    · exact ⟨fun _ => ⟨done, Nat.le_refl _, inside, by omega⟩, fun _ => rfl⟩

end Arbitrary

/-- The decompressor keeps to its buffers if and only if some number of whole pairs
of the stream stands for just as many bytes as are wanted. -/
theorem rtimeDecompress_inside_iff (dataIn cpageOut : List UInt8)
    (short : cpageOut.length ≤ 32767) :
    (rtimeDecompress dataIn cpageOut).isSome ↔
      ∃ pairs, 2 * pairs ≤ dataIn.length ∧ described dataIn pairs = cpageOut.length := by
  have spec := @rtimeDecompressLoop_isSome_iff dataIn cpageOut _ short (cpageOut.length + 1) 0
    (fun _ => 0) rfl (fun _ => ⟨0, rfl, Nat.le_refl 0⟩) (Nat.zero_le _) (Nat.zero_le _)
    (Nat.lt_add_left _ (Nat.lt_succ_self _))
  refine spec.trans ⟨fun ⟨pairs, _, rest⟩ => ⟨pairs, rest⟩, fun ⟨pairs, rest⟩ => ?_⟩
  exact ⟨pairs, Nat.zero_le _, rest⟩

theorem rtimeDecompress_inside_iff_run :
    [0, 0, 0].length ≤ 32767 ∧ ((rtimeDecompress [65, 2] [0, 0, 0]).isSome ↔
      ∃ pairs, 2 * pairs ≤ [65, 2].length ∧ described [65, 2] pairs = [0, 0, 0].length) :=
  ⟨by decide, rtimeDecompress_inside_iff [65, 2] [0, 0, 0] (by decide)⟩

/-- A run that is longer than the page is written behind it, and a stream without a
whole pair is read behind its end. -/
theorem rtimeDecompress_overruns :
    rtimeDecompress [65, 2] [0] = none ∧ rtimeDecompress [65] [0] = none := by
  decide

end MagxKernel.Jffs2
