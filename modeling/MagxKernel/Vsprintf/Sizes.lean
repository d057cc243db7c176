import MagxKernel.Vsprintf.Emits

namespace MagxKernel.Vsprintf

open Function List

/-- What a print of `s` leaves in the `size` bytes at `buf` and around them. -/
structure Stored (before after : Nat → UInt8) (buf size : Nat) (s : List UInt8) : Prop where
  text : ∀ k, k < min s.length (size - 1) → after (buf + k) = s.getD k 0
  nul : 0 < size → after (buf + min s.length (size - 1)) = 0
  outside : ∀ a, a < buf ∨ buf + size ≤ a → after a = before a

/-- The three functions on one buffer, for a format and arguments whose output is `s`. -/
structure Prints (buf size : Nat) (fmt : List UInt8) (args : List Arg) (s : List UInt8) :
    Prop where
  vsnprintf : ∀ mem, ∃ done, Vsprintf.vsnprintf mem buf size fmt args = some done ∧
    done.value = s.length ∧ Stored mem done.mem buf size s
  vscnprintf : ∀ mem, ∃ done, Vsprintf.vscnprintf mem buf size fmt args = some done ∧
    done.value = (min s.length (size - 1) : Nat)
  scnprintf : ∀ mem, ∃ done, Vsprintf.scnprintf mem buf size fmt args = some done ∧
    done.value = (min s.length (size - 1) : Nat)

variable {buf size : Nat} {s : List UInt8}

theorem Stored.cut_eq {before after : Nat → UInt8} (stored : Stored before after buf size s) :
    (List.range (cut size s).length).map (fun k => after (buf + k)) = cut size s := by
  apply ext_getElem
  · simp
  · intro k inside _
    have early : k < min s.length (size - 1) := by
      simpa [cut, Nat.min_comm] using inside
    simp [cut, stored.text k early, getElem?_eq_getElem (show k < s.length by omega)]

theorem bounds_of_fits (object : 0 < buf) (fits : buf + size ≤ 2 ^ 32) :
    bounds buf size = (buf + size - 1, size) := by
  have last : (buf + size + (2 ^ 32 - 1)) % 2 ^ 32 = buf + size - 1 := by omega
  have before : (buf + (2 ^ 32 - 1)) % 2 ^ 32 = buf - 1 := by omega
  have behind : ¬ buf + size - 1 < buf - 1 := by omega
  simp only [bounds, last, before, if_neg behind]

/-- One run, whatever the memory: the output, put and ended. -/
theorem vsnprintf_eq {fmt : List UInt8} {args : List Arg} (output : fullOutput fmt args = some s)
    (small : size < 2 ^ 31) (object : 0 < buf) (fits : buf + size ≤ 2 ^ 32) (mem : Nat → UInt8) :
    ∃ stores, vsnprintf mem buf size fmt args =
      some ⟨distance buf (Out.puts ⟨buf, buf + size - 1, mem, []⟩ s).str,
        terminate (Out.puts ⟨buf, buf + size - 1, mem, []⟩ s) size, stores⟩ := by
  obtain ⟨stores, run⟩ := formatLoop_output output buf ⟨buf, buf + size - 1, mem, []⟩ []
  refine ⟨stores, ?_⟩
  unfold vsnprintf
  rw [if_neg (Nat.not_le.2 small)]
  simp [bounds_of_fits object fits, run]

theorem distance_of_room {length : Nat} (short : length < 2 ^ 31) :
    distance buf (buf + length) = length := by
  have same : ((buf + length : Nat) : Int) - buf = length := by omega
  rw [distance, same]
  exact MachineInt.s32_of_range _ (by omega) (by omega)

theorem clamp_of_pos {length : Nat} (short : length < 2 ^ 31) (small : size < 2 ^ 31)
    (positive : 0 < size) : clamp length size = (min length (size - 1) : Nat) := by
  have whole : (length : Int) % 2 ^ 32 = length := by omega
  rw [clamp, whole]
  split
  · rw [MachineInt.s32_of_range _ (by omega) (by omega)]
    omega
  · omega

/-- Without a wrap of `str` the null byte lands behind the last character that fits. -/
theorem terminate_puts (positive : 0 < size) (room : buf + s.length < 2 ^ 32) (mem : Nat → UInt8)
    (a : Nat) :
    terminate (Out.puts ⟨buf, buf + size - 1, mem, []⟩ s) size a =
      if a = buf + min s.length (size - 1) then 0
      else (Out.puts ⟨buf, buf + size - 1, mem, []⟩ s).mem a := by
  have str : (Out.puts ⟨buf, buf + size - 1, mem, []⟩ s).str = buf + s.length := by
    rw [Out.puts_str _ s (by simp only; omega)]
    exact Nat.mod_eq_of_lt room
  unfold terminate
  rw [str, Out.puts_last, if_pos positive]
  split
  · rename_i inside
    simp only at inside
    have place : min s.length (size - 1) = s.length := by omega
    rw [place]
    exact update_apply _ _ _ a
  · rename_i outside
    simp only at outside
    have place : buf + min s.length (size - 1) = buf + size - 1 := by omega
    rw [place]
    exact update_apply _ _ _ a

theorem terminate_stored (positive : 0 < size) (room : buf + s.length < 2 ^ 32)
    (mem : Nat → UInt8) :
    Stored mem (terminate (Out.puts ⟨buf, buf + size - 1, mem, []⟩ s) size) buf size s := by
  have byte (a : Nat) := Out.puts_mem ⟨buf, buf + size - 1, mem, []⟩ s (Nat.le_of_lt room) a
  constructor
  · intro k early
    have inside : buf ≤ buf + k ∧ buf + k ≤ buf + size - 1 := by omega
    rw [terminate_puts positive room, if_neg (by omega), byte, if_pos inside,
      Nat.add_sub_cancel_left, getD_eq_getElem?_getD, getD_eq_getElem?_getD,
      getElem?_eq_getElem (by omega)]
    rfl
  · intro _
    rw [terminate_puts positive room, if_pos rfl]
  · intro a away
    have outside : ¬ (buf ≤ a ∧ a ≤ buf + size - 1) := by omega
    rw [terminate_puts positive room, if_neg (by omega), byte, if_neg outside]

/-- A `str` that wraps comes by address 0, below every buffer, and writes there. -/
theorem terminate_wrapped (object : 0 < buf) (positive : 0 < size) (fits : buf + size ≤ 2 ^ 32)
    (short : s.length < 2 ^ 31) (wraps : 2 ^ 32 ≤ buf + s.length) :
    ∃ byte, ∀ mem, terminate (Out.puts ⟨buf, buf + size - 1, mem, []⟩ s) size 0 = byte := by
  obtain ⟨first, rest, whole, length⟩ :
      ∃ first rest, s = first ++ rest ∧ first.length = 2 ^ 32 - buf :=
    ⟨s.take (2 ^ 32 - buf), s.drop (2 ^ 32 - buf), (take_append_drop _ s).symm,
      by rw [length_take]; omega⟩
  subst whole
  rw [length_append] at short
  refine ⟨rest.getD 0 0, fun mem => ?_⟩
  generalize start : Out.mk buf (buf + size - 1) mem [] = out
  have last : out.last = buf + size - 1 := by rw [← start]
  have turned : (out.puts first).str = 0 := by
    rw [← start, Out.puts_str _ first (by simp only; omega), length]
    simp only
    omega
  have str : (out.puts (first ++ rest)).str = rest.length := by
    rw [Out.puts_append, Out.puts_str _ rest (by omega), turned]
    omega
  have byte : (out.puts (first ++ rest)).mem 0 = rest.getD 0 ((out.puts first).mem 0) := by
    rw [Out.puts_append, Out.puts_mem _ rest (by omega), turned]
    exact if_pos ⟨Nat.le_refl 0, Nat.zero_le _⟩
  unfold terminate
  rw [str, Out.puts_last, last, if_pos positive]
  cases rest with
  | nil =>
    rw [length_nil, if_pos (Nat.zero_le _)]
    exact update_self ..
  | cons c rest =>
    rw [length_cons, getD_cons_zero]
    rw [getD_cons_zero] at byte
    split <;> rw [update_of_ne (by omega), byte]

/-- For every format and arguments there is one output, and the buffer only cuts it: exactly where
the buffer is not empty and the output ends before the end of the address space. -/
theorem vsnprintf_prints_iff {fmt s : List UInt8} {args : List Arg}
    (output : fullOutput fmt args = some s) (short : s.length < 2 ^ 31) {buf size : Nat}
    (small : size < 2 ^ 31) (object : 0 < buf) (fits : buf + size ≤ 2 ^ 32) :
    Prints buf size fmt args s ↔ 0 < size ∧ buf + s.length < 2 ^ 32 := by
  have run := vsnprintf_eq output small object fits
  constructor
  · intro prints
    have positive : 0 < size := by
      -- `scnprintf` gives `size - 1` for an empty buffer
      by_contra empty
      obtain ⟨done, ran, value⟩ := prints.vscnprintf (fun _ => 0)
      have zero : size = 0 := by omega
      subst zero
      obtain ⟨printed, _, same⟩ := Option.map_eq_some_iff.1 ran
      rw [← same] at value
      have negative : clamp printed.value 0 = -1 := by
        unfold clamp
        rw [if_pos (by omega)]
        rfl
      simp only [negative] at value
      omega
    refine ⟨positive, Nat.not_le.1 fun wraps => ?_⟩
    obtain ⟨byte, written⟩ := terminate_wrapped object positive fits short wraps
    obtain ⟨stores, ran⟩ := run fun _ => byte + 1
    obtain ⟨done, printed, _, stored⟩ := prints.vsnprintf fun _ => byte + 1
    rw [ran] at printed
    cases printed
    have kept := stored.outside 0 (.inl object)
    simp only [written] at kept
    exact absurd kept (by simp)
  · rintro ⟨positive, room⟩
    have str (mem : Nat → UInt8) :
        distance buf (Out.puts ⟨buf, buf + size - 1, mem, []⟩ s).str = s.length := by
      rw [Out.puts_str _ s (by simp only; omega)]
      rw [Nat.mod_eq_of_lt room]
      exact distance_of_room short
    have clamped := clamp_of_pos short small positive
    constructor
    · intro mem
      obtain ⟨stores, ran⟩ := run mem
      exact ⟨_, ran, str mem, terminate_stored positive room mem⟩
    · intro mem
      obtain ⟨stores, ran⟩ := run mem
      exact ⟨_, by rw [vscnprintf, ran]; rfl, by simp only [str, clamped]⟩
    · intro mem
      obtain ⟨stores, ran⟩ := run mem
      exact ⟨_, by rw [scnprintf, ran]; rfl, by simp only [str, clamped]⟩

/-- `%5d` in a buffer of four bytes. -/
theorem vsnprintf_prints_iff_decimal :
    fullOutput [ch '%', ch '5', ch 'd'] [.word 42] =
        some [ch ' ', ch ' ', ch ' ', ch '4', ch '2'] ∧
      (Prints 0x1000 4 [ch '%', ch '5', ch 'd'] [.word 42]
          [ch ' ', ch ' ', ch ' ', ch '4', ch '2'] ↔
        0 < 4 ∧ 0x1000 + 5 < 2 ^ 32) :=
  ⟨by decide, vsnprintf_prints_iff (by decide) (by decide) (by decide) (by decide) (by decide)⟩

/-- With an empty buffer `scnprintf` and `vscnprintf` return -1. -/
theorem vscnprintf_emptyBuffer :
    fullOutput [] [] = some [] ∧
      (vscnprintf (fun _ => 0) 0x1000 0 [] []).map Result.value = some (-1) ∧
      (scnprintf (fun _ => 0) 0x1000 0 [] []).map Result.value = some (-1) ∧
      ¬ Prints 0x1000 0 [] [] [] := by
  have returned : (vscnprintf (fun _ => 0) 0x1000 0 [] []).map Result.value = some (-1) := by
    decide
  refine ⟨rfl, returned, by decide, fun prints => ?_⟩
  obtain ⟨done, ran, value⟩ := prints.vscnprintf fun _ => 0
  rw [ran] at returned
  simp only [Option.map_some, Option.some.injEq] at returned
  rw [returned] at value
  exact absurd value (by decide)

end MagxKernel.Vsprintf
