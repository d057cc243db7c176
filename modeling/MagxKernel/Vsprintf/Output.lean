import Mathlib.Logic.Function.Basic
import MagxKernel.Lib.MachineInt

namespace MagxKernel.Vsprintf

open List
open MachineInt (s32)

/-- `str`, `end`, which is the last byte of the buffer, and the memory behind them. `emitted` has
no place in the source: it keeps every character that was put, stored or not. -/
structure Out where
  str : Nat
  last : Nat
  mem : Nat → UInt8
  emitted : List UInt8

/-- `if (str <= end) *str = c; ++str;` -/
def Out.put (out : Out) (c : UInt8) : Out :=
  { out with
    mem := if out.str ≤ out.last then Function.update out.mem out.str c else out.mem
    str := (out.str + 1) % 2 ^ 32
    emitted := out.emitted ++ [c] }

def Out.puts (out : Out) (chars : List UInt8) : Out := chars.foldl Out.put out

/-- What a buffer of `size` bytes has room for, before the null byte. -/
def cut {α : Type} (size : Nat) (output : List α) : List α := output.take (size - 1)

section

variable (out : Out)

include out

@[simp] theorem Out.puts_nil : out.puts [] = out := rfl

@[simp] theorem Out.puts_cons (c : UInt8) (chars : List UInt8) :
    out.puts (c :: chars) = (out.put c).puts chars := rfl

theorem Out.puts_append (first second : List UInt8) :
    out.puts (first ++ second) = (out.puts first).puts second :=
  foldl_append

variable (chars : List UInt8)

@[simp] theorem Out.puts_last : (out.puts chars).last = out.last := by
  induction chars generalizing out with
  | nil => rfl
  | cons c rest ih => exact ih (out.put c)

theorem Out.puts_emitted : (out.puts chars).emitted = out.emitted ++ chars := by
  induction chars generalizing out with
  | nil => exact (append_nil out.emitted).symm
  | cons c rest ih =>
    rw [Out.puts_cons, ih]
    simp [Out.put]

theorem Out.puts_str (address : out.str < 2 ^ 32) :
    (out.puts chars).str = (out.str + chars.length) % 2 ^ 32 := by
  induction chars generalizing out with
  | nil => exact (Nat.mod_eq_of_lt address).symm
  | cons c rest ih =>
    have next : (out.put c).str = (out.str + 1) % 2 ^ 32 := rfl
    rw [Out.puts_cons, ih (out.put c) (by omega), next, length_cons]
    omega

/-- A put before the end of the address space changes one byte, and only inside the buffer. -/
theorem Out.put_mem (c : UInt8) (a : Nat) :
    (out.put c).mem a = if a = out.str ∧ a ≤ out.last then c else out.mem a := by
  simp only [Out.put]
  by_cases same : a = out.str
  · subst same
    by_cases inside : out.str ≤ out.last <;> simp [inside]
  · by_cases inside : out.str ≤ out.last <;> simp [same, inside]

/-- As long as `str` does not wrap, the characters that fit lie where they were put, and every
other byte is unchanged. -/
theorem Out.puts_mem (room : out.str + chars.length ≤ 2 ^ 32) (a : Nat) :
    (out.puts chars).mem a =
      if out.str ≤ a ∧ a ≤ out.last then chars.getD (a - out.str) (out.mem a) else out.mem a := by
  induction chars generalizing out with
  | nil => simp only [Out.puts_nil, getD_nil, ite_self]
  | cons c rest ih =>
    simp only [length_cons] at room
    rw [Out.puts_cons]
    by_cases final : rest = []
    · subst final
      rw [Out.puts_nil, Out.put_mem]
      by_cases same : a = out.str
      · subst same
        simp
      · simp only [same, false_and, if_false]
        split
        · have beyond : a - out.str = a - out.str - 1 + 1 := by omega
          rw [beyond, getD_cons_succ, getD_nil]
        · rfl
    · have more : 0 < rest.length := length_pos_iff.2 final
      have next : (out.put c).str = out.str + 1 := by
        change (out.str + 1) % 2 ^ 32 = out.str + 1
        omega
      have last : (out.put c).last = out.last := rfl
      rw [ih (out.put c) (by omega), next, last, Out.put_mem]
      by_cases same : a = out.str
      · subst same
        have before : ¬ (out.str + 1 ≤ out.str ∧ out.str ≤ out.last) := by omega
        simp [before]
      · simp only [same, false_and, if_false]
        by_cases inside : out.str ≤ a ∧ a ≤ out.last
        · have later : a - out.str = a - (out.str + 1) + 1 := by omega
          have after : out.str + 1 ≤ a ∧ a ≤ out.last := by omega
          rw [if_pos inside, if_pos after, later, getD_cons_succ]
        · have outside : ¬ (out.str + 1 ≤ a ∧ a ≤ out.last) := by omega
          rw [if_neg inside, if_neg outside]

end

/-- `while (bound < count--)` over the put of one character. -/
def whileAboveFuel (c : UInt8) (bound : Int) : Nat → Int → Out → Int × Out
  | 0, count, out => (count, out)
  | fuel + 1, count, out =>
    if bound < count then whileAboveFuel c bound fuel (count - 1) (out.put c)
    else (s32 (count - 1), out)

def whileAbove (c : UInt8) (bound count : Int) (out : Out) : Int × Out :=
  whileAboveFuel c bound ((count - bound).toNat + 1) count out

variable (c : UInt8)

/-- The loop puts one character for each step from `count` down to `bound`. -/
theorem whileAboveFuel_spec (bound : Int) (fuel : Nat) (count : Int) (out : Out)
    (enough : (count - bound).toNat < fuel) :
    whileAboveFuel c bound fuel count out =
      (s32 (min count bound - 1), out.puts (List.replicate (count - bound).toNat c)) := by
  induction fuel generalizing count out with
  | zero => omega
  | succ fuel ih =>
    rw [whileAboveFuel]
    by_cases more : bound < count
    · have steps : (count - bound).toNat = (count - 1 - bound).toNat + 1 := by omega
      have least : min (count - 1) bound = min count bound := by omega
      rw [if_pos more, ih _ _ (by omega), steps, least]
      rfl
    · have none : (count - bound).toNat = 0 := by omega
      have least : min count bound = count := by omega
      rw [if_neg more, none, least]
      rfl

theorem whileAbove_spec (bound count : Int) (out : Out) :
    whileAbove c bound count out =
      (s32 (min count bound - 1), out.puts (List.replicate (count - bound).toNat c)) :=
  whileAboveFuel_spec c bound _ count out (Nat.lt_succ_self _)

/-- `while (--count > 0)` over the put of one character. -/
def whilePositiveFuel (c : UInt8) : Nat → Int → Out → Int × Out
  | 0, count, out => (count, out)
  | fuel + 1, count, out =>
    let count := s32 (count - 1)
    if 0 < count then whilePositiveFuel c fuel count (out.put c) else (count, out)

def whilePositive (c : UInt8) (count : Int) (out : Out) : Int × Out :=
  whilePositiveFuel c ((s32 (count - 1)).toNat + 1) count out

theorem whilePositiveFuel_spec (fuel : Nat) (count : Int) (out : Out)
    (enough : (s32 (count - 1)).toNat < fuel) :
    whilePositiveFuel c fuel count out =
      (min (s32 (count - 1)) 0, out.puts (List.replicate (s32 (count - 1)).toNat c)) := by
  induction fuel generalizing count out with
  | zero => omega
  | succ fuel ih =>
    simp only [whilePositiveFuel]
    have high : s32 (count - 1) < 2 ^ 31 := Int.bmod_lt (by decide)
    generalize s32 (count - 1) = rest at enough high
    by_cases more : 0 < rest
    · have next : s32 (rest - 1) = rest - 1 :=
        MachineInt.s32_of_range _ (by omega) (by omega)
      have steps : rest.toNat = (rest - 1).toNat + 1 := by omega
      have least : min (rest - 1) 0 = min rest 0 := by omega
      rw [if_pos more, ih _ _ (by rw [next]; omega), next, steps, least]
      rfl
    · have none : rest.toNat = 0 := by omega
      have least : min rest 0 = rest := by omega
      rw [if_neg more, none, least]
      rfl

theorem whilePositive_spec (count : Int) (out : Out) :
    whilePositive c count out =
      (min (s32 (count - 1)) 0, out.puts (List.replicate (s32 (count - 1)).toNat c)) :=
  whilePositiveFuel_spec c _ count out (Nat.lt_succ_self _)

end MagxKernel.Vsprintf
