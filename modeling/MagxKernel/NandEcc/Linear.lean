import MagxKernel.NandEcc.Code

namespace MagxKernel.NandEcc

open List Function

section Bits

theorem twoPow_shift {k : Nat} (small : k < 7) :
    BitVec.twoPow 8 (k + 1) >>> 1 = BitVec.twoPow 8 k := by
  have all : ∀ k : Fin 7, BitVec.twoPow 8 (k.val + 1) >>> 1 = BitVec.twoPow 8 k.val := by decide
  exact all ⟨k, small⟩

theorem and_twoPow_ne_zero (x : BitVec 8) {k : Nat} (small : k < 8) :
    x &&& BitVec.twoPow 8 k ≠ 0 ↔ x.getLsbD k = true := by
  have set : ∀ k : Fin 8, BitVec.twoPow 8 k ≠ 0 := by decide
  rw [BitVec.and_twoPow]
  split
  · rename_i bit
    exact ⟨fun _ => bit, fun _ => set ⟨k, small⟩⟩
  · rename_i bit
    exact ⟨absurd rfl, fun wrong => absurd wrong bit⟩

theorem getLsbD_copy (x tmp : BitVec 8) {k m : Nat} (small : k < 8) (place : m < 8) (p : Nat) :
    (if x &&& BitVec.twoPow 8 k ≠ 0 then tmp ||| BitVec.twoPow 8 m else tmp).getLsbD p =
      (tmp.getLsbD p || (x.getLsbD k && decide (p = m))) := by
  by_cases bit : x.getLsbD k = true
  · rw [if_pos ((and_twoPow_ne_zero x small).mpr bit), BitVec.getLsbD_or, BitVec.getLsbD_twoPow,
      bit, Bool.true_and, decide_eq_true place, Bool.true_and]
    congr 2
    exact propext eq_comm
  · rw [if_neg fun set => bit ((and_twoPow_ne_zero x small).mp set), eq_false_of_ne_true bit,
      Bool.false_and, Bool.or_false]

theorem xor_and_mask (x y mask : BitVec 8) :
    (x ^^^ y) &&& mask = (x &&& mask) ^^^ (y &&& mask) := by
  apply BitVec.eq_of_getLsbD_eq
  intro p _
  simp only [BitVec.getLsbD_and, BitVec.getLsbD_xor]
  exact Bool.and_xor_distrib_right _ _ _

theorem and_64 (x : BitVec 8) : x &&& 0x40 = 0 ∨ x &&& 0x40 = 0x40 := by
  show x &&& BitVec.twoPow 8 6 = 0 ∨ x &&& BitVec.twoPow 8 6 = BitVec.twoPow 8 6
  rw [BitVec.and_twoPow]
  split
  · exact .inr rfl
  · exact .inl rfl

end Bits

section Trans

variable (reg2 reg3 : BitVec 8)

theorem transLoop_mask (count : Nat) (a b tmp : BitVec 8) :
    (transLoop reg2 reg3 count a b tmp).1 = a >>> count := by
  induction count generalizing a b tmp with
  | zero => exact (BitVec.ushiftRight_zero a).symm
  | succ count ih => rw [transLoop, ih, ← BitVec.shiftRight_add, Nat.add_comm]

/-- The loop interleaves `count` bits of the registers from place `k` down. -/
theorem transLoop_bits (count k : Nat) (a b tmp : BitVec 8) (few : count ≤ 4) (small : k < 8)
    (enough : count ≤ k + 1) (mask : count ≠ 0 → a = BitVec.twoPow 8 k)
    (place : count ≠ 0 → b = BitVec.twoPow 8 (2 * count - 1))
    (clear : ∀ p < 2 * count, tmp.getLsbD p = false) (p : Nat) :
    (transLoop reg2 reg3 count a b tmp).2.getLsbD p =
      if p < 2 * count then
        (if p % 2 = 1 then reg3 else reg2).getLsbD (k + 1 - count + p / 2)
      else tmp.getLsbD p := by
  induction count generalizing k a b tmp with
  | zero => rfl
  | succ count ih =>
    have a_eq := mask (Nat.succ_ne_zero _)
    have b_eq := place (Nat.succ_ne_zero _)
    rw [show 2 * (count + 1) - 1 = 2 * count + 1 by omega] at b_eq
    have half : b >>> 1 = BitVec.twoPow 8 (2 * count) := by
      rw [b_eq]
      exact twoPow_shift (by omega)
    have bits : ∀ p, (if reg2 &&& a ≠ 0 then
        (if reg3 &&& a ≠ 0 then tmp ||| b else tmp) ||| b >>> 1
        else if reg3 &&& a ≠ 0 then tmp ||| b else tmp).getLsbD p =
        ((tmp.getLsbD p || (reg3.getLsbD k && decide (p = 2 * count + 1))) ||
          (reg2.getLsbD k && decide (p = 2 * count))) := by
      intro p
      rw [half, a_eq, b_eq, getLsbD_copy _ _ small (by omega), getLsbD_copy _ _ small (by omega)]
    simp only [transLoop]
    rw [ih (k - 1) (a >>> 1) (b >>> 1 >>> 1) _ (by omega) (by omega) (by omega), bits p]
    · split
      · rw [if_pos (show p < 2 * (count + 1) by omega), show k - 1 + 1 - count =
          k + 1 - (count + 1) by omega]
      · by_cases odd : p = 2 * count + 1
        · rw [if_pos (by omega), if_pos (by omega), clear p (by omega), odd,
            show k + 1 - (count + 1) + (2 * count + 1) / 2 = k by omega]
          simp
        · by_cases even : p = 2 * count
          · rw [if_pos (by omega), if_neg (by omega), clear p (by omega), even,
              show k + 1 - (count + 1) + 2 * count / 2 = k by omega]
            simp
          · rw [if_neg (by omega)]
            simp [odd, even]
    · intro more
      obtain ⟨less, rfl⟩ := Nat.exists_eq_add_one_of_ne_zero (show k ≠ 0 by omega)
      rw [a_eq]
      exact twoPow_shift (by omega)
    · intro more
      obtain ⟨less, rfl⟩ := Nat.exists_eq_add_one_of_ne_zero more
      rw [half, show 2 * (less + 1) = 2 * (less + 1) - 1 + 1 by omega]
      exact twoPow_shift (by omega)
    · intro q below
      rw [bits q, clear q (by omega)]
      simp [show q ≠ 2 * count + 1 by omega, show q ≠ 2 * count by omega]

/-- The code bytes are the high and the low halves of the registers, interleaved. -/
theorem nandTransResult_bits {p : Nat} (inside : p < 8) :
    (nandTransResult reg2 reg3).1.getLsbD p =
        (if p % 2 = 1 then reg3 else reg2).getLsbD (4 + p / 2) ∧
      (nandTransResult reg2 reg3).2.getLsbD p =
        (if p % 2 = 1 then reg3 else reg2).getLsbD (p / 2) := by
  have high := transLoop_bits reg2 reg3 4 7 0x80 0x80 0 (by decide) (by decide) (by decide)
    (fun _ => rfl) (fun _ => rfl) (fun _ _ => BitVec.getLsbD_zero) p
  have low := transLoop_bits reg2 reg3 4 3 0x08 0x80 0 (by decide) (by decide) (by decide)
    (fun _ => rfl) (fun _ => rfl) (fun _ _ => BitVec.getLsbD_zero) p
  have mask : (transLoop reg2 reg3 4 0x80 0x80 0).1 = 0x08 := transLoop_mask reg2 reg3 4 _ _ _
  rw [if_pos (by omega)] at high low
  constructor
  · exact high
  · simp only [nandTransResult, mask]
    rw [low, Nat.zero_add]

theorem nandTransResult_xor (other2 other3 : BitVec 8) :
    nandTransResult (reg2 ^^^ other2) (reg3 ^^^ other3) =
      ((nandTransResult reg2 reg3).1 ^^^ (nandTransResult other2 other3).1,
        (nandTransResult reg2 reg3).2 ^^^ (nandTransResult other2 other3).2) := by
  apply Prod.ext
  all_goals
    apply BitVec.eq_of_getLsbD_eq
    intro p inside
    simp only [BitVec.getLsbD_xor, nandTransResult_bits _ _ inside]
    split <;> exact BitVec.getLsbD_xor

end Trans

section Table

/-- The table in two halves: a byte is the sum of its upper and its lower four bits. -/
def columnParities (x : BitVec 8) : BitVec 8 :=
  [0x00, 0x55, 0x56, 0x03, 0x59, 0x0c, 0x0f, 0x5a, 0x5a, 0x0f, 0x0c, 0x59, 0x03, 0x56, 0x55,
    0x00].getD (x.toNat % 16) 0 ^^^
  [0x00, 0x65, 0x66, 0x03, 0x69, 0x0c, 0x0f, 0x6a, 0x6a, 0x0f, 0x0c, 0x69, 0x03, 0x66, 0x65,
    0x00].getD (x.toNat / 16) 0

theorem nandEccPrecalcTable_eq (x : BitVec 8) :
    nandEccPrecalcTable.getD x.toNat 0 = columnParities x := by
  revert x
  decide +kernel

/-- Flipping a bit of a byte flips the three pairs of column parities that name it. -/
theorem nandEccPrecalcTable_flip (x : BitVec 8) (bit : Fin 8) :
    nandEccPrecalcTable.getD (x ^^^ BitVec.twoPow 8 bit).toNat 0 =
      nandEccPrecalcTable.getD x.toNat 0 ^^^
        nandEccPrecalcTable.getD (BitVec.twoPow 8 bit).toNat 0 := by
  rw [nandEccPrecalcTable_eq, nandEccPrecalcTable_eq, nandEccPrecalcTable_eq]
  revert x bit
  decide +kernel

end Table

section Parity

def Registers.xor (regs other : Registers) : Registers :=
  ⟨regs.reg1 ^^^ other.reg1, regs.reg2 ^^^ other.reg2, regs.reg3 ^^^ other.reg3⟩

/-- A block with one bit changed. -/
def flipBit (dat : Block) (j : Fin 256) (bit : Fin 8) : Block :=
  update dat j (dat j ^^^ BitVec.twoPow 8 bit)

/-- What a changed bit does to the registers. -/
def flipParity (j : Fin 256) (bit : Fin 8) : Registers :=
  ⟨nandEccPrecalcTable.getD (BitVec.twoPow 8 bit).toNat 0 &&& 0x3f, ~~~(BitVec.ofFin j),
    BitVec.ofFin j⟩

variable (dat : Block) (regs : Registers) (j : Fin 256) (bit : Fin 8)

theorem parityStep_xor (other : Registers) (i : Fin 256) :
    parityStep dat (regs.xor other) i = (parityStep dat regs i).xor other := by
  have swap : ∀ x y z : BitVec 8, x ^^^ y ^^^ z = x ^^^ z ^^^ y := by
    intro x y z
    rw [BitVec.xor_assoc, BitVec.xor_comm y, ← BitVec.xor_assoc]
  simp only [parityStep, Registers.xor]
  split
  · simp [swap _ _ other.reg1, swap _ _ other.reg2, swap _ _ other.reg3]
  · simp only [swap _ _ other.reg1]

theorem parityStep_flip_of_ne {i : Fin 256} (other : i ≠ j) :
    parityStep (flipBit dat j bit) regs i = parityStep dat regs i := by
  simp [parityStep, flipBit, update_of_ne other]

theorem parityStep_flip :
    parityStep (flipBit dat j bit) regs j = (parityStep dat regs j).xor (flipParity j bit) := by
  simp only [parityStep, flipBit, update_self, nandEccPrecalcTable_flip]
  generalize nandEccPrecalcTable.getD (dat j).toNat 0 = idx
  have parity : nandEccPrecalcTable.getD (BitVec.twoPow 8 bit).toNat 0 &&& 0x40 = 0x40 := by
    revert bit
    decide
  generalize column : nandEccPrecalcTable.getD (BitVec.twoPow 8 bit).toNat 0 = flipped at parity
  rw [xor_and_mask, xor_and_mask, parity]
  rcases and_64 idx with even | odd
  · rw [even]
    simp only [Registers.xor, flipParity, column, ← BitVec.xor_assoc]
    rfl
  · rw [odd]
    have back : ∀ x y : BitVec 8, x ^^^ y ^^^ y = x := by
      intro x y
      rw [BitVec.xor_assoc, BitVec.xor_self, BitVec.xor_zero]
    rw [if_neg (by decide), if_pos (by decide)]
    simp only [Registers.xor, flipParity, column, ← BitVec.xor_assoc, back]

/-- The registers after one bit of the block was changed. -/
theorem parities_flip : parities (flipBit dat j bit) = (parities dat).xor (flipParity j bit) := by
  obtain ⟨before, after, split⟩ := append_of_mem (mem_finRange j)
  have once := nodup_finRange 256
  rw [split] at once
  have apart := nodup_middle.mp once
  rw [nodup_cons, mem_append, not_or] at apart
  have same : ∀ (l : List (Fin 256)) (regs : Registers), j ∉ l →
      l.foldl (parityStep (flipBit dat j bit)) regs = l.foldl (parityStep dat) regs := by
    intro l regs absent
    apply foldl_ext
    intro regs i found
    exact parityStep_flip_of_ne dat regs j bit fun equal => absent (equal ▸ found)
  unfold parities
  rw [split, foldl_append, foldl_append, foldl_cons, foldl_cons,
    same before _ apart.1.1, parityStep_flip, same after _ apart.1.2]
  exact foldl_hom (fun regs => regs.xor (flipParity j bit))
    fun regs i => parityStep_xor dat regs (flipParity j bit) i

end Parity

section Syndrome

def Ecc.xor (ecc other : Ecc) : Ecc :=
  ⟨ecc.first ^^^ other.first, ecc.second ^^^ other.second, ecc.third ^^^ other.third⟩

/-- What a changed bit of the block does to the code. -/
def dataSyndrome (j : Fin 256) (bit : Fin 8) : Ecc :=
  let code := nandTransResult (~~~(BitVec.ofFin j)) (BitVec.ofFin j)
  ⟨code.1, code.2, (flipParity j bit).reg1 <<< 2⟩

theorem not_xor (x y : BitVec 8) : ~~~(x ^^^ y) = ~~~x ^^^ y := by
  apply BitVec.eq_of_getLsbD_eq
  intro p inside
  simp [inside]

theorem unused_xor (x y : BitVec 8) :
    (x ^^^ y) <<< 2 ||| (0x03 : BitVec 8) = (x <<< 2 ||| (0x03 : BitVec 8)) ^^^ y <<< 2 := by
  have unused : ∀ p : Fin 8, (0x03 : BitVec 8).getLsbD p = decide (p.val < 2) := by decide
  generalize (0x03 : BitVec 8) = mask at unused ⊢
  apply BitVec.eq_of_getLsbD_eq
  intro p inside
  have here : mask.getLsbD p = decide (p < 2) := unused ⟨p, inside⟩
  simp only [BitVec.getLsbD_or, BitVec.getLsbD_xor, BitVec.getLsbD_shiftLeft, here]
  by_cases low : p < 2 <;> simp [low, inside]

theorem nandCalculateEcc_flip (dat : Block) (j : Fin 256) (bit : Fin 8) :
    nandCalculateEcc (flipBit dat j bit) = (nandCalculateEcc dat).xor (dataSyndrome j bit) := by
  unfold nandCalculateEcc
  simp only [parities_flip, Registers.xor, nandTransResult_xor, Ecc.xor, dataSyndrome, not_xor]
  rw [unused_xor]
  rfl

end Syndrome

end MagxKernel.NandEcc
