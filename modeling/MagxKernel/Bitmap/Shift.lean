import MagxKernel.Bitmap.Words

namespace MagxKernel.Bitmap

open Function

/-- The last word keeps only the bits of the bitmap. -/
def trimLast (lim left k : Nat) (word : Word) : Word :=
  if left ≠ 0 ∧ k + 1 = lim then word &&& (1#32 <<< left) - 1 else word

/-- What one turn of the loop of `__bitmap_shift_right` stores. -/
def shiftedRightWord (lim left off rem k : Nat) (src : Mask) : Word :=
  -- take lower rem bits of word above and make them the top rem bits of result
  let upper : Word :=
    if rem = 0 ∨ lim ≤ off + k + 1 then 0 else trimLast lim left (off + k + 1) (src (off + k + 1))
  let lower := trimLast lim left (off + k) (src (off + k))
  trimLast lim left k (upper <<< (bitsPerLong - rem) ||| lower >>> rem)

/-- The loop of `__bitmap_shift_right`. `source` says what `src` holds: `dst` itself or
another bitmap. -/
def shiftRightLoop (source : Mask → Mask) (lim left off rem : Nat) : Nat → Mask → Mask
  | 0, dst => dst
  | k + 1, dst =>
    let done := shiftRightLoop source lim left off rem k dst
    Function.update done k (shiftedRightWord lim left off rem k (source done))

def bitmapShiftRight (source : Mask → Mask) (dst : Mask) (shift bits : Nat) : Mask :=
  let lim := bitsToLongs bits
  let off := shift / bitsPerLong
  let shifted := shiftRightLoop source lim (bits % bitsPerLong) off (shift % bitsPerLong)
    (lim - off) dst
  fun k => if lim - off ≤ k ∧ k < lim then 0 else shifted k

/-- What one turn of the loop of `__bitmap_shift_left` stores. -/
def shiftedLeftWord (lim left off rem k : Nat) (src : Mask) : Word :=
  -- take upper rem bits of word below and make them the bottom rem bits of result
  let lower : Word := if rem ≠ 0 ∧ 0 < k then src (k - 1) else 0
  let upper := trimLast lim left k (src k)
  trimLast lim left (k + off) (lower >>> (bitsPerLong - rem) ||| upper <<< rem)

/-- The loop of `__bitmap_shift_left`, from the last word down. -/
def shiftLeftLoop (source : Mask → Mask) (lim left off rem : Nat) : Nat → Mask → Mask
  | 0, dst => dst
  | k + 1, dst => shiftLeftLoop source lim left off rem k
      (Function.update dst (k + off) (shiftedLeftWord lim left off rem k (source dst)))

def bitmapShiftLeft (source : Mask → Mask) (dst : Mask) (shift bits : Nat) : Mask :=
  let lim := bitsToLongs bits
  let off := shift / bitsPerLong
  let shifted := shiftLeftLoop source lim (bits % bitsPerLong) off (shift % bitsPerLong)
    (lim - off) dst
  fun k => if k < off then 0 else shifted k

section

variable {source : Mask → Mask} {dst src : Mask} {lim left off rem : Nat}

theorem shiftRightLoop_word (reads : ∀ done k, done k = dst k → source done k = src k)
    (count j : Nat) : shiftRightLoop source lim left off rem count dst j =
      if j < count then shiftedRightWord lim left off rem j src else dst j := by
  induction count generalizing j with
  | zero => rfl
  | succ k ih =>
    have ahead : ∀ j, k ≤ j → source (shiftRightLoop source lim left off rem k dst) j = src j := by
      intro j behind
      apply reads
      rw [ih, if_neg (by omega)]
    rw [shiftRightLoop, update_apply]
    split
    next here =>
      rw [here, if_pos (by omega), shiftedRightWord, ahead _ (by omega), ahead _ (by omega)]
      rfl
    next => rw [ih]; grind

theorem shiftLeftLoop_word (count : Nat) (reads : ∀ done, ∀ k < count, done k = dst k →
      source done k = src k) (j : Nat) :
    shiftLeftLoop source lim left off rem count dst j =
      if off ≤ j ∧ j < count + off then shiftedLeftWord lim left off rem (j - off) src
      else dst j := by
  induction count generalizing dst with
  | zero =>
    rw [if_neg (by omega)]
    rfl
  | succ k ih =>
    have word : shiftedLeftWord lim left off rem k (source dst) =
        shiftedLeftWord lim left off rem k src := by
      rw [shiftedLeftWord, reads dst k (by omega) rfl, reads dst (k - 1) (by omega) rfl]
      rfl
    rw [shiftLeftLoop, word, ih]
    · grind
    · intro done j below same
      rw [update_of_ne (by omega)] at same
      exact reads done j (by omega) same

end

theorem getLsbD_ones {left i : Nat} (small : left < 32) :
    ((1#32 <<< left) - 1).getLsbD i = decide (i < left) := by
  have fits : 2 ^ left < 2 ^ 32 := Nat.pow_lt_pow_right (by decide) small
  have power : (1#32 <<< left).toNat = 2 ^ left := by
    rw [BitVec.toNat_shiftLeft, Nat.shiftLeft_eq]
    simp only [BitVec.toNat_ofNat, Nat.one_mod, Nat.one_mul]
    exact Nat.mod_eq_of_lt fits
  have ones : ((1#32 <<< left) - 1).toNat = 2 ^ left - 1 := by
    rw [BitVec.toNat_sub, power]
    change (2 ^ 32 - 1 + 2 ^ left) % 2 ^ 32 = 2 ^ left - 1
    have := Nat.two_pow_pos left
    omega
  rw [BitVec.getLsbD, ones, Nat.testBit_two_pow_sub_one]

theorem getLsbD_funnel (hi lo : Word) {r s i : Nat} (whole : r + s = 32) (inside : i < 32) :
    (lo >>> s ||| hi <<< r).getLsbD i =
      if i < r then lo.getLsbD (s + i) else hi.getLsbD (i - r) := by
  rw [BitVec.getLsbD_or, BitVec.getLsbD_shiftLeft, BitVec.getLsbD_ushiftRight]
  split
  next low => simp [low]
  next high => simp [high, inside, BitVec.getLsbD_of_ge lo (s + i) (by omega)]

theorem getLsbD_zero (i : Nat) : (0 : Word).getLsbD i = false := BitVec.getLsbD_zero

theorem testBit_word (mask : Mask) (k : Nat) {i : Nat} (inside : i < 32) :
    testBit mask (32 * k + i) = (mask k).getLsbD i := by
  unfold testBit bitsPerLong
  rw [show (32 * k + i) / 32 = k by omega, show (32 * k + i) % 32 = i by omega]

theorem decide_and_eq {p q r : Prop} [Decidable p] [Decidable q] [Decidable r] {b : Bool}
    (same : p ∧ q ↔ r) : (decide p && (decide q && b)) = (decide r && b) := by
  rw [← Bool.and_assoc, ← Bool.decide_and, decide_eq_decide.mpr same]

section

variable {bits : Nat} (small : bits + 31 < 2 ^ 31)

include small

theorem getLsbD_trimLast {k i : Nat} (word : Word) (within : k < bitsToLongs bits)
    (inside : i < 32) : (trimLast (bitsToLongs bits) (bits % bitsPerLong) k word).getLsbD i =
      (decide (32 * k + i < bits) && word.getLsbD i) := by
  rw [bitsToLongs_eq small] at *
  unfold trimLast bitsPerLong
  split
  next last =>
    rw [BitVec.getLsbD_and, getLsbD_ones (by omega), Bool.and_comm,
      decide_eq_decide.mpr (show i < bits % 32 ↔ 32 * k + i < bits by omega)]
  next => rw [decide_eq_true (show 32 * k + i < bits by omega), Bool.true_and]

section

variable {off rem k i : Nat} (src : Mask) (part : rem < 32) (inside : i < 32)

include part inside

theorem shiftedRightWord_bit (within : off + k < bitsToLongs bits) :
    (shiftedRightWord (bitsToLongs bits) (bits % bitsPerLong) off rem k src).getLsbD i =
      (decide (32 * (off + k) + (rem + i) < bits) && testBit src (32 * (off + k) + (rem + i))) := by
  have whole : bitsPerLong = 32 := rfl
  unfold shiftedRightWord
  rw [getLsbD_trimLast small _ (by omega) inside, BitVec.or_comm,
    getLsbD_funnel _ _ (show bitsPerLong - rem + rem = 32 by omega) inside]
  split
  next low =>
    rw [getLsbD_trimLast small _ within (by omega), testBit_word _ _ (by omega)]
    exact decide_and_eq (by omega)
  next high =>
    by_cases last : bitsToLongs bits ≤ off + k + 1
    · rw [if_pos (.inr last), getLsbD_zero, Bool.and_false]
      rw [bitsToLongs_eq small] at last
      rw [decide_eq_false (by omega), Bool.false_and]
    · rw [if_neg (by omega), getLsbD_trimLast small _ (by omega) (by omega),
        show 32 * (off + k) + (rem + i) = 32 * (off + k + 1) + (i - (bitsPerLong - rem)) by
          omega, testBit_word _ _ (by omega)]
      exact decide_and_eq (by omega)

theorem shiftedLeftWord_bit (within : k + off < bitsToLongs bits) :
    (shiftedLeftWord (bitsToLongs bits) (bits % bitsPerLong) off rem k src).getLsbD i =
      (decide (rem ≤ 32 * k + i ∧ 32 * (k + off) + i < bits) &&
        testBit src (32 * k + i - rem)) := by
  have whole : bitsPerLong = 32 := rfl
  unfold shiftedLeftWord
  rw [getLsbD_trimLast small _ within inside,
    getLsbD_funnel _ _ (show rem + (bitsPerLong - rem) = 32 by omega) inside]
  split
  next low =>
    cases k with
    | zero => simp [show ¬rem ≤ i by omega]
    | succ k =>
      rw [if_pos (by omega), show 32 * (k + 1) + i - rem =
        32 * k + (bitsPerLong - rem + i) by omega,
        testBit_word _ _ (by omega)]
      exact congrArg (· && (src k).getLsbD (32 - rem + i)) (decide_eq_decide.mpr (by omega))
  next high =>
    rw [getLsbD_trimLast small _ (by omega) (by omega),
      show 32 * k + i - rem = 32 * k + (i - rem) by omega, testBit_word _ _ (by omega)]
    exact decide_and_eq (by omega)

end

section

variable {source : Mask → Mask} {dst src : Mask} {bit : Nat} (shift : Nat)
  (reads : ∀ done k, done k = dst k → source done k = src k)
  (inside : bit < 32 * bitsToLongs bits)

include reads inside

theorem bitmapShiftRight_bit : testBit (bitmapShiftRight source dst shift bits) bit =
    (decide (bit + shift < bits) && testBit src (bit + shift)) := by
  have lim := bitsToLongs_eq small
  by_cases moved : bit / 32 < bitsToLongs bits - shift / 32
  · have word := shiftedRightWord_bit small src (Nat.mod_lt shift (by decide))
      (Nat.mod_lt bit (by decide)) (show shift / 32 + bit / 32 < bitsToLongs bits by omega)
    rw [show 32 * (shift / 32 + bit / 32) + (shift % 32 + bit % 32) = bit + shift by omega] at word
    rw [← word]
    apply congrArg (BitVec.getLsbD · (bit % 32))
    refine (if_neg fun cleared => Nat.not_lt.mpr cleared.1 moved).trans ?_
    rw [shiftRightLoop_word reads]
    exact if_pos moved
  · have cleared : bit / 32 < bitsToLongs bits := by omega
    rw [decide_eq_false (by omega), Bool.false_and, ← getLsbD_zero (bit % 32)]
    exact congrArg (BitVec.getLsbD · (bit % 32)) (if_pos ⟨Nat.not_lt.mp moved, cleared⟩)

theorem bitmapShiftLeft_bit : testBit (bitmapShiftLeft source dst shift bits) bit =
    (decide (shift ≤ bit ∧ bit < bits) && testBit src (bit - shift)) := by
  by_cases cleared : bit / 32 < shift / 32
  · rw [decide_eq_false (by omega), Bool.false_and, ← getLsbD_zero (bit % 32)]
    exact congrArg (BitVec.getLsbD · (bit % 32)) (if_pos cleared)
  · have within : bit / 32 < bitsToLongs bits - shift / 32 + shift / 32 := by omega
    have word := shiftedLeftWord_bit small src (Nat.mod_lt shift (by decide))
      (Nat.mod_lt bit (by decide)) (show bit / 32 - shift / 32 + shift / 32 < _ by omega)
    rw [show 32 * (bit / 32 - shift / 32) + bit % 32 - shift % 32 = bit - shift by omega,
      decide_eq_decide.mpr (show _ ↔ shift ≤ bit ∧ bit < bits by omega)] at word
    rw [← word]
    apply congrArg (BitVec.getLsbD · (bit % 32))
    refine (if_neg cleared).trans ?_
    rw [shiftLeftLoop_word _ fun done k _ => reads done k]
    exact if_pos ⟨Nat.not_lt.mp cleared, within⟩

end

end

/-- Shifting by a word is multiplication, if nothing is lost at the top. -/
theorem maskValue_shift {mask : Mask} {nbits : Nat} (small : nbits + 31 < 2 ^ 31)
    (fits : maskValue mask nbits * 2 ^ 32 < 2 ^ nbits) :
    maskValue (bitmapShiftLeft id mask 32 nbits) nbits = maskValue mask nbits * 2 ^ 32 ∧
      bitmapShiftLeft id mask 32 nbits 0 = 0 := by
  refine ⟨Nat.eq_of_testBit_eq fun bit => ?_, by unfold bitmapShiftLeft; exact if_pos Nat.one_pos⟩
  have words := bitsToLongs_eq small
  have reads (done : Mask) (k : Nat) (same : done k = mask k) : id done k = mask k := same
  have shifted {bit : Nat} (inside : bit < 32 * bitsToLongs nbits) :=
    bitmapShiftLeft_bit small 32 reads inside
  by_cases valid : bit < nbits
  · rw [testBit_maskValue small valid, shifted (by omega),
      Nat.testBit_mul_two_pow, decide_eq_decide.mpr (show _ ↔ 32 ≤ bit by omega),
      testBit_maskValue small (by omega)]
  · rw [Nat.testBit_lt_two_pow (Nat.lt_of_lt_of_le fits
      (Nat.pow_le_pow_right (by decide) (Nat.not_lt.mp valid)))]
    by_cases inside : bit < 32 * bitsToLongs nbits
    · have lost := shifted inside
      rw [decide_eq_false (by omega), Bool.false_and] at lost
      rw [maskValue, Limbs.testBit_value inside]
      exact lost
    · exact Nat.testBit_lt_two_pow (Nat.lt_of_lt_of_le (Limbs.value_lt _ _)
        (Nat.pow_le_pow_right (by decide) (Nat.not_lt.mp inside)))

/-- Both shifts move the bits of the bitmap and feed in zeros, whatever the bits behind
its end are, and clear those of `dst`; `dst` may be `src`. -/
theorem bitmapShift_bits {source : Mask → Mask} {dst src : Mask}
    (alias_ : source = (fun _ => src) ∨ source = id ∧ dst = src) (shift : Nat) {bits bit : Nat}
    (small : bits + 31 < 2 ^ 31) (inside : bit < 32 * bitsToLongs bits) :
    testBit (bitmapShiftRight source dst shift bits) bit =
        (decide (bit + shift < bits) && testBit src (bit + shift)) ∧
      testBit (bitmapShiftLeft source dst shift bits) bit =
        (decide (shift ≤ bit ∧ bit < bits) && testBit src (bit - shift)) := by
  have reads : ∀ done k, done k = dst k → source done k = src k := by
    rcases alias_ with rfl | ⟨rfl, rfl⟩
    · exact fun _ _ _ => rfl
    · exact fun _ _ same => same
  exact ⟨bitmapShiftRight_bit small shift reads inside,
    bitmapShiftLeft_bit small shift reads inside⟩

theorem bitmapShift_bits_forty :
    testBit (bitmapShiftRight id (fun _ => 0xffffff80) 31 40) 8 = true ∧
      testBit (bitmapShiftLeft id (fun _ => 0xffffff80) 31 40) 8 = false :=
  bitmapShift_bits (.inr ⟨rfl, rfl⟩) 31 (show 40 + 31 < 2 ^ 31 by decide) (by decide)

theorem bitmapShiftRight_hugeMask :
    testBit (bitmapShiftRight (fun _ _ => 1) (fun _ => 0) 0 2147483617) 0 = false ∧
      testBit (fun _ => 1) 0 = true := by decide +kernel

end MagxKernel.Bitmap
