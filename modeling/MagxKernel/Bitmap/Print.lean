import MagxKernel.Bitmap.Groups
import MagxKernel.Vsprintf.Output

namespace MagxKernel.Bitmap

open List
open MachineInt (s32 s32_of_range)

/-- `%0*lx`. -/
def hexDigits (width value : Nat) : List Byte :=
  let digits := (Nat.toDigits 16 value).map Char.toNat
  List.replicate (width - digits.length) '0'.toNat ++ digits

/-- What `scnprintf` puts in a buffer of at least one byte, without the NUL. -/
def scnprintf (size : Nat) (formatted : List Byte) : List Byte := Vsprintf.cut size formatted

/-- `roundup_power2(val, 32)`, in an `int`. -/
def roundupPower2 (val : Nat) : Int :=
  let sum := s32 (val + 31)
  sum - sum % 32

/-- The loop of `bitmap_scnprintf`; `i` goes down from `32 * k` in steps of 32. -/
def printChunks (buflen : Nat) (maskp : Mask) : Nat → Nat → List Byte → List Byte → List Byte
  | 0, _, _, buf => buf
  | k + 1, chunksz, sep, buf =>
      let i := 32 * k
      let chunkmask := BitVec.ofNat 32 (2 ^ chunksz - 1)
      let word := i / bitsPerLong
      let bit := i % bitsPerLong
      let val := maskp word >>> bit &&& chunkmask
      printChunks buflen maskp k 32 [comma]
        (buf ++ scnprintf (buflen - buf.length) (sep ++ hexDigits ((chunksz + 3) / 4) val.toNat))

/-- `bitmap_scnprintf`: the string in the buffer. -/
def bitmapScnprintf (buflen : Nat) (maskp : Mask) (nmaskbits : Nat) : List Byte :=
  let chunksz := if nmaskbits % 32 = 0 then 32 else nmaskbits % 32
  let i := s32 (roundupPower2 nmaskbits - 32)
  if i < 0 then [] else printChunks buflen maskp (i.toNat / 32 + 1) chunksz [] []

/-- How long the string is in full. -/
def printedLength (nmaskbits : Nat) : Nat :=
  ((nmaskbits - 1) % 32 + 4) / 4 + 9 * ((nmaskbits - 1) / 32)

section Digits

theorem unhex_digitChar : ∀ d < 16, unhex (Nat.digitChar d).toNat = d ∧
    isxdigit (Nat.digitChar d).toNat = true := by
  decide

theorem hexValue_append (value : Nat) (first second : List Byte) :
    hexValue value (first ++ second) = hexValue (hexValue value first) second :=
  foldl_append ..

theorem toDigits_facts (value : Nat) :
    hexValue 0 ((Nat.toDigits 16 value).map Char.toNat) = value ∧
      ∀ c ∈ (Nat.toDigits 16 value).map Char.toNat, isxdigit c = true := by
  induction value using Nat.strongRecOn with
  | ind value ih =>
    rw [Nat.toDigits_eq_if (by decide)]
    split
    next small =>
      obtain ⟨isValue, isDigit⟩ := unhex_digitChar value small
      refine ⟨?_, forall_mem_singleton.mpr isDigit⟩
      change 0 * 16 + unhex (Nat.digitChar value).toNat = value
      omega
    next large =>
      obtain ⟨upper, digits⟩ := ih (value / 16) (by omega)
      obtain ⟨isValue, isDigit⟩ := unhex_digitChar (value % 16) (by omega)
      rw [map_append]
      refine ⟨?_, forall_mem_append.mpr ⟨digits, forall_mem_singleton.mpr isDigit⟩⟩
      rw [hexValue_append, upper]
      change value / 16 * 16 + unhex (Nat.digitChar (value % 16)).toNat = value
      omega

theorem hexValue_hexDigits (width value : Nat) : hexValue 0 (hexDigits width value) = value := by
  have zeros : ∀ n, hexValue 0 (List.replicate n '0'.toNat) = 0 := by
    intro n
    induction n with
    | zero => rfl
    | succ n ih => exact ih
  unfold hexDigits
  rw [hexValue_append, zeros]
  exact (toDigits_facts value).1

theorem isGroup_hexDigits {width : Nat} (value : Nat) (positive : 0 < width) :
    IsGroup (hexDigits width value) := by
  constructor
  · intro none
    have lengths := congrArg List.length none
    unfold hexDigits at lengths
    rw [length_append, length_replicate, length_nil] at lengths
    omega
  · refine forall_mem_append.mpr ⟨fun c zero => ?_, (toDigits_facts value).2⟩
    rw [eq_of_mem_replicate zero]
    decide

theorem hexDigits_length {width value : Nat} (positive : 0 < width) (small : value < 16 ^ width) :
    (hexDigits width value).length = width := by
  have short : (Nat.toDigits 16 value).length ≤ width :=
    (Nat.length_toDigits_le_iff (by decide) positive).mpr small
  unfold hexDigits
  rw [length_append, length_replicate, length_map]
  omega

end Digits

section Text

variable {maskp : Mask} {buflen : Nat}

/-- The lower words as text, each after a comma. -/
def wordsText (maskp : Mask) : Nat → List Byte
  | 0 => []
  | k + 1 => comma :: hexDigits 8 (maskp k).toNat ++ wordsText maskp k

def wordGroups (maskp : Mask) : Nat → List (List Byte)
  | 0 => []
  | k + 1 => hexDigits 8 (maskp k).toNat :: wordGroups maskp k

theorem printChunks_succ (k chunksz : Nat) (sep buf : List Byte) (small : chunksz ≤ 32) :
    printChunks buflen maskp (k + 1) chunksz sep buf =
      printChunks buflen maskp k 32 [comma] (buf ++ scnprintf (buflen - buf.length)
        (sep ++ hexDigits ((chunksz + 3) / 4) ((maskp k).toNat % 2 ^ chunksz))) := by
  have index : 32 * k / bitsPerLong = k := Nat.mul_div_cancel_left k (by decide)
  have bit : 32 * k % bitsPerLong = 0 := Nat.mul_mod_right 32 k
  have power : 2 ^ chunksz ≤ 2 ^ 32 := Nat.pow_le_pow_right (by decide) small
  have masked : (maskp k >>> 0 &&& BitVec.ofNat 32 (2 ^ chunksz - 1)).toNat =
      (maskp k).toNat % 2 ^ chunksz := by
    rw [BitVec.toNat_and, BitVec.ushiftRight_zero, BitVec.toNat_ofNat,
      Nat.mod_eq_of_lt (show 2 ^ chunksz - 1 < 2 ^ 32 by omega), Nat.and_two_pow_sub_one_eq_mod]
  rw [printChunks, index, bit, masked]

theorem scnprintf_eq {size : Nat} {formatted : List Byte} (room : formatted.length < size) :
    scnprintf size formatted = formatted :=
  take_of_length_le (Nat.le_sub_one_of_lt room)

/-- With room for all of it, the loop writes the lower words. -/
theorem printChunks_words (k : Nat) (buf : List Byte) (room : buf.length + 9 * k < buflen) :
    printChunks buflen maskp k 32 [comma] buf = buf ++ wordsText maskp k := by
  induction k generalizing buf with
  | zero => exact (append_nil buf).symm
  | succ k ih =>
    have whole : (maskp k).toNat % 2 ^ 32 = (maskp k).toNat := Nat.mod_eq_of_lt (maskp k).isLt
    have length : ([comma] ++ hexDigits 8 (maskp k).toNat).length = 9 := by
      rw [length_append, hexDigits_length (by decide) (maskp k).isLt]
      rfl
    rw [printChunks_succ k 32 [comma] buf (Nat.le_refl 32), whole,
      scnprintf_eq (by rw [length]; omega), ih]
    · rw [wordsText, append_assoc]
      rfl
    · rw [length_append, length]
      omega

theorem groups_words (k : Nat) {group tail : List Byte} (isGroup : IsGroup group)
    (ends : EndOfText tail) :
    Groups (group ++ (wordsText maskp k ++ tail)) (group :: wordGroups maskp k) := by
  induction k generalizing group with
  | zero => exact .last group tail isGroup ends
  | succ k ih =>
    rw [wordsText, cons_append, cons_append, append_assoc]
    exact .more group _ _ isGroup (ih (isGroup_hexDigits _ (by decide)))

theorem groupsValue_words (value k : Nat) :
    groupsValue value (wordGroups maskp k) = value * 2 ^ (32 * k) + Limbs.value maskp k := by
  induction k generalizing value with
  | zero =>
    change value = value * 2 ^ (32 * 0) + 0
    simp
  | succ k ih =>
    change groupsValue (value * 2 ^ 32 + hexValue 0 (hexDigits 8 (maskp k).toNat))
      (wordGroups maskp k) = _
    have power : 2 ^ (32 * (k + 1)) = 2 ^ 32 * 2 ^ (32 * k) := by
      rw [← Nat.pow_add]
      congr 1
      omega
    rw [ih, hexValue_hexDigits, Limbs.value, power, Nat.add_mul, Nat.mul_assoc]
    omega

theorem wordGroups_fit (k : Nat) : ∀ group ∈ wordGroups maskp k, hexValue 0 group < 2 ^ 32 := by
  induction k with
  | zero => nofun
  | succ k ih =>
    rw [wordGroups, forall_mem_cons, hexValue_hexDigits]
    exact ⟨(maskp k).isLt, ih⟩

/-- The digits of the top word, of which only the bits of the bitmap are shown. -/
def topGroup (maskp : Mask) (nmaskbits : Nat) : List Byte :=
  hexDigits (((nmaskbits - 1) % 32 + 4) / 4)
    ((maskp ((nmaskbits - 1) / 32)).toNat % 2 ^ ((nmaskbits - 1) % 32 + 1))

variable {nmaskbits : Nat}

theorem bitmapScnprintf_eq (small : nmaskbits + 31 < 2 ^ 31) (positive : 0 < nmaskbits)
    (room : printedLength nmaskbits < buflen) :
    bitmapScnprintf buflen maskp nmaskbits =
      topGroup maskp nmaskbits ++ wordsText maskp ((nmaskbits - 1) / 32) := by
  have start : s32 (roundupPower2 nmaskbits - 32) =
      ((32 * ((nmaskbits - 1) / 32) : Nat) : Int) := by
    unfold roundupPower2
    dsimp only
    rw [s32_of_range (nmaskbits + 31) (by omega) (by omega), s32_of_range _ (by omega) (by omega)]
    omega
  have first : (if nmaskbits % 32 = 0 then 32 else nmaskbits % 32) = (nmaskbits - 1) % 32 + 1 := by
    split <;> omega
  have width : ((nmaskbits - 1) % 32 + 1 + 3) / 4 = ((nmaskbits - 1) % 32 + 4) / 4 := by omega
  have length : (topGroup maskp nmaskbits).length = ((nmaskbits - 1) % 32 + 4) / 4 := by
    apply hexDigits_length (by omega)
    refine Nat.lt_of_lt_of_le (Nat.mod_lt _ (Nat.two_pow_pos _)) ?_
    rw [show (16 : Nat) = 2 ^ 4 from rfl, ← Nat.pow_mul]
    exact Nat.pow_le_pow_right (by decide) (by omega)
  unfold printedLength at room
  unfold bitmapScnprintf
  rw [start, first, if_neg (by omega), Int.toNat_natCast, Nat.mul_div_cancel_left _ (by decide),
    printChunks_succ _ _ _ _ (by omega), width, nil_append, nil_append, length_nil]
  change printChunks buflen maskp _ 32 [comma] (scnprintf (buflen - 0) (topGroup maskp nmaskbits)) =
    _
  rw [scnprintf_eq (by rw [length]; omega), printChunks_words]
  rw [length]
  exact room

theorem printed_value :
    groupsValue 0 (topGroup maskp nmaskbits :: wordGroups maskp ((nmaskbits - 1) / 32)) =
    2 ^ (32 * ((nmaskbits - 1) / 32)) *
      ((maskp ((nmaskbits - 1) / 32)).toNat % 2 ^ ((nmaskbits - 1) % 32 + 1)) +
        Limbs.value maskp ((nmaskbits - 1) / 32) := by
  change groupsValue (0 * 2 ^ 32 + hexValue 0 (topGroup maskp nmaskbits)) _ = _
  rw [groupsValue_words, topGroup, hexValue_hexDigits, Nat.zero_mul, Nat.zero_add, Nat.mul_comm]

theorem printed_fits (positive : 0 < nmaskbits) :
    Fits nmaskbits 0 (topGroup maskp nmaskbits :: wordGroups maskp ((nmaskbits - 1) / 32)) := by
  have top := Nat.mod_lt (maskp ((nmaskbits - 1) / 32)).toNat
    (Nat.two_pow_pos ((nmaskbits - 1) % 32 + 1))
  constructor
  · rw [forall_mem_cons, topGroup, hexValue_hexDigits]
    exact ⟨Nat.lt_of_le_of_lt (Nat.mod_le ..) (maskp _).isLt, wordGroups_fit _⟩
  · have low := Limbs.value_lt maskp ((nmaskbits - 1) / 32)
    have bits : 2 ^ nmaskbits = 2 ^ (32 * ((nmaskbits - 1) / 32)) * 2 ^
        ((nmaskbits - 1) % 32 + 1) := by
      rw [← Nat.pow_add]
      congr 1
      omega
    rw [printed_value, bits]
    refine Nat.lt_of_lt_of_le (Nat.add_lt_add_left low _) ?_
    exact Nat.mul_le_mul_left _ top

theorem printed_bits {bit : Nat} (inside : bit < nmaskbits) :
    (groupsValue 0 (topGroup maskp nmaskbits :: wordGroups maskp ((nmaskbits - 1) / 32))).testBit
    bit =
      testBit maskp bit := by
  rw [printed_value, Nat.testBit_two_pow_mul_add _ (Limbs.value_lt _ _)]
  split
  next low => exact Limbs.testBit_value low
  next high =>
    have index : bit / 32 = (nmaskbits - 1) / 32 := by omega
    have offset : bit % 32 = bit - 32 * ((nmaskbits - 1) / 32) := by omega
    rw [Nat.testBit_mod_two_pow, decide_eq_true (by omega), Bool.true_and]
    unfold testBit bitsPerLong
    rw [index, offset]
    rfl

end Text

/-- What is printed is parsed to the same bits, and any accepted text is the number of its
groups; an overflow is a group, or a number, that does not fit. -/
theorem bitmap_text_roundTrip (nmaskbits : Nat) (positive : 0 < nmaskbits)
    (small : nmaskbits + 31 < 2 ^ 31) (old : Mask) :
    (∀ (maskp : Mask) (buflen : Nat), printedLength nmaskbits < buflen →
      ∀ tail, tail = [] ∨ (∃ more, tail = 0 :: more) →
        ∃ parsed, bitmapParse ((bitmapScnprintf buflen maskp nmaskbits ++ tail).map some) old
            nmaskbits = some (.ok parsed) ∧
          ∀ bit < nmaskbits, testBit parsed bit = testBit maskp bit) ∧
    (nmaskbits + 32 < 2 ^ 31 → ∀ text : List Byte,
      (∃ result, bitmapParse (text.map some) old nmaskbits = some result) ∧
      (∀ parsed, bitmapParse (text.map some) old nmaskbits = some (.ok parsed) →
        ∃ groups, Reads text groups ∧ maskValue parsed nmaskbits = groupsValue 0 groups ∧
          Fits nmaskbits 0 groups) ∧
      (∀ groups, Reads text groups →
        (bitmapParse (text.map some) old nmaskbits = some (.error .eoverflow) ↔
          ¬ Fits nmaskbits 0 groups)) ∧
      (bitmapParse (text.map some) old nmaskbits = some (.error .eoverflow) →
        ∃ front back groups, text = front ++ back ∧ Reads front groups ∧
          ¬ Fits nmaskbits 0 groups)) := by
  refine ⟨fun maskp buflen room tail ends => ?_, fun smaller text => ?_⟩
  · have end_ : EndOfText tail := by
      cases ends with
      | inl none => exact none ▸ ends_nil
      | inr nul =>
        obtain ⟨more, rfl⟩ := nul
        exact .nul [] more (forall_mem_nil _)
    have isGroup : IsGroup (topGroup maskp nmaskbits) := isGroup_hexDigits _ (by omega)
    have reads : Reads (bitmapScnprintf buflen maskp nmaskbits ++ tail)
        (topGroup maskp nmaskbits :: wordGroups maskp ((nmaskbits - 1) / 32)) := by
      rw [bitmapScnprintf_eq small positive room, append_assoc]
      exact ⟨[], _, forall_mem_nil _, rfl, groups_words _ isGroup end_⟩
    obtain ⟨parsed, ok, value⟩ := (reads.parse old small positive).1 (printed_fits positive)
    refine ⟨parsed, ok, fun bit inside => ?_⟩
    rw [← testBit_maskValue small inside, value, printed_bits inside]
  · obtain ⟨result, parsed, ok, overflow⟩ := bitmapParse_outcome text old smaller positive
    refine ⟨⟨result, parsed⟩, fun final accepted => ?_, fun groups reads => ?_, fun failed => ?_⟩
    · obtain ⟨groups, reads, fits, value⟩ :=
        ok final (Option.some.inj (parsed.symm.trans accepted))
      exact ⟨groups, reads, value, fits⟩
    · refine ⟨fun failed fits => ?_, (reads.parse old small positive).2 smaller⟩
      obtain ⟨final, accepted, _⟩ := (reads.parse old small positive).1 fits
      rw [failed] at accepted
      cases accepted
    · exact overflow (Option.some.inj (parsed.symm.trans failed))

/-- Forty bits, of which the upper word shows eight. -/
theorem bitmap_text_roundTrip_forty :
    0 < 40 ∧ 40 + 31 < 2 ^ 31 ∧
      bitmapScnprintf 12 (fun k => if k = 0 then 0xdeadbeef else 0xf05) 40 =
        ['0', '5', ',', 'd', 'e', 'a', 'd', 'b', 'e', 'e', 'f'].map Char.toNat ∧
      ∃ parsed, bitmapParse
          ((bitmapScnprintf 12 (fun k => if k = 0 then 0xdeadbeef else 0xf05) 40 ++ []).map some)
          (fun _ => 0) 40 = some (.ok parsed) ∧
        ∀ bit < 40, testBit parsed bit =
          testBit (fun k => if k = 0 then 0xdeadbeef else 0xf05) bit :=
  ⟨by decide, by decide, by decide,
    (bitmap_text_roundTrip 40 (by decide) (by decide) fun _ => 0).1 _ 12 (by decide) [] (.inl rfl)⟩

/-- At `INT_MAX - 30` bits `BITS_TO_LONGS` is negative, and no text is parsed. -/
theorem bitmapParse_negative (ubuf : List (Option Byte)) (mask : Mask) :
    bitmapParse ubuf mask 2147483617 = none := rfl

/-- Nor is the one that was printed for the empty bitmap of that size. -/
theorem bitmapParse_hugeMask : printedLength 2147483617 < 604000000 ∧
    bitmapParse ((bitmapScnprintf 604000000 (fun _ => 0) 2147483617).map some) (fun _ => 0)
      2147483617 = none :=
  ⟨by decide, bitmapParse_negative _ _⟩

end MagxKernel.Bitmap
