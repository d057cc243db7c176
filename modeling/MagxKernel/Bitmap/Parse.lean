import MagxKernel.Bitmap.Shift

namespace MagxKernel.Bitmap

open List
open MachineInt (s32 s32_of_range)

/-- The code of a character. -/
abbrev Byte := Nat

def comma : Nat := ','.toNat

/-- The entries of `_ctype` that the parser asks for. -/
def isspace (c : Nat) : Bool := (9 ≤ c && c ≤ 13) || c == 32 || c == 160

def isdigit (c : Nat) : Bool := 48 ≤ c && c ≤ 57

def isxdigit (c : Nat) : Bool := isdigit c || (65 ≤ c && c ≤ 70) || (97 ≤ c && c ≤ 102)

def toupper (c : Nat) : Nat := if 97 ≤ c ∧ c ≤ 122 then c - 32 else c

def unhex (c : Nat) : Nat := if isdigit c then c - 48 else toupper c - 65 + 10

/-- The number of the last bit set. -/
def fls (x : Word) : Nat := if x = 0 then 0 else x.toNat.log2 + 1

inductive Errno where
  | efault
  | einval
  | eoverflow
deriving DecidableEq

/-- What the inner loop of `bitmap_parse` leaves: what is left of the buffer, the last
character, the chunk and the digits counted. -/
structure Chunk where
  ubuf : List (Option Byte)
  c : Byte
  chunk : Word
  ndigits : Nat
  totaldigits : Nat

/-- The inner loop of `bitmap_parse`. A byte that `get_user` cannot read is `none`. -/
def nextChunk : List (Option Byte) → Byte → Word → Nat → Nat → Except Errno Chunk
  | [], c, chunk, ndigits, totaldigits => .ok ⟨[], c, chunk, ndigits, totaldigits⟩
  | none :: _, _, _, _, _ => .error .efault
  | some c :: ubuf, oldC, chunk, ndigits, totaldigits =>
      if isspace c then nextChunk ubuf c chunk ndigits totaldigits
      -- embedded whitespace
      else if totaldigits ≠ 0 ∧ c ≠ 0 ∧ isspace oldC then .error .einval
      else if c = 0 ∨ c = comma then .ok ⟨ubuf, c, chunk, ndigits, totaldigits⟩
      else if isxdigit c = false then .error .einval
      -- make sure there are at least 4 free bits in 'chunk'
      else if chunk &&& ~~~((1#32 <<< 28) - 1) ≠ 0 then .error .eoverflow
      else nextChunk ubuf c (chunk <<< 4 ||| BitVec.ofNat 32 (unhex c)) (ndigits + 1)
        (totaldigits + 1)

/-- The bitmap so far. -/
structure Progress where
  nchunks : Nat
  nbits : Int
  mask : Mask

/-- What `bitmap_parse` does with a chunk. -/
def addChunk (nmaskbits : Nat) (progress : Progress) (chunk : Word) : Except Errno Progress :=
  if progress.nchunks = 0 ∧ chunk = 0 then .ok progress
  else
    let mask := bitmapShiftLeft id progress.mask 32 nmaskbits
    let mask := Function.update mask 0 (mask 0 ||| chunk)
    let nchunks := progress.nchunks + 1
    let nbits := s32 (progress.nbits + if nchunks = 1 then fls chunk else 32)
    if (nmaskbits : Int) < nbits then .error .eoverflow else .ok ⟨nchunks, nbits, mask⟩

/-- The outer loop of `bitmap_parse`. -/
def parseChunks (nmaskbits : Nat) : Nat → List (Option Byte) → Byte → Nat → Progress →
    Option (Except Errno Mask)
  | 0, _, _, _, _ => none
  | fuel + 1, ubuf, c, totaldigits, progress =>
      match nextChunk ubuf c 0 0 totaldigits with
      | .error errno => some (.error errno)
      | .ok next =>
          if next.ndigits = 0 then some (.error .einval)
          else
            match addChunk nmaskbits progress next.chunk with
            | .error errno => some (.error errno)
            | .ok progress =>
                if next.ubuf ≠ [] ∧ next.c = comma then
                  parseChunks nmaskbits fuel next.ubuf next.c next.totaldigits progress
                else some (.ok progress.mask)

def bitmapParse (ubuf : List (Option Byte)) (mask : Mask) (nmaskbits : Nat) :
    Option (Except Errno Mask) :=
  (bitmapZero mask nmaskbits).bind fun zeroed =>
    parseChunks nmaskbits (ubuf.length + 1) ubuf 0 0 ⟨0, 0, zeroed⟩

section Numbers

/-- Exactly so many bits hold the value. -/
structure Bits (value bits : Nat) : Prop where
  below : value < 2 ^ bits
  above : ∀ fewer, bits = fewer + 1 → 2 ^ fewer ≤ value

theorem Bits.lt_iff {value bits : Nat} (exact_ : Bits value bits) (n : Nat) :
    value < 2 ^ n ↔ bits ≤ n := by
  constructor
  · intro fits
    by_contra more
    obtain ⟨fewer, rfl⟩ : ∃ fewer, bits = fewer + 1 := ⟨bits - 1, by omega⟩
    have large : 2 ^ n ≤ 2 ^ fewer := Nat.pow_le_pow_right (by decide) (by omega)
    exact absurd (Nat.lt_of_lt_of_le fits large) (Nat.not_lt.mpr (exact_.above fewer rfl))
  · intro enough
    exact Nat.lt_of_lt_of_le exact_.below (Nat.pow_le_pow_right (by decide) enough)

theorem bits_fls (x : Word) : Bits x.toNat (fls x) := by
  unfold fls
  by_cases zero : x = 0
  · rw [if_pos zero, zero]
    exact ⟨by simp, fun fewer wrong => absurd wrong (by omega)⟩
  · have some_ : x.toNat ≠ 0 := fun none => zero (BitVec.eq_of_toNat_eq none)
    rw [if_neg zero]
    refine ⟨Nat.lt_log2_self, fun fewer same => ?_⟩
    obtain rfl : fewer = x.toNat.log2 := by omega
    exact Nat.log2_self_le some_

theorem Bits.zero {bits : Nat} (exact_ : Bits 0 bits) : bits = 0 :=
  Nat.le_zero.mp ((exact_.lt_iff 0).mp Nat.one_pos)

theorem Bits.chunk {value bits : Nat} (exact_ : Bits value bits) (some_ : value ≠ 0) (x : Word) :
    Bits (value * 2 ^ 32 + x.toNat) (bits + 32) := by
  have word := x.isLt
  constructor
  · have : value + 1 ≤ 2 ^ bits := exact_.below
    calc value * 2 ^ 32 + x.toNat < value * 2 ^ 32 + 2 ^ 32 := Nat.add_lt_add_left word _
      _ = (value + 1) * 2 ^ 32 := by rw [Nat.add_mul, Nat.one_mul]
      _ ≤ 2 ^ bits * 2 ^ 32 := Nat.mul_le_mul_right _ this
      _ = 2 ^ (bits + 32) := by rw [Nat.pow_add]
  · intro fewer same
    cases bits with
    | zero =>
      have := exact_.below
      omega
    | succ lower =>
      have := exact_.above lower rfl
      obtain rfl : fewer = lower + 32 := by omega
      calc 2 ^ (lower + 32) = 2 ^ lower * 2 ^ 32 := by rw [Nat.pow_add]
        _ ≤ value * 2 ^ 32 := Nat.mul_le_mul_right _ this
        _ ≤ value * 2 ^ 32 + x.toNat := Nat.le_add_right ..

/-- The bitmap holds the value of the chunks so far. -/
structure Holds (nmaskbits value : Nat) (progress : Progress) : Prop where
  mask : maskValue progress.mask nmaskbits = value
  bits : ∃ bits : Nat, progress.nbits = bits ∧ Bits value bits
  fresh : progress.nchunks = 0 ↔ value = 0
  fits : value < 2 ^ nmaskbits

variable {nmaskbits value : Nat} {progress : Progress}

section

variable (holds : Holds nmaskbits value progress)

include holds

/-- The count of bits after a chunk that is not a leading zero. -/
theorem Holds.grown (chunk : Word) :
    ∃ more : Nat, Bits (value * 2 ^ 32 + chunk.toNat) more ∧ more ≤ nmaskbits + 32 ∧
      progress.nbits + ((if progress.nchunks + 1 = 1 then fls chunk else 32 : Nat) : Int) =
        more := by
  obtain ⟨bits, isBits, exact_⟩ := holds.bits
  by_cases first : progress.nchunks = 0
  · have none : value = 0 := holds.fresh.mp first
    subst none
    refine ⟨fls chunk, by rw [Nat.zero_mul, Nat.zero_add]; exact bits_fls chunk, ?_, ?_⟩
    · have := ((bits_fls chunk).lt_iff 32).mp chunk.isLt
      omega
    · rw [if_pos (by omega), isBits, exact_.zero]
      simp
  · have some_ : value ≠ 0 := fun none => first (holds.fresh.mpr none)
    refine ⟨bits + 32, exact_.chunk some_ chunk, ?_, ?_⟩
    · have := (exact_.lt_iff nmaskbits).mp holds.fits
      omega
    · rw [if_neg (by omega), isBits]
      rfl

theorem Holds.addChunk (small : nmaskbits + 31 < 2 ^ 31) (positive : 0 < nmaskbits) (chunk : Word)
    (fits : value * 2 ^ 32 + chunk.toNat < 2 ^ nmaskbits) :
    ∃ next, Bitmap.addChunk nmaskbits progress chunk = .ok next ∧
      Holds nmaskbits (value * 2 ^ 32 + chunk.toNat) next := by
  unfold Bitmap.addChunk
  by_cases zero : progress.nchunks = 0 ∧ chunk = 0
  · have same : value * 2 ^ 32 + chunk.toNat = value := by
      rw [holds.fresh.mp zero.1, zero.2]
      simp
    rw [if_pos zero, same]
    exact ⟨progress, rfl, holds⟩
  · obtain ⟨more, exactMore, _, sum⟩ := holds.grown chunk
    have enough := (exactMore.lt_iff nmaskbits).mp fits
    rw [if_neg zero]
    dsimp only
    rw [sum, s32_of_range _ (by omega) (by omega), if_neg (by omega)]
    refine ⟨_, rfl, ?_, ⟨more, rfl, exactMore⟩, ?_, fits⟩
    · have below : maskValue progress.mask nmaskbits * 2 ^ 32 < 2 ^ nmaskbits := by
        rw [holds.mask]
        exact Nat.lt_of_le_of_lt (Nat.le_add_right ..) fits
      have shifted := maskValue_shift small below
      rw [maskValue_update small positive shifted.2, shifted.1, shifted.2, holds.mask]
      simp
    · refine ⟨fun wrong => absurd wrong (Nat.succ_ne_zero _), fun none => ?_⟩
      have value0 : value = 0 := by omega
      have chunk0 : chunk = 0 := by
        apply BitVec.eq_of_toNat_eq
        change chunk.toNat = 0
        omega
      exact absurd ⟨holds.fresh.mpr value0, chunk0⟩ zero

theorem Holds.addChunk_over (small : nmaskbits + 32 < 2 ^ 31) (chunk : Word)
    (large : ¬ value * 2 ^ 32 + chunk.toNat < 2 ^ nmaskbits) :
    Bitmap.addChunk nmaskbits progress chunk = .error .eoverflow := by
  have some_ : ¬ (progress.nchunks = 0 ∧ chunk = 0) := by
    intro zero
    rw [holds.fresh.mp zero.1, zero.2] at large
    exact large (Nat.two_pow_pos nmaskbits)
  obtain ⟨more, exactMore, bound, sum⟩ := holds.grown chunk
  have notEnough : ¬ more ≤ nmaskbits := fun enough => large ((exactMore.lt_iff _).mpr enough)
  unfold Bitmap.addChunk
  rw [if_neg some_]
  dsimp only
  rw [sum, s32_of_range _ (by omega) (by omega), if_pos (by omega)]

end

end Numbers

section Text

/-- The number that hexadecimal digits add to. -/
def hexValue (value : Nat) (digits : List Byte) : Nat :=
  digits.foldl (fun value c => value * 16 + unhex c) value

/-- Spaces up to the end of the text. -/
def spacesEnd (text : List Byte) : Except Errno (Option (List Byte)) :=
  match text.dropWhile isspace with
  | [] => .ok none
  | c :: _ => if c = 0 then .ok none else .error .einval

/-- The characters after the digits of a chunk: the rest if another chunk follows. -/
def chunkEnd : List Byte → Except Errno (Option (List Byte))
  | [] => .ok none
  | c :: rest =>
      if c = comma then .ok (if rest = [] then none else some rest)
      else if c = 0 then .ok none
      else if isspace c then spacesEnd rest
      else .error .einval

/-- What the inner loop finds at the start of a text: digits that do not fit, a misplaced
character, or a chunk and the rest. -/
def scan (value : Nat) (text : List Byte) : Except Errno (List Byte × Option (List Byte)) :=
  let digits := text.takeWhile isxdigit
  if 2 ^ 32 ≤ hexValue value digits then .error .eoverflow
  else (chunkEnd (text.dropWhile isxdigit)).map fun rest => (digits, rest)

/-- The digits have been added to the chunk and counted. -/
structure Counted (value ndigits totaldigits : Nat) (digits : List Byte) (chunk : Chunk) :
    Prop where
  value : chunk.chunk.toNat = hexValue value digits
  ndigits : chunk.ndigits = ndigits + digits.length
  totaldigits : chunk.totaldigits = totaldigits + digits.length

/-- The result of the inner loop agrees with what is found. -/
inductive Agrees (value ndigits totaldigits : Nat) :
    Except Errno (List Byte × Option (List Byte)) → Except Errno Chunk → Prop
  | error (errno : Errno) : Agrees value ndigits totaldigits (.error errno) (.error errno)
  | last (digits : List Byte) (chunk : Chunk)
      (counted : Counted value ndigits totaldigits digits chunk)
      (stops : ¬ (chunk.ubuf ≠ [] ∧ chunk.c = comma)) :
      Agrees value ndigits totaldigits (.ok (digits, none)) (.ok chunk)
  | more (digits rest : List Byte) (chunk : Chunk)
      (counted : Counted value ndigits totaldigits digits chunk)
      (ubuf : chunk.ubuf = rest.map some) (some_ : rest ≠ []) (c : chunk.c = comma) :
      Agrees value ndigits totaldigits (.ok (digits, some rest)) (.ok chunk)

variable {c : Nat}

theorem unhex_lt (digit : isxdigit c = true) : unhex c < 16 := by
  unfold isxdigit isdigit at digit
  unfold unhex isdigit toupper
  simp only [Bool.or_eq_true, Bool.and_eq_true, decide_eq_true_eq] at digit ⊢
  split
  · omega
  · split
    · omega
    · omega

theorem isxdigit_ne (digit : isxdigit c = true) : isspace c = false ∧ c ≠ 0 ∧ c ≠ comma := by
  unfold isxdigit isdigit at digit
  have isComma : comma = 44 := rfl
  simp only [Bool.or_eq_true, Bool.and_eq_true, decide_eq_true_eq] at digit
  simp only [isspace, Bool.or_eq_false_iff, Bool.and_eq_false_iff, decide_eq_false_iff_not,
    beq_eq_false_iff_ne, ne_eq, isComma]
  omega

theorem le_hexValue (value : Nat) (digits : List Byte) : value ≤ hexValue value digits := by
  induction digits generalizing value with
  | nil => exact Nat.le_refl value
  | cons c digits ih => exact Nat.le_trans (by omega) (ih (value * 16 + unhex c))

theorem high_bits (i : Nat) (inside : i < 32) :
    (~~~((1#32 <<< 28) - 1)).getLsbD i = decide (28 ≤ i) := by
  decide +revert

theorem free_bits_iff (chunk : Word) :
    chunk &&& ~~~((1#32 <<< 28) - 1) ≠ 0 ↔ 2 ^ 28 ≤ chunk.toNat := by
  have shifted : chunk &&& ~~~((1#32 <<< 28) - 1) = chunk >>> 28 <<< 28 := by
    apply BitVec.eq_of_getLsbD_eq
    intro i inside
    rw [BitVec.getLsbD_and, high_bits i inside, BitVec.getLsbD_shiftLeft,
      BitVec.getLsbD_ushiftRight]
    by_cases high : 28 ≤ i
    · simp [high, inside, Nat.add_sub_cancel' high, Nat.not_lt.mpr high]
    · simp [high, Nat.not_le.mp high]
  rw [shifted, ne_eq, ← BitVec.toNat_inj, BitVec.toNat_shiftLeft, BitVec.toNat_ushiftRight,
    Nat.shiftLeft_eq, Nat.shiftRight_eq_div_pow]
  change ¬ _ = 0 ↔ _
  omega

theorem add_digit {chunk : Word} {d : Nat} (free : chunk.toNat < 2 ^ 28) (digit : d < 16) :
    (chunk <<< 4 ||| BitVec.ofNat 32 d).toNat = chunk.toNat * 16 + d := by
  rw [BitVec.toNat_or, BitVec.toNat_shiftLeft, BitVec.toNat_ofNat, Nat.shiftLeft_eq,
    Nat.mod_eq_of_lt (show chunk.toNat * 2 ^ 4 < 2 ^ 32 by omega),
    Nat.mod_eq_of_lt (show d < 2 ^ 32 by omega), ← Nat.shiftLeft_eq,
    ← Nat.shiftLeft_add_eq_or_of_lt (show d < 2 ^ 4 by omega), Nat.shiftLeft_eq]

theorem chunkEnd_space {c : Nat} (blank : isspace c = true) (rest : List Byte) :
    chunkEnd (c :: rest) = spacesEnd rest := by
  have notComma : c ≠ comma := fun same => by rw [same] at blank; exact absurd blank (by decide)
  have notZero : c ≠ 0 := fun same => by rw [same] at blank; exact absurd blank (by decide)
  rw [chunkEnd, if_neg notComma, if_neg notZero, if_pos blank]

/-- After a space, only more of them and the end of the text may follow. -/
theorem nextChunk_spaces (text : List Byte) {c : Byte} (chunk : Word) (ndigits : Nat)
    {totaldigits : Nat} (some_ : totaldigits ≠ 0) (space : isspace c = true) :
    Agrees chunk.toNat ndigits totaldigits ((spacesEnd text).map fun rest => ([], rest))
      (nextChunk (text.map some) c chunk ndigits totaldigits) := by
  induction text generalizing c with
  | nil => exact .last [] _ ⟨rfl, rfl, rfl⟩ fun both => both.1 rfl
  | cons d text ih =>
    rw [map_cons, nextChunk, spacesEnd]
    by_cases blank : isspace d = true
    · rw [if_pos blank, dropWhile_cons_of_pos blank]
      exact ih blank
    · rw [if_neg blank, dropWhile_cons_of_neg blank]
      by_cases zero : d = 0
      · subst zero
        rw [if_neg (fun both => both.2.1 rfl), if_pos (.inl rfl)]
        exact .last [] _ ⟨rfl, rfl, rfl⟩ fun both => absurd (show 0 = comma from both.2) (by decide)
      · rw [if_pos ⟨some_, zero, space⟩]
        dsimp only
        rw [if_neg zero]
        exact .error .einval

theorem scan_digit (digit : isxdigit c = true) (value : Nat) (text : List Byte) :
    scan value (c :: text) =
      (scan (value * 16 + unhex c) text).map fun found => (c :: found.1, found.2) := by
  unfold scan
  rw [takeWhile_cons_of_pos digit, dropWhile_cons_of_pos digit]
  change (if 2 ^ 32 ≤ hexValue (value * 16 + unhex c) (text.takeWhile isxdigit) then _ else _) = _
  dsimp only
  split
  · rfl
  · cases chunkEnd (text.dropWhile isxdigit) with
    | error errno | ok rest => rfl

theorem scan_other (other : ¬ isxdigit c = true) {value : Nat} (small : value < 2 ^ 32)
    (text : List Byte) :
    scan value (c :: text) = (chunkEnd (c :: text)).map fun rest => ([], rest) := by
  unfold scan
  rw [takeWhile_cons_of_neg other, dropWhile_cons_of_neg other]
  exact if_neg (Nat.not_le.mpr small)

theorem Agrees.digit {value ndigits totaldigits : Nat}
    {found : Except Errno (List Byte × Option (List Byte))} {result : Except Errno Chunk}
    (agrees : Agrees (value * 16 + unhex c) (ndigits + 1) (totaldigits + 1) found result) :
    Agrees value ndigits totaldigits (found.map fun found => (c :: found.1, found.2)) result := by
  have counted : ∀ {digits chunk},
      Counted (value * 16 + unhex c) (ndigits + 1) (totaldigits + 1) digits chunk →
        Counted value ndigits totaldigits (c :: digits) chunk := by
    intro digits chunk counted
    refine ⟨counted.value, ?_, ?_⟩
    · rw [counted.ndigits, length_cons]
      omega
    · rw [counted.totaldigits, length_cons]
      omega
  cases agrees with
  | error errno => exact .error errno
  | last digits chunk counts stops => exact .last (c :: digits) chunk (counted counts) stops
  | more digits rest chunk counts ubuf some_ isComma =>
    exact .more (c :: digits) rest chunk (counted counts) ubuf some_ isComma

theorem nextChunk_agrees (text : List Byte) {c : Byte} (chunk : Word) (ndigits totaldigits : Nat)
    (start : totaldigits ≠ 0 → isspace c = false)
    (lead : totaldigits = 0 → ∀ first rest, text = first :: rest → isspace first = false) :
    Agrees chunk.toNat ndigits totaldigits (scan chunk.toNat text)
      (nextChunk (text.map some) c chunk ndigits totaldigits) := by
  induction text generalizing c chunk ndigits totaldigits with
  | nil =>
    have found : scan chunk.toNat [] = .ok ([], none) := if_neg (Nat.not_le.mpr chunk.isLt)
    rw [found]
    exact .last [] _ ⟨rfl, rfl, rfl⟩ fun both => both.1 rfl
  | cons d text ih =>
    have noSpace : ¬ (totaldigits ≠ 0 ∧ d ≠ 0 ∧ isspace c = true) := by
      intro both
      exact Bool.noConfusion ((start both.1).symm.trans both.2.2)
    rw [map_cons, nextChunk]
    by_cases digit : isxdigit d = true
    · obtain ⟨notSpace, notZero, notComma⟩ := isxdigit_ne digit
      rw [scan_digit digit, if_neg (by rw [notSpace]; exact Bool.false_ne_true), if_neg noSpace,
        if_neg (fun either => either.elim notZero notComma),
        if_neg (by rw [digit]; exact Bool.noConfusion)]
      by_cases full : 2 ^ 28 ≤ chunk.toNat
      · rw [if_pos ((free_bits_iff chunk).mpr full)]
        have large : 2 ^ 32 ≤ hexValue (chunk.toNat * 16 + unhex d) (text.takeWhile isxdigit) :=
          Nat.le_trans (by omega) (le_hexValue _ _)
        have found : scan (chunk.toNat * 16 + unhex d) text = .error .eoverflow := if_pos large
        rw [found]
        exact .error .eoverflow
      · have sum := add_digit (Nat.not_le.mp full) (unhex_lt digit)
        rw [if_neg fun some_ => full ((free_bits_iff chunk).mp some_), ← sum]
        have agrees := ih (c := d) (chunk <<< 4 ||| BitVec.ofNat 32 (unhex d)) (ndigits + 1)
          (totaldigits + 1) (fun _ => notSpace) (fun zero => absurd zero (Nat.succ_ne_zero _))
        rw [sum] at agrees ⊢
        exact agrees.digit
    · rw [scan_other digit chunk.isLt]
      by_cases blank : isspace d = true
      · rw [chunkEnd_space blank, if_pos blank]
        refine nextChunk_spaces text chunk ndigits (fun zero => ?_) blank
        exact Bool.noConfusion ((lead zero d text rfl).symm.trans blank)
      · rw [if_neg blank, if_neg noSpace]
        by_cases isComma : d = comma
        · rw [if_pos (.inr isComma), chunkEnd, if_pos isComma]
          split
          · rename_i ends
            exact .last [] _ ⟨rfl, rfl, rfl⟩ fun both => both.1 (by rw [ends]; rfl)
          · rename_i ends
            exact .more [] text _ ⟨rfl, rfl, rfl⟩ rfl ends isComma
        · by_cases zero : d = 0
          · rw [if_pos (.inl zero), chunkEnd, if_neg isComma, if_pos zero]
            exact .last [] _ ⟨rfl, rfl, rfl⟩ fun both => isComma both.2
          · rw [if_neg fun either => either.elim zero isComma, if_pos (Bool.eq_false_iff.mpr digit),
              chunkEnd, if_neg isComma, if_neg zero, if_neg blank]
            exact .error .einval

end Text

end MagxKernel.Bitmap
