import MagxKernel.NandEcc.Linear

namespace MagxKernel.NandEcc

open Function

/-- A bit of the block, or one of the 22 bits of the code that are used. -/
inductive ErrorBit where
  | data (j : Fin 256) (bit : Fin 8)
  | code (k : Fin 22)
deriving DecidableEq

/-- The six column parities stand in the upper bits of the third byte. -/
def codeSyndrome (k : Fin 22) : Ecc :=
  if k.val < 8 then ⟨BitVec.twoPow 8 k, 0, 0⟩
  else if k.val < 16 then ⟨0, BitVec.twoPow 8 (k - 8), 0⟩
  else ⟨0, 0, BitVec.twoPow 8 (k - 16 + 2)⟩

def ErrorBit.syndrome : ErrorBit → Ecc
  | .data j bit => dataSyndrome j bit
  | .code k => codeSyndrome k

/-- A block and its code, as they are on the chip. -/
structure Page where
  dat : Block
  ecc : Ecc

def Page.flip (page : Page) : ErrorBit → Page
  | .data j bit => { page with dat := flipBit page.dat j bit }
  | .code k => { page with ecc := page.ecc.xor (codeSyndrome k) }

/-- The page as it was written. -/
def written (dat : Block) : Page := ⟨dat, nandCalculateEcc dat⟩

/-- The page read, with the code computed anew. -/
def Page.correct (page : Page) : Corrected :=
  nandCorrectData page.dat page.ecc (nandCalculateEcc page.dat)

/-- The difference of the two codes. -/
def Page.syndrome (page : Page) : Ecc := (nandCalculateEcc page.dat).xor page.ecc

section Difference

theorem Ecc.xor_comm (x y : Ecc) : x.xor y = y.xor x := by
  simp [Ecc.xor, BitVec.xor_comm]

theorem Ecc.xor_assoc (x y z : Ecc) : (x.xor y).xor z = x.xor (y.xor z) := by
  simp [Ecc.xor, BitVec.xor_assoc]

theorem Ecc.xor_self (x : Ecc) : x.xor x = ⟨0, 0, 0⟩ := by
  simp only [Ecc.xor, BitVec.xor_self]
  rfl

theorem Ecc.zero_xor (x : Ecc) : Ecc.xor ⟨0, 0, 0⟩ x = x := by
  show Ecc.mk (0#8 ^^^ x.first) (0#8 ^^^ x.second) (0#8 ^^^ x.third) = x
  rw [BitVec.zero_xor, BitVec.zero_xor, BitVec.zero_xor]

theorem syndrome_written (dat : Block) : (written dat).syndrome = ⟨0, 0, 0⟩ :=
  Ecc.xor_self _

theorem syndrome_flip (page : Page) (error : ErrorBit) :
    (page.flip error).syndrome = page.syndrome.xor error.syndrome := by
  cases error with
  | data j bit =>
    show (nandCalculateEcc (flipBit page.dat j bit)).xor page.ecc = _
    rw [nandCalculateEcc_flip, Ecc.xor_assoc, Ecc.xor_comm (dataSyndrome j bit), ← Ecc.xor_assoc]
    rfl
  | code k =>
    show (nandCalculateEcc page.dat).xor (page.ecc.xor (codeSyndrome k)) = _
    rw [← Ecc.xor_assoc]
    rfl

end Difference

/-- In every pair of bits exactly one is set. -/
def Ecc.Paired (d : Ecc) : Prop :=
  (d.first ^^^ (d.first >>> 1)) &&& 0x55 = 0x55 ∧ (d.second ^^^ (d.second >>> 1)) &&& 0x55 = 0x55 ∧
    (d.third ^^^ (d.third >>> 1)) &&& 0x54 = 0x54

instance (d : Ecc) : Decidable d.Paired := inferInstanceAs (Decidable (_ ∧ _))

/-- How many bits are set. -/
def Ecc.weight (d : Ecc) : Nat := countLoop 8 d.third (countLoop 8 d.second (countLoop 8 d.first 0))

section Weights

theorem countLoop_add (fuel : Nat) (d : BitVec 8) (i : Nat) :
    countLoop fuel d i = i + countLoop fuel d 0 := by
  induction fuel generalizing d i with
  | zero => rfl
  | succ fuel ih =>
    simp only [countLoop]
    by_cases empty : d = 0
    · rw [if_pos empty, if_pos empty, Nat.add_zero]
    · rw [if_neg empty, if_neg empty, ih, ih (d >>> 1) (if d &&& 0x01 ≠ 0 then 0 + 1 else 0)]
      split <;> omega

theorem Ecc.weight_eq (d : Ecc) : d.weight =
    countLoop 8 d.first 0 + countLoop 8 d.second 0 + countLoop 8 d.third 0 := by
  rw [Ecc.weight, countLoop_add, countLoop_add 8 d.second]

/-- The parity pairs of half an address. -/
def halfPairs (x : Fin 16) : BitVec 8 :=
  [0x55, 0x56, 0x59, 0x5a, 0x65, 0x66, 0x69, 0x6a, 0x95, 0x96, 0x99, 0x9a, 0xa5, 0xa6, 0xa9,
    0xaa].getD x 0

/-- The parity pairs of the number of a bit. -/
def columnPairs (bit : Fin 8) : BitVec 8 :=
  [0x54, 0x58, 0x64, 0x68, 0x94, 0x98, 0xa4, 0xa8].getD bit 0

theorem dataSyndrome_pairs (j : Fin 256) (bit : Fin 8) :
    dataSyndrome j bit =
      ⟨halfPairs ⟨j / 16, by omega⟩, halfPairs ⟨j % 16, by omega⟩, columnPairs bit⟩ := by
  have halves : ∀ j : Fin 256,
      nandTransResult (~~~(BitVec.ofFin j)) (BitVec.ofFin j) =
        (halfPairs ⟨j / 16, by omega⟩, halfPairs ⟨j % 16, by omega⟩) := by
    decide +kernel
  have columns : ∀ bit : Fin 8,
      (nandEccPrecalcTable.getD (BitVec.twoPow 8 bit).toNat 0 &&& 0x3f) <<< 2 =
        columnPairs bit := by
    decide +kernel
  unfold dataSyndrome flipParity
  rw [halves j]
  simp only [columns bit]

theorem Ecc.eq_zero_of_or {d : Ecc} (none_set : d.first ||| d.second ||| d.third = 0) :
    d = ⟨0, 0, 0⟩ := by
  have both := BitVec.or_eq_zero_iff.mp none_set
  have upper := BitVec.or_eq_zero_iff.mp both.1
  calc d = ⟨d.first, d.second, d.third⟩ := rfl
    _ = ⟨0, 0, 0⟩ := by rw [upper.1, upper.2, both.2]; rfl

theorem Ecc.or_ne_zero {d : Ecc} (some_set : d.weight ≠ 0) :
    d.first ||| d.second ||| d.third ≠ 0 := by
  intro none_set
  rw [Ecc.eq_zero_of_or none_set] at some_set
  exact some_set (by decide)

end Weights

section Verdict

variable {page : Page}

theorem correct_uncorrectable (unpaired : ¬ page.syndrome.Paired)
    (some_set : page.syndrome.weight ≠ 0)
    (not_one : page.syndrome.weight ≠ 1) : page.correct = ⟨-1, page.dat, page.ecc⟩ := by
  exact (if_neg (Ecc.or_ne_zero some_set)).trans ((if_neg unpaired).trans (if_neg not_one))

theorem correct_code (unpaired : ¬ page.syndrome.Paired) (one : page.syndrome.weight = 1) :
    page.correct = ⟨2, page.dat, nandCalculateEcc page.dat⟩ := by
  exact (if_neg (Ecc.or_ne_zero (d := page.syndrome) (by omega))).trans
    ((if_neg unpaired).trans (if_pos one))

/-- The byte and the bit that the pairs name. -/
def Ecc.located (d : Ecc) : BitVec 8 × BitVec 8 :=
  let upper := gatherLoop d.first 4 0x80 0x80 0
  ((gatherLoop d.second 4 0x80 upper.1 upper.2).2, (gatherLoop d.third 3 0x80 0x04 0).2)

theorem correct_data (paired : page.syndrome.Paired) (some_set : page.syndrome.weight ≠ 0) :
    page.correct = ⟨1, update page.dat page.syndrome.located.1.toFin
      (page.dat page.syndrome.located.1.toFin ^^^ ((0x01 : BitVec 8) <<< page.syndrome.located.2)),
      page.ecc⟩ := by
  exact (if_neg (Ecc.or_ne_zero some_set)).trans (if_pos paired)

end Verdict

section Patterns

theorem halfPairs_paired (x : Fin 16) :
    (halfPairs x ^^^ (halfPairs x >>> 1)) &&& 0x55 = 0x55 ∧ countLoop 8 (halfPairs x) 0 = 4 := by
  revert x
  decide

theorem columnPairs_paired (bit : Fin 8) :
    (columnPairs bit ^^^ (columnPairs bit >>> 1)) &&& 0x54 = 0x54 := by
  revert bit
  decide

theorem dataSyndrome_located (j : Fin 256) (bit : Fin 8) :
    (dataSyndrome j bit).located = (BitVec.ofFin j, BitVec.ofNat 8 bit) := by
  have bytes : ∀ j : Fin 256,
      (gatherLoop (halfPairs ⟨j % 16, by omega⟩) 4 0x80
        (gatherLoop (halfPairs ⟨j / 16, by omega⟩) 4 0x80 0x80 0).1
        (gatherLoop (halfPairs ⟨j / 16, by omega⟩) 4 0x80 0x80 0).2).2 = BitVec.ofFin j := by
    decide +kernel
  have bits : ∀ bit : Fin 8, (gatherLoop (columnPairs bit) 3 0x80 0x04 0).2 =
      BitVec.ofNat 8 bit := by
    decide
  rw [dataSyndrome_pairs]
  unfold Ecc.located
  simp only [bytes j, bits bit]

/-- Two changed bits of the block: every pair is changed twice or not at all. -/
theorem data_data (j l : Fin 256) (bit other : Fin 8) (different : (j, bit) ≠ (l, other)) :
    ¬ ((dataSyndrome j bit).xor (dataSyndrome l other)).Paired ∧
      ((dataSyndrome j bit).xor (dataSyndrome l other)).weight ≠ 0 ∧
      ((dataSyndrome j bit).xor (dataSyndrome l other)).weight ≠ 1 := by
  have halves : ∀ x y : Fin 16,
      ((halfPairs x ^^^ halfPairs y) ^^^ ((halfPairs x ^^^ halfPairs y) >>> 1)) &&& 0x55 ≠ 0x55 ∧
      countLoop 8 (halfPairs x ^^^ halfPairs y) 0 % 2 = 0 ∧
      (countLoop 8 (halfPairs x ^^^ halfPairs y) 0 = 0 → x = y) := by
    decide +kernel
  have columns : ∀ x y : Fin 8, countLoop 8 (columnPairs x ^^^ columnPairs y) 0 % 2 = 0 ∧
      (countLoop 8 (columnPairs x ^^^ columnPairs y) 0 = 0 → x = y) := by
    decide +kernel
  have upper := halves ⟨j / 16, by omega⟩ ⟨l / 16, by omega⟩
  have lower := halves ⟨j % 16, by omega⟩ ⟨l % 16, by omega⟩
  have column := columns bit other
  rw [dataSyndrome_pairs, dataSyndrome_pairs, Ecc.weight_eq]
  simp only [Ecc.xor]
  refine ⟨fun paired => upper.1 paired.1, ?_, by omega⟩
  intro zero
  apply different
  have high := congrArg Fin.val (upper.2.2 (by omega))
  have low := congrArg Fin.val (lower.2.2 (by omega))
  simp only at high low
  exact Prod.ext (Fin.ext (by show j.val = l.val; omega)) (column.2 (by omega))

/-- A changed bit of the block and one of the code: one pair is spoilt. -/
theorem data_code (j : Fin 256) (bit : Fin 8) (k : Fin 22) :
    ¬ ((dataSyndrome j bit).xor (codeSyndrome k)).Paired ∧
      ((dataSyndrome j bit).xor (codeSyndrome k)).weight ≠ 0 ∧
      ((dataSyndrome j bit).xor (codeSyndrome k)).weight ≠ 1 := by
  have halves : ∀ (x : Fin 16) (m : Fin 8),
      ((halfPairs x ^^^ BitVec.twoPow 8 m) ^^^ ((halfPairs x ^^^ BitVec.twoPow 8 m) >>> 1)) &&&
        0x55 ≠ 0x55 := by
    decide +kernel
  have columns : ∀ (x : Fin 8) (m : Fin 6),
      ((columnPairs x ^^^ BitVec.twoPow 8 (m + 2)) ^^^
        ((columnPairs x ^^^ BitVec.twoPow 8 (m + 2)) >>> 1)) &&& 0x54 ≠ 0x54 := by
    decide +kernel
  have upper := halfPairs_paired ⟨j / 16, by omega⟩
  have lower := halfPairs_paired ⟨j % 16, by omega⟩
  have clean : ∀ x : BitVec 8, x ^^^ 0 = x := fun _ => BitVec.xor_zero
  rw [dataSyndrome_pairs, Ecc.weight_eq]
  unfold codeSyndrome
  split
  · rename_i first
    refine ⟨fun paired => halves _ ⟨k, first⟩ paired.1, ?_⟩
    simp only [Ecc.xor, clean]
    omega
  · split
    · refine ⟨fun paired => halves _ ⟨k - 8, by omega⟩ paired.2.1, ?_⟩
      simp only [Ecc.xor, clean]
      omega
    · refine ⟨fun paired => columns bit ⟨k - 16, by omega⟩ paired.2.2, ?_⟩
      simp only [Ecc.xor, clean]
      omega

theorem code_alone (k : Fin 22) : ¬ (codeSyndrome k).Paired ∧ (codeSyndrome k).weight = 1 := by
  revert k
  decide

theorem code_code (k l : Fin 22) (different : k ≠ l) :
    ¬ ((codeSyndrome k).xor (codeSyndrome l)).Paired ∧
      ((codeSyndrome k).xor (codeSyndrome l)).weight ≠ 0 ∧
      ((codeSyndrome k).xor (codeSyndrome l)).weight ≠ 1 := by
  revert k l
  decide +kernel

theorem data_alone (j : Fin 256) (bit : Fin 8) :
    (dataSyndrome j bit).Paired ∧ (dataSyndrome j bit).weight ≠ 0 := by
  have upper := halfPairs_paired ⟨j / 16, by omega⟩
  have lower := halfPairs_paired ⟨j % 16, by omega⟩
  rw [dataSyndrome_pairs, Ecc.weight_eq]
  refine ⟨⟨upper.1, lower.1, columnPairs_paired bit⟩, ?_⟩
  simp only
  omega

/-- Two errors are never taken for one. -/
theorem two_errors {error other : ErrorBit} (different : error ≠ other) :
    ¬ (error.syndrome.xor other.syndrome).Paired ∧
      (error.syndrome.xor other.syndrome).weight ≠ 0 ∧
      (error.syndrome.xor other.syndrome).weight ≠ 1 := by
  cases error with
  | data j bit =>
    cases other with
    | data l second =>
      apply data_data
      intro same
      injection same with bytes bits
      exact different (by rw [bytes, bits])
    | code k => exact data_code j bit k
  | code k =>
    cases other with
    | data j bit =>
      rw [Ecc.xor_comm]
      exact data_code j bit k
    | code l => exact code_code k l fun same => different (by rw [same])

end Patterns

theorem flipBit_back (dat : Block) (j : Fin 256) (bit : Fin 8) :
    update (flipBit dat j bit) j (flipBit dat j bit j ^^^ BitVec.twoPow 8 bit) = dat := by
  unfold flipBit
  rw [update_self, BitVec.xor_assoc, BitVec.xor_self, BitVec.xor_zero, update_idem, update_eq_self]

/-- One error in the data is corrected, one in the code is found, and two errors are
reported. -/
theorem nandCorrectData_corrects (dat : Block) :
    (∀ j bit, ((written dat).flip (.data j bit)).correct.ret = 1 ∧
      ((written dat).flip (.data j bit)).correct.dat = dat) ∧
    (∀ k, ((written dat).flip (.code k)).correct.ret = 2 ∧
      ((written dat).flip (.code k)).correct.dat = dat) ∧
    ∀ error other, error ≠ other →
      (((written dat).flip error).flip other).correct.ret = -1 ∧
        (((written dat).flip error).flip other).correct.dat =
          (((written dat).flip error).flip other).dat := by
  have single : ∀ error, ((written dat).flip error).syndrome = error.syndrome := by
    intro error
    rw [syndrome_flip, syndrome_written, Ecc.zero_xor]
  refine ⟨?_, ?_, ?_⟩
  · intro j bit
    have alone := data_alone j bit
    have found := dataSyndrome_located j bit
    have shifted : ∀ bit : Fin 8, (0x01 : BitVec 8) <<< BitVec.ofNat 8 bit =
        BitVec.twoPow 8 bit := by
      decide
    have same : ((written dat).flip (.data j bit)).syndrome = dataSyndrome j bit := single _
    rw [← same] at alone found
    rw [correct_data alone.1 alone.2, found, shifted bit]
    exact ⟨rfl, flipBit_back dat j bit⟩
  · intro k
    have alone := code_alone k
    have same : ((written dat).flip (.code k)).syndrome = codeSyndrome k := single _
    rw [← same] at alone
    rw [correct_code alone.1 alone.2]
    exact ⟨rfl, rfl⟩
  · intro error other different
    have both := two_errors different
    rw [← single error, ← syndrome_flip] at both
    rw [correct_uncorrectable both.1 both.2.1 both.2.2]
    exact ⟨rfl, rfl⟩

theorem nandCorrectData_corrects_blank :
    ErrorBit.data 0 0 ≠ .code 21 ∧
      (((written fun _ => 0).flip (.data 0 0)).flip (.code 21)).correct.ret = -1 :=
  ⟨by decide, ((nandCorrectData_corrects fun _ => 0).2.2 (.data 0 0) (.code 21) (by decide)).1⟩

end MagxKernel.NandEcc
