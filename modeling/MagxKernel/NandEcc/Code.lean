import Mathlib.Data.List.FinRange

namespace MagxKernel.NandEcc

/-- A block of 256 bytes. -/
abbrev Block := Fin 256 → BitVec 8

set_option maxRecDepth 2048 in
/-- Column parities of a byte, and in bit 6 the parity of all its bits. -/
def nandEccPrecalcTable : List (BitVec 8) :=
  [ 0x00, 0x55, 0x56, 0x03, 0x59, 0x0c, 0x0f, 0x5a, 0x5a, 0x0f, 0x0c, 0x59, 0x03, 0x56, 0x55, 0x00,
    0x65, 0x30, 0x33, 0x66, 0x3c, 0x69, 0x6a, 0x3f, 0x3f, 0x6a, 0x69, 0x3c, 0x66, 0x33, 0x30, 0x65,
    0x66, 0x33, 0x30, 0x65, 0x3f, 0x6a, 0x69, 0x3c, 0x3c, 0x69, 0x6a, 0x3f, 0x65, 0x30, 0x33, 0x66,
    0x03, 0x56, 0x55, 0x00, 0x5a, 0x0f, 0x0c, 0x59, 0x59, 0x0c, 0x0f, 0x5a, 0x00, 0x55, 0x56, 0x03,
    0x69, 0x3c, 0x3f, 0x6a, 0x30, 0x65, 0x66, 0x33, 0x33, 0x66, 0x65, 0x30, 0x6a, 0x3f, 0x3c, 0x69,
    0x0c, 0x59, 0x5a, 0x0f, 0x55, 0x00, 0x03, 0x56, 0x56, 0x03, 0x00, 0x55, 0x0f, 0x5a, 0x59, 0x0c,
    0x0f, 0x5a, 0x59, 0x0c, 0x56, 0x03, 0x00, 0x55, 0x55, 0x00, 0x03, 0x56, 0x0c, 0x59, 0x5a, 0x0f,
    0x6a, 0x3f, 0x3c, 0x69, 0x33, 0x66, 0x65, 0x30, 0x30, 0x65, 0x66, 0x33, 0x69, 0x3c, 0x3f, 0x6a,
    0x6a, 0x3f, 0x3c, 0x69, 0x33, 0x66, 0x65, 0x30, 0x30, 0x65, 0x66, 0x33, 0x69, 0x3c, 0x3f, 0x6a,
    0x0f, 0x5a, 0x59, 0x0c, 0x56, 0x03, 0x00, 0x55, 0x55, 0x00, 0x03, 0x56, 0x0c, 0x59, 0x5a, 0x0f,
    0x0c, 0x59, 0x5a, 0x0f, 0x55, 0x00, 0x03, 0x56, 0x56, 0x03, 0x00, 0x55, 0x0f, 0x5a, 0x59, 0x0c,
    0x69, 0x3c, 0x3f, 0x6a, 0x30, 0x65, 0x66, 0x33, 0x33, 0x66, 0x65, 0x30, 0x6a, 0x3f, 0x3c, 0x69,
    0x03, 0x56, 0x55, 0x00, 0x5a, 0x0f, 0x0c, 0x59, 0x59, 0x0c, 0x0f, 0x5a, 0x00, 0x55, 0x56, 0x03,
    0x66, 0x33, 0x30, 0x65, 0x3f, 0x6a, 0x69, 0x3c, 0x3c, 0x69, 0x6a, 0x3f, 0x65, 0x30, 0x33, 0x66,
    0x65, 0x30, 0x33, 0x66, 0x3c, 0x69, 0x6a, 0x3f, 0x3f, 0x6a, 0x69, 0x3c, 0x66, 0x33, 0x30, 0x65,
    0x00, 0x55, 0x56, 0x03, 0x59, 0x0c, 0x0f, 0x5a, 0x5a, 0x0f, 0x0c, 0x59, 0x03, 0x56, 0x55, 0x00 ]

/-- The three bytes of `ecc_code`. -/
structure Ecc where
  first : BitVec 8
  second : BitVec 8
  third : BitVec 8
deriving DecidableEq

/-- One of the two loops of `nand_trans_result`, with its masks `a` and `b`. -/
def transLoop (reg2 reg3 : BitVec 8) : Nat → BitVec 8 → BitVec 8 → BitVec 8 → BitVec 8 × BitVec 8
  | 0, a, _, tmp => (a, tmp)
  | count + 1, a, b, tmp =>
      let tmp := if reg3 &&& a ≠ 0 then tmp ||| b else tmp
      let b := b >>> 1
      let tmp := if reg2 &&& a ≠ 0 then tmp ||| b else tmp
      transLoop reg2 reg3 count (a >>> 1) (b >>> 1) tmp

def nandTransResult (reg2 reg3 : BitVec 8) : BitVec 8 × BitVec 8 :=
  let high := transLoop reg2 reg3 4 0x80 0x80 0
  let low := transLoop reg2 reg3 4 high.1 0x80 0
  (high.2, low.2)

structure Registers where
  reg1 : BitVec 8
  reg2 : BitVec 8
  reg3 : BitVec 8
deriving DecidableEq

/-- One turn of the loop of `nand_calculate_ecc`. -/
def parityStep (dat : Block) (regs : Registers) (j : Fin 256) : Registers :=
  let idx := nandEccPrecalcTable.getD (dat j).toNat 0
  let reg1 := regs.reg1 ^^^ (idx &&& 0x3f)
  if idx &&& 0x40 ≠ 0 then
    ⟨reg1, regs.reg2 ^^^ ~~~(BitVec.ofFin j), regs.reg3 ^^^ BitVec.ofFin j⟩
  else ⟨reg1, regs.reg2, regs.reg3⟩

def parities (dat : Block) : Registers :=
  (List.finRange 256).foldl (parityStep dat) ⟨0, 0, 0⟩

def nandCalculateEcc (dat : Block) : Ecc :=
  let regs := parities dat
  let code := nandTransResult regs.reg2 regs.reg3
  ⟨~~~code.1, ~~~code.2, (~~~regs.reg1) <<< 2 ||| 0x03⟩

/-- A loop that gathers every second bit of `d`, from the mask `c` down, under the
mask `a`. -/
def gatherLoop (d : BitVec 8) : Nat → BitVec 8 → BitVec 8 → BitVec 8 → BitVec 8 × BitVec 8
  | 0, _, a, add => (a, add)
  | count + 1, c, a, add =>
      gatherLoop d count (c >>> 2) (a >>> 1) (if d &&& c ≠ 0 then add ||| a else add)

/-- The loop `while (d)`: eight turns leave nothing of a byte. -/
def countLoop : Nat → BitVec 8 → Nat → Nat
  | 0, _, i => i
  | fuel + 1, d, i =>
      if d = 0 then i else countLoop fuel (d >>> 1) (if d &&& 0x01 ≠ 0 then i + 1 else i)

/-- The value returned, the block, and the code from the chip. -/
structure Corrected where
  ret : Int
  dat : Block
  readEcc : Ecc

def nandCorrectData (dat : Block) (readEcc calcEcc : Ecc) : Corrected :=
  let d1 := calcEcc.first ^^^ readEcc.first
  let d2 := calcEcc.second ^^^ readEcc.second
  let d3 := calcEcc.third ^^^ readEcc.third
  if d1 ||| d2 ||| d3 = 0 then ⟨0, dat, readEcc⟩
  else
    let a := (d1 ^^^ (d1 >>> 1)) &&& 0x55
    let b := (d2 ^^^ (d2 >>> 1)) &&& 0x55
    let c := (d3 ^^^ (d3 >>> 1)) &&& 0x54
    if a = 0x55 ∧ b = 0x55 ∧ c = 0x54 then
      let upper := gatherLoop d1 4 0x80 0x80 0
      let add := (gatherLoop d2 4 0x80 upper.1 upper.2).2
      let bit := (gatherLoop d3 3 0x80 0x04 0).2
      ⟨1, Function.update dat add.toFin (dat add.toFin ^^^ ((0x01 : BitVec 8) <<< bit)), readEcc⟩
    else if countLoop 8 d3 (countLoop 8 d2 (countLoop 8 d1 0)) = 1 then ⟨2, dat, calcEcc⟩
    else ⟨-1, dat, readEcc⟩

end MagxKernel.NandEcc
