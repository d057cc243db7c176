import MagxKernel.Jffs2.Rtime
import MagxKernel.Lib.BitStream

namespace MagxKernel.Jffs2

open Buffer (load store)
open BitStream (putBit)

/-- `struct pushpull` without the bytes of its buffer. Positions count bits. -/
structure Pushpull where
  buflen : Nat
  ofs : Nat
  reserve : Nat
deriving DecidableEq

/-- The registers of a `struct rubin_state`. -/
structure RubinState where
  p : Nat
  q : Nat
  recQ : Nat
  pp : Pushpull
deriving DecidableEq

def upperBitRubin : Nat := 2 ^ 15

/-- The bit is not written (`-ENOSPC`) when the position has reached the limit,
an `unsigned int`. -/
def pushbit (pp : Pushpull) (buf : List UInt8) (bit useReserved : Bool) :
    Option (Option Pushpull × List UInt8) :=
  let limit := (pp.buflen + 2 ^ 32 - if useReserved then 0 else pp.reserve) % 2 ^ 32
  if limit ≤ pp.ofs then some (none, buf)
  else
    (load buf (pp.ofs / 8 : Nat)).bind fun byte =>
      (store buf (pp.ofs / 8 : Nat) (putBit byte (7 - pp.ofs % 8) bit)).map fun buf =>
        (some { pp with ofs := pp.ofs + 1 }, buf)

def pullbit (pp : Pushpull) (buf : List UInt8) : Option (Bool × Pushpull) :=
  (load buf (pp.ofs / 8 : Nat)).map fun byte =>
    (byte.toBitVec.getLsbD (7 - pp.ofs % 8), { pp with ofs := pp.ofs + 1 })

/-- The interval lies in one half of the register. -/
def rubinShifts (p q : Nat) : Prop := upperBitRubin ≤ q ∨ p + q ≤ upperBitRubin

instance (p q : Nat) : Decidable (rubinShifts p q) := inferInstanceAs (Decidable (_ ∨ _))

/-- The loop at the start of `encode`. -/
def encodeShift : Nat → RubinState → List UInt8 → Option (Option RubinState × List UInt8)
  | 0, _, _ => none
  | fuel + 1, rs, buf =>
      if rubinShifts rs.p rs.q then
        (pushbit rs.pp buf (rs.q.testBit 15) false).bind fun pushed =>
          match pushed.1 with
          | none => some (none, pushed.2)
          | some pp =>
              encodeShift fuel
                { rs with
                  q := rs.q % upperBitRubin * 2
                  p := rs.p * 2
                  pp := pp } pushed.2
      else some (some rs, buf)

/-- Where the interval is cut: `A * p / (A + B)`, but neither part empty. -/
def splitPoint (a b p : Nat) : Nat :=
  let i0 := a * p / (a + b)
  let i0 := if i0 = 0 then 1 else i0
  if p ≤ i0 then p - 1 else i0

def RubinState.narrow (rs : RubinState) (a b : Nat) (symbol : Bool) : RubinState :=
  let i0 := splitPoint a b rs.p
  if symbol then
    { rs with
      p := rs.p - i0
      q := rs.q + i0 }
  else { rs with p := i0 }

/-- At most sixteen shifts are needed. -/
def encode (rs : RubinState) (buf : List UInt8) (a b : Nat) (symbol : Bool) :
    Option (Option RubinState × List UInt8) :=
  (encodeShift 17 rs buf).map fun shifted =>
    (shifted.1.map fun rs => rs.narrow a b symbol, shifted.2)

/-- The loop of `out_byte` over the probabilities of the bits, lowest bit first. -/
def outBits (divider : Nat) :
    List Nat → Nat → RubinState → List UInt8 → Option (Option RubinState × List UInt8)
  | [], _, rs, buf => some (some rs, buf)
  | bit :: bits, byte, rs, buf =>
      (encode rs buf (divider - bit) bit (byte % 2 = 1)).bind fun coded =>
        match coded.1 with
        | none => some (none, coded.2)
        | some rs => outBits divider bits (byte / 2) rs coded.2

/-- What the loop of `rubin_do_compress` leaves. -/
structure Packed where
  pos : Nat
  rs : RubinState
  buf : List UInt8
deriving DecidableEq

/-- A byte that does not fit is taken back, but not the bits it left in the buffer. -/
def outBytes (divider : Nat) (bits : List Nat) :
    List UInt8 → Nat → RubinState → List UInt8 → Option Packed
  | [], pos, rs, buf => some ⟨pos, rs, buf⟩
  | byte :: rest, pos, rs, buf =>
      (outBits divider bits byte.toNat rs buf).bind fun coded =>
        match coded.1 with
        | none => some ⟨pos, rs, coded.2⟩
        | some rs => outBytes divider bits rest (pos + 1) rs coded.2

/-- The loop of `end_rubin`. The results of `pushbit` are not looked at. -/
def endRubin : Nat → RubinState → List UInt8 → Option (RubinState × List UInt8)
  | 0, rs, buf => some (rs, buf)
  | count + 1, rs, buf =>
      (pushbit rs.pp buf (rs.q.testBit 15) true).bind fun pushed =>
        endRubin count
          { rs with
            q := rs.q % upperBitRubin * 2
            pp := pushed.1.getD rs.pp } pushed.2

/-- The first of the two tests in the source compares with an `outpos` of zero. -/
def rubinDoCompress (divider : Nat) (bits : List Nat) (dataIn cpageOut : List UInt8) :
    Option Compressed :=
  (outBytes divider bits dataIn 0 ⟨2 * upperBitRubin, 0, 0, ⟨cpageOut.length * 8 % 2 ^ 32, 0, 32⟩⟩
      cpageOut).bind fun packed =>
    (endRubin 16 packed.rs packed.buf).map fun ended =>
      let outpos := (ended.1.pp.ofs + 7) / 8
      if packed.pos ≤ outpos then ⟨-1, dataIn.length, cpageOut.length, ended.2⟩
      else ⟨0, packed.pos, outpos, ended.2⟩

/-- The counters are `unsigned char`. -/
def histogram (dataIn : List UInt8) : List UInt8 :=
  dataIn.foldl (fun histo byte => histo.modify byte.toNat (· + 1)) (List.replicate 256 0)

def bitCount (histo : List UInt8) (bit : Nat) : Nat :=
  (List.range 256).foldl (fun count index =>
    if index.testBit bit then count + (histo.getD index 0).toNat else count) 0

/-- The probability of a bit, in units of 1/256. -/
def bitProbability (histo : List UInt8) (mysrclen bit : Nat) : Nat :=
  let bits := bitCount histo bit * 256 / mysrclen
  let bits := if bits = 0 then 1 else bits
  if 255 < bits then 255 else bits

def dynrubinCompress (dataIn cpageOut : List UInt8) : Option Compressed :=
  if cpageOut.length ≤ 12 then some ⟨-1, dataIn.length, cpageOut.length, cpageOut⟩
  else
    let histo := histogram dataIn
    let bits := (List.range 8).map (bitProbability histo dataIn.length)
    let head := bits.map UInt8.ofNat
    (rubinDoCompress 256 bits dataIn (cpageOut.drop 8)).map fun result =>
      if result.ret ≠ 0 ∨ result.sourcelen ≤ result.dstlen + 8 then
        ⟨-1, dataIn.length, cpageOut.length, head ++ result.cpageOut⟩
      else ⟨0, result.sourcelen, result.dstlen + 8, head ++ result.cpageOut⟩

/-- The loop of `init_decode`. -/
def pullRegister (buf : List UInt8) : Nat → Nat → Pushpull → Option (Nat × Pushpull)
  | 0, recQ, pp => some (recQ, pp)
  | count + 1, recQ, pp =>
      (pullbit pp buf).bind fun pulled =>
        pullRegister buf count (recQ * 2 + pulled.1.toNat) pulled.2

/-- The first loop of `__do_decode`: how many bits are needed. -/
def decodeShift : Nat → Nat → Nat → Nat → Option (Nat × Nat × Nat)
  | 0, _, _, _ => none
  | fuel + 1, p, q, bits =>
      let q := q % upperBitRubin * 2
      let p := p * 2
      if rubinShifts p q then decodeShift fuel p q (bits + 1) else some (p, q, bits + 1)

/-- The second loop of `__do_decode`. -/
def pullBits (buf : List UInt8) : Nat → Nat → Pushpull → Option (Nat × Pushpull)
  | 0, recQ, pp => some (recQ, pp)
  | count + 1, recQ, pp =>
      (pullbit pp buf).bind fun pulled =>
        pullBits buf count (recQ % upperBitRubin * 2 + pulled.1.toNat) pulled.2

def doDecode (rs : RubinState) (buf : List UInt8) : Option RubinState :=
  (decodeShift 16 rs.p rs.q 0).bind fun shifted =>
    (pullBits buf shifted.2.2 rs.recQ rs.pp).map fun pulled =>
      ⟨shifted.1, shifted.2.1, pulled.1, pulled.2⟩

def decode (rs : RubinState) (buf : List UInt8) (a b : Nat) : Option (Bool × RubinState) :=
  (if rubinShifts rs.p rs.q then doDecode rs buf else some rs).map fun rs =>
    let i0 := splitPoint a b rs.p
    let symbol := decide (rs.q + i0 ≤ rs.recQ)
    (symbol, rs.narrow a b symbol)

/-- The loop of `in_byte`. -/
def inBits (divider : Nat) (buf : List UInt8) :
    List Nat → Nat → Nat → RubinState → Option (Nat × RubinState)
  | [], _, result, rs => some (result, rs)
  | bit :: bits, i, result, rs =>
      (decode rs buf (divider - bit) bit).bind fun decoded =>
        inBits divider buf bits (i + 1) (result ||| decoded.1.toNat <<< i) decoded.2

/-- The loop of `rubin_do_decompress`; `left` bytes are still to come. -/
def inBytes (divider : Nat) (bits : List Nat) (buf : List UInt8) :
    Nat → Nat → RubinState → List UInt8 → Option (List UInt8)
  | 0, _, _, page => some page
  | left + 1, outpos, rs, page =>
      (inBits divider buf bits 0 0 rs).bind fun byte =>
        (store page outpos (UInt8.ofNat byte.1)).bind fun page =>
          inBytes divider bits buf left (outpos + 1) byte.2 page

def rubinDoDecompress (divider : Nat) (bits : List Nat) (cdataIn pageOut : List UInt8) :
    Option (List UInt8) :=
  (pullRegister cdataIn 16 0 ⟨cdataIn.length, 0, 0⟩).bind fun register =>
    inBytes divider bits cdataIn pageOut.length 0 ⟨2 * upperBitRubin, 0, register.1, register.2⟩
      pageOut

/-- The probabilities stand in the first eight bytes. -/
def dynrubinDecompress (dataIn cpageOut : List UInt8) : Option (List UInt8) :=
  if dataIn.length < 8 then none
  else rubinDoDecompress 256 ((dataIn.take 8).map UInt8.toNat) (dataIn.drop 8) cpageOut

end MagxKernel.Jffs2
