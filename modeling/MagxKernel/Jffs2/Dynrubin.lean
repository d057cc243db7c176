import MagxKernel.Jffs2.Lockstep

namespace MagxKernel.Jffs2

open List

open BitStream (value bitAt)

/-- What `rubin_do_decompress` needs of the output of `rubin_do_compress`. -/
structure Restores (divider : Nat) (bits : List Nat) (dataIn cpageOut : List UInt8)
    (result : Compressed) : Prop where
  size : result.cpageOut.length = cpageOut.length
  shorter : result.dstlen ≤ cpageOut.length
  taken : result.sourcelen ≤ dataIn.length
  restores : ∀ page : List UInt8, page.length = result.sourcelen →
    rubinDoDecompress divider bits (result.cpageOut.take result.dstlen) page =
      some (dataIn.take result.sourcelen)

section Flush

variable {input buf : List UInt8} {rs : RubinState}

/-- The flushed register lies in the interval it is the lower end of. -/
theorem Inside.flushed (valid : Valid rs) (written : value (bitAt buf) rs.pp.ofs 16 = rs.q)
    (same : SameBits (rs.pp.ofs + 16) input buf) : Inside input rs := by
  have filled := valid.filled
  have read : value (bitAt input) rs.pp.ofs 16 = rs.q := by
    rw [← written]
    exact BitStream.value_congr fun index _ => same index
  constructor <;> omega

end Flush

theorem rubinDoCompress_spec (divider : Nat) (bits : List Nat) (eight : bits.length = 8)
    (dataIn cpageOut : List UInt8) (room : 32 ≤ cpageOut.length * 8 % 2 ^ 32) :
    ∃ result, rubinDoCompress divider bits dataIn cpageOut = some result ∧
      (result.ret = 0 → Restores divider bits dataIn cpageOut result) := by
  let start : RubinState := ⟨2 * upperBitRubin, 0, 0, ⟨cpageOut.length * 8 % 2 ^ 32, 0, 32⟩⟩
  have buflen : cpageOut.length * 8 % 2 ^ 32 ≤ 8 * cpageOut.length := by
    omega
  have valid : Valid start := ⟨(by decide : 1 ≤ 2 * upperBitRubin),
    (by decide : 0 + 2 * upperBitRubin ≤ 2 ^ 16)⟩
  have roomy : Roomy start.pp cpageOut :=
    ⟨rfl, by show 0 + 32 ≤ _; omega, buflen, Nat.mod_lt _ (by decide)⟩
  obtain ⟨packed, done, length, _, unpacked⟩ :=
    outBytes_spec divider bits eight dataIn dataIn 0 start cpageOut drop_zero.symm
      (Nat.zero_le _) valid roomy
  have coded := unpacked.coded
  have least := coded.roomy.least
  have fits := coded.roomy.fits
  have top := coded.valid.fits
  have filled := coded.valid.filled
  obtain ⟨rs', buf', flushed, length₂, ofs, same, written⟩ :=
    endRubin_spec 16 packed.rs packed.buf (Nat.le_refl _) (by omega) (by omega) fits
      coded.roomy.narrow
  rw [rubinDoCompress, done, Option.bind_some, flushed, Option.map_some]
  by_cases failed : packed.pos ≤ (rs'.pp.ofs + 7) / 8
  · rw [if_pos failed]
    exact ⟨_, rfl, fun wrong => (by cases wrong)⟩
  rw [if_neg failed]
  refine ⟨_, rfl, ?_⟩
  intro _
  have short : (rs'.pp.ofs + 7) / 8 ≤ cpageOut.length := by omega
  refine ⟨length₂.trans length, short, unpacked.reached.2, ?_⟩
  intro page page_size
  simp only at page_size ⊢
  generalize cut : buf'.take ((rs'.pp.ofs + 7) / 8) = input
  have input_length : input.length = (rs'.pp.ofs + 7) / 8 := by
    rw [← cut, length_take]
    omega
  have kept : SameBits (packed.rs.pp.ofs + 16) input buf' := by
    intro index below
    rw [← cut]
    exact BitStream.bitAt_take _ (by omega)
  rw [Nat.sub_self, Nat.pow_zero, Nat.div_one] at written
  have within : Inside input packed.rs := Inside.flushed coded.valid written kept
  have agrees : SameBits packed.rs.pp.ofs input packed.buf :=
    (kept.less (Nat.le_add_right _ _)).trans same
  obtain ⟨out, run, out_length, agree⟩ := unpacked.unpacks input agrees within (by omega)
    ⟨input.length, 0, 0⟩ page (by omega) fun index below => absurd below (Nat.not_lt_zero index)
  have begun : pullRegister input 16 0 ⟨input.length, 0, 0⟩ = some
      (value (bitAt input) 0 16, ⟨input.length, 16, 0⟩) :=
    @pullRegister_spec input 16 0 ⟨input.length, 0, 0⟩ (by omega)
  rw [rubinDoDecompress, begun, Option.bind_some, page_size, ← agree.take (by omega)]
  exact run

theorem bitProbability_lt (histo : List UInt8) (mysrclen bit : Nat) :
    bitProbability histo mysrclen bit < 256 := by
  simp only [bitProbability]
  split <;> split <;> omega

theorem dynrubinDecompress_head {bits : List Nat} (eight : bits.length = 8)
    (bytes : ∀ bit ∈ bits, bit < 256) (rest page : List UInt8) :
    dynrubinDecompress (bits.map UInt8.ofNat ++ rest) page =
      rubinDoDecompress 256 bits rest page := by
  have head : (bits.map UInt8.ofNat).length = 8 := (length_map _).trans eight
  have same : (bits.map UInt8.ofNat).map UInt8.toNat = bits := by
    rw [map_map]
    conv_rhs => rw [← map_id bits]
    exact map_congr_left fun bit member => UInt8.toNat_ofNat_of_lt (bytes bit member)
  have long : ¬ (bits.map UInt8.ofNat ++ rest).length < 8 := by
    rw [length_append]
    omega
  rw [dynrubinDecompress, if_neg long, take_left' head, drop_left' head, same]

/-- A page that is packed within the range of the bit counter comes back, and no
access leaves its buffer. -/
theorem dynrubin_roundTrip (dataIn cpageOut : List UInt8) (_some_data : 1 ≤ dataIn.length)
    (_short : dataIn.length ≤ 32767) (narrow : cpageOut.length < 2 ^ 32)
    (room : cpageOut.length ≤ 12 ∨ 32 ≤ (cpageOut.length - 8) * 8 % 2 ^ 32) :
    ∃ result, dynrubinCompress dataIn cpageOut = some result ∧
      (result.ret = 0 → result.dstlen ≤ cpageOut.length ∧
        ∀ page : List UInt8, page.length = result.sourcelen →
          dynrubinDecompress (result.cpageOut.take result.dstlen) page =
            some (dataIn.take result.sourcelen)) := by
  unfold dynrubinCompress
  by_cases small : cpageOut.length ≤ 12
  · rw [if_pos small]
    exact ⟨_, rfl, fun wrong => (by cases wrong)⟩
  have wide : 32 ≤ (cpageOut.drop 8).length * 8 % 2 ^ 32 := by
    rw [length_drop]
    omega
  rw [if_neg small]
  obtain ⟨result, done, restores⟩ := rubinDoCompress_spec 256
    ((List.range 8).map (bitProbability (histogram dataIn) dataIn.length)) rfl dataIn
    (cpageOut.drop 8) wide
  simp only [done, Option.map_some]
  split
  · exact ⟨_, rfl, fun wrong => (by cases wrong)⟩
  rename_i failed
  push Not at failed
  have spec := restores failed.1
  have shorter := spec.shorter
  rw [length_drop] at shorter
  refine ⟨_, rfl, ?_⟩
  intro _
  refine ⟨by simp only; omega, ?_⟩
  intro page page_size
  have cut : ∀ head : List UInt8, head.length = 8 →
      (head ++ result.cpageOut).take (result.dstlen + 8) =
        head ++ result.cpageOut.take result.dstlen := by
    intro head eight
    rw [Nat.add_comm, ← eight]
    exact take_length_add_append result.dstlen
  rw [cut _ rfl, dynrubinDecompress_head rfl]
  · exact spec.restores page page_size
  · intro bits member
    obtain ⟨bit, _, rfl⟩ := mem_map.mp member
    exact bitProbability_lt (histogram dataIn) dataIn.length bit

theorem dynrubin_roundTrip_blank :
    (List.replicate 40 (7 : UInt8)).length ≤ 32767 ∧
      ∃ result, dynrubinCompress (List.replicate 40 7) (List.replicate 13 0) = some result ∧
        (result.ret = 0 → result.dstlen ≤ (List.replicate 13 (0 : UInt8)).length ∧
          ∀ page : List UInt8, page.length = result.sourcelen →
            dynrubinDecompress (result.cpageOut.take result.dstlen) page =
              some ((List.replicate 40 7).take result.sourcelen)) :=
  ⟨by decide, dynrubin_roundTrip (List.replicate 40 7) (List.replicate 13 0) (by decide)
    (by decide) (by decide) (by decide)⟩

/-- With the bits of the buffer counted round to zero nothing is flushed. -/
theorem endRubin_wrapped (count p : Nat) (rest : List UInt8) :
    endRubin count ⟨p, 0, 0, ⟨0, 0, 32⟩⟩ rest = some (⟨p, 0, 0, ⟨0, 0, 32⟩⟩, rest) := by
  induction count with
  | zero => rfl
  | succ count ih =>
    have refused : pushbit ⟨0, 0, 32⟩ rest (Nat.testBit 0 15) true = some (none, rest) := by
      simp [pushbit]
    rw [endRubin, refused]
    exact ih

set_option maxRecDepth 4096 in
theorem outBytes_wrapped (rest : List UInt8) :
    outBytes 256 (List.replicate 8 1) (List.replicate 10 0) 0 ⟨2 * upperBitRubin, 0, 0, ⟨0, 0, 32⟩⟩
      rest = some ⟨10, ⟨47882, 0, 0, ⟨0, 0, 32⟩⟩, rest⟩ := by
  rfl

theorem rubinDoCompress_wrapped {rest : List UInt8} (wraps : rest.length = 2 ^ 29) :
    rubinDoCompress 256 (List.replicate 8 1) (List.replicate 10 0) rest =
      some ⟨0, 10, 0, rest⟩ := by
  unfold rubinDoCompress
  rw [wraps, show 2 ^ 29 * 8 % 2 ^ 32 = 0 by decide, outBytes_wrapped, Option.bind_some,
    endRubin_wrapped]
  simp

theorem blank_probabilities : (List.range 8).map (bitProbability (histogram (List.replicate 10 0))
    (List.replicate 10 (0 : UInt8)).length) = List.replicate 8 1 := by
  decide +kernel

/-- Ten blank bytes, packed into a buffer of half a gigabyte: only the probabilities are
there to be unpacked. -/
theorem dynrubin_dropsFlush :
    ∃ result, dynrubinCompress (List.replicate 10 0) (List.replicate (2 ^ 29 + 8) 0) =
        some result ∧ result.ret = 0 ∧
      dynrubinDecompress (result.cpageOut.take result.dstlen) (List.replicate 10 0) = none := by
  generalize size : List.replicate (2 ^ 29 + 8) (0 : UInt8) = cpageOut
  have length : cpageOut.length = 2 ^ 29 + 8 := by
    rw [← size, length_replicate]
  have wraps : (cpageOut.drop 8).length = 2 ^ 29 := by
    rw [length_drop, length, Nat.add_sub_cancel]
  have wide : ¬ cpageOut.length ≤ 12 := by omega
  refine ⟨⟨0, 10, 8, (List.replicate 8 1).map UInt8.ofNat ++ cpageOut.drop 8⟩, ?_, rfl, ?_⟩
  · unfold dynrubinCompress
    rw [if_neg wide]
    simp only [blank_probabilities, rubinDoCompress_wrapped wraps, Option.map_some]
    rfl
  · have cut : ((List.replicate 8 1).map UInt8.ofNat ++ cpageOut.drop 8).take 8 =
        (List.replicate 8 1).map UInt8.ofNat := take_left' rfl
    simp only [cut]
    decide

end MagxKernel.Jffs2
