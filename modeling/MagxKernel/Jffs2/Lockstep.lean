import MagxKernel.Jffs2.Rubin

namespace MagxKernel.Jffs2

open List Option

open BitStream (value bitAt)

/-- The interval of the coder is not empty and lies inside the register. -/
structure Valid (rs : RubinState) : Prop where
  filled : 1 ≤ rs.p
  fits : rs.q + rs.p ≤ 2 ^ 16

/-- There is room for the bits of the last flush behind the position. -/
structure Roomy (pp : Pushpull) (buf : List UInt8) : Prop where
  reserve : pp.reserve = 32
  least : pp.ofs + 32 ≤ pp.buflen
  fits : pp.buflen ≤ 8 * buf.length
  narrow : pp.buflen < 2 ^ 32

/-- The register that reads the bits of `input` from the coder's position on lies in
the coder's interval. -/
structure Inside (input : List UInt8) (rs : RubinState) : Prop where
  above : rs.q ≤ value (bitAt input) rs.pp.ofs 16
  below : value (bitAt input) rs.pp.ofs 16 < rs.q + rs.p

/-- The first `count` bits of the buffers are the same. -/
def SameBits (count : Nat) (first second : List UInt8) : Prop :=
  ∀ index < count, bitAt first index = bitAt second index

theorem SameBits.less {count fewer : Nat} {first second : List UInt8}
    (same : SameBits count first second) (order : fewer ≤ count) : SameBits fewer first second :=
  fun index below => same index (Nat.lt_of_lt_of_le below order)

theorem SameBits.trans {count : Nat} {first second third : List UInt8}
    (left : SameBits count first second) (right : SameBits count second third) :
    SameBits count first third :=
  fun index below => (left index below).trans (right index below)

section Push

variable {pp : Pushpull} {buf : List UInt8}

theorem pushbit_stores (bit useReserved : Bool) (inside : pp.ofs < 8 * buf.length)
    (room : ¬ (pp.buflen + 2 ^ 32 - if useReserved then 0 else pp.reserve) % 2 ^ 32 ≤ pp.ofs) :
    ∃ buf', pushbit pp buf bit useReserved = some (some { pp with ofs := pp.ofs + 1 }, buf') ∧
      buf'.length = buf.length ∧ SameBits pp.ofs buf' buf ∧ bitAt buf' pp.ofs = bit := by
  have byte : pp.ofs / 8 < buf.length := by omega
  have cells := BitStream.bitAt_set byte bit
  refine ⟨buf.set (pp.ofs / 8) (BitStream.putBit buf[pp.ofs / 8] (7 - pp.ofs % 8) bit), ?_,
    length_set, ?_, ?_⟩
  · simp only [pushbit]
    rw [if_neg room, Buffer.load_eq_some byte, bind_some, Buffer.store_eq_some _ byte]
    rfl
  · intro index below
    rw [cells index, if_neg (by omega)]
  · rw [cells, if_pos rfl]

theorem pushbit_spec (roomy : Roomy pp buf) (bit : Bool) :
    pushbit pp buf bit false = some (none, buf) ∨
      ∃ buf', pushbit pp buf bit false = some (some { pp with ofs := pp.ofs + 1 }, buf') ∧
        buf'.length = buf.length ∧ SameBits pp.ofs buf' buf ∧ bitAt buf' pp.ofs = bit ∧
        Roomy { pp with ofs := pp.ofs + 1 } buf' := by
  have least := roomy.least
  have fits := roomy.fits
  have narrow := roomy.narrow
  have reserve := roomy.reserve
  by_cases full : (pp.buflen + 2 ^ 32 - if false then 0 else pp.reserve) % 2 ^ 32 ≤ pp.ofs
  · left
    simp only [pushbit]
    rw [if_pos full]
  · right
    have inside : pp.ofs < 8 * buf.length := by omega
    obtain ⟨buf', done, length, same, here⟩ := pushbit_stores bit false inside full
    simp only [Bool.false_eq_true, if_false] at full
    exact ⟨buf', done, length, same, here, reserve, by simp only; omega,
      by simp only; omega, narrow⟩

end Push

theorem testBit_top {q : Nat} (small : q < 2 ^ 16) : q.testBit 15 = decide (2 ^ 15 ≤ q) := by
  rw [Nat.testBit_eq_decide_div_mod_eq]
  congr 1
  rw [eq_iff_iff]
  omega

/-- One turn of the shift keeps the interval in the register. -/
theorem Valid.shift {rs : RubinState} (valid : Valid rs) (shifts : rubinShifts rs.p rs.q)
    (pp : Pushpull) :
    Valid ⟨rs.p * 2, rs.q % upperBitRubin * 2, rs.recQ, pp⟩ := by
  have filled := valid.filled
  have fits := valid.fits
  unfold rubinShifts at shifts
  unfold upperBitRubin at shifts ⊢
  constructor
  · simp only
    omega
  · simp only
    omega

/-- The shifts that bring an interval to straddle the middle of the register. -/
inductive Shifts : Nat → Nat → Nat → Nat → Nat → Prop
  | stop {p q : Nat} (still : ¬ rubinShifts p q) : Shifts p q 0 p q
  | step {p q count p' q' : Nat} (shifts : rubinShifts p q)
      (rest : Shifts (p * 2) (q % upperBitRubin * 2) count p' q') : Shifts p q (count + 1) p' q'

variable {p q count p' q' : Nat}

theorem Shifts.p_eq (shifts : Shifts p q count p' q') : p' = p * 2 ^ count := by
  induction shifts with
  | stop => rw [Nat.pow_zero, Nat.mul_one]
  | step _ _ ih => rw [ih, Nat.pow_succ, Nat.mul_assoc, Nat.mul_comm 2]

theorem Shifts.still (shifts : Shifts p q count p' q') : ¬ rubinShifts p' q' := by
  induction shifts with
  | stop still => exact still
  | step _ _ ih => exact ih

/-- What the loop at the start of `encode` did. -/
structure Shifted (rs rs' : RubinState) (buf : List UInt8) : Prop where
  valid : Valid rs'
  roomy : Roomy rs'.pp buf
  buflen : rs'.pp.buflen = rs.pp.buflen
  count : ∃ count, rs'.pp.ofs = rs.pp.ofs + count ∧ Shifts rs.p rs.q count rs'.p rs'.q
  inside : ∀ input, SameBits rs'.pp.ofs input buf → Inside input rs' → Inside input rs

theorem encodeShift_spec (fuel : Nat) (rs : RubinState) (buf : List UInt8) (valid : Valid rs)
    (roomy : Roomy rs.pp buf) (enough : 2 ^ 16 < rs.p * 2 ^ fuel) :
    ∃ shifted, encodeShift fuel rs buf = some shifted ∧ shifted.2.length = buf.length ∧
      SameBits rs.pp.ofs shifted.2 buf ∧
      ∀ rs', shifted.1 = some rs' → Shifted rs rs' shifted.2 := by
  have filled := valid.filled
  have fits := valid.fits
  induction fuel generalizing rs buf with
  | zero =>
    omega
  | succ fuel ih =>
    rw [encodeShift]
    split
    · rename_i shifts
      rcases pushbit_spec roomy (rs.q.testBit 15) with
        full | ⟨buf₁, pushed, length, same, here, roomy₁⟩
      · rw [full]
        exact ⟨(none, buf), rfl, rfl, fun _ _ => rfl, fun _ wrong => (by cases wrong)⟩
      · rw [pushed, bind_some]
        have valid₁ := valid.shift shifts { rs.pp with ofs := rs.pp.ofs + 1 }
        have wide : rs.p * 2 * 2 ^ fuel = rs.p * 2 ^ (fuel + 1) := by
          rw [Nat.mul_assoc, Nat.mul_comm 2, ← Nat.pow_succ]
        rw [← wide] at enough
        obtain ⟨shifted, done, length₂, same₂, result⟩ := ih _ buf₁ valid₁ roomy₁ enough
          valid₁.filled valid₁.fits
        refine ⟨shifted, done, length₂.trans length, ?_, ?_⟩
        · exact (same₂.less (Nat.le_succ _)).trans same
        · intro rs' success
          have rest := result rs' success
          obtain ⟨count, ofs, more⟩ := rest.count
          simp only at ofs
          refine { rest with count := ⟨count + 1, by omega, .step shifts more⟩, inside := ?_ }
          intro input agrees within
          have after := rest.inside input agrees within
          have first : bitAt input rs.pp.ofs = decide (2 ^ 15 ≤ rs.q) := by
            rw [agrees _ (by omega), same₂ _ (Nat.lt_succ_self _), here, testBit_top (by omega)]
          have above := after.above
          have below := after.below
          simp only [upperBitRubin] at above below
          have low : 2 * (rs.q % 2 ^ 15) ≤ value (bitAt input) (rs.pp.ofs + 1) 16 := by omega
          have high : value (bitAt input) (rs.pp.ofs + 1) 16 <
              2 * (rs.q % 2 ^ 15) + 2 * rs.p := by omega
          have before := @BitStream.inside_of_shift (bitAt input) rs.pp.ofs 15 rs.q rs.p (by omega)
            first low high
          exact ⟨before.1, before.2⟩
    · rename_i shifts
      refine ⟨(some rs, buf), rfl, rfl, fun _ _ => rfl, ?_⟩
      intro rs' success
      cases success
      exact ⟨valid, roomy, rfl, ⟨0, rfl, .stop shifts⟩, fun _ _ within => within⟩

theorem splitPoint_bounds (a b : Nat) {p : Nat} (two : 2 ≤ p) :
    1 ≤ splitPoint a b p ∧ splitPoint a b p < p := by
  simp only [splitPoint]
  generalize a * p / (a + b) = cut
  split <;> split <;> omega

/-- A straddling interval is wide enough to be cut. -/
theorem two_le_of_still {rs : RubinState} (still : ¬ rubinShifts rs.p rs.q) : 2 ≤ rs.p := by
  unfold rubinShifts upperBitRubin at still
  omega

section Narrow

variable {rs : RubinState} {a b : Nat} {symbol : Bool}

@[simp] theorem narrow_pp : (rs.narrow a b symbol).pp = rs.pp := by
  cases symbol <;> rfl

theorem Valid.narrow (valid : Valid rs) (two : 2 ≤ rs.p) : Valid (rs.narrow a b symbol) := by
  have fits := valid.fits
  have bounds := splitPoint_bounds a b two
  cases symbol with
  | false => exact ⟨bounds.1, by show rs.q + splitPoint a b rs.p ≤ _; omega⟩
  | true =>
    constructor
    · show 1 ≤ rs.p - splitPoint a b rs.p
      omega
    · show rs.q + splitPoint a b rs.p + (rs.p - splitPoint a b rs.p) ≤ _
      omega

/-- The part of a symbol lies in the interval, and tells the symbol. -/
theorem Inside.narrow {input : List UInt8} (two : 2 ≤ rs.p)
    (within : Inside input (rs.narrow a b symbol)) :
    Inside input rs ∧
      decide (rs.q + splitPoint a b rs.p ≤ value (bitAt input) rs.pp.ofs 16) = symbol := by
  have bounds := splitPoint_bounds a b two
  have above := within.above
  have below := within.below
  cases symbol with
  | false =>
    simp only [RubinState.narrow, Bool.false_eq_true, if_false] at above below
    exact ⟨⟨above, by omega⟩, decide_eq_false (by omega)⟩
  | true =>
    simp only [RubinState.narrow, if_true] at above below
    exact ⟨⟨by omega, by omega⟩, decide_eq_true above⟩

end Narrow

/-- The state of the decoder that reads `input` where the coder stands. -/
def RubinState.mirror (rs : RubinState) (input : List UInt8) (pp : Pushpull) : RubinState :=
  ⟨rs.p, rs.q, value (bitAt input) rs.pp.ofs 16, { pp with ofs := rs.pp.ofs + 16 }⟩

section Pull

variable {input : List UInt8}

theorem pullbit_spec {pp : Pushpull} (inside : pp.ofs < 8 * input.length) :
    pullbit pp input = some (bitAt input pp.ofs, { pp with ofs := pp.ofs + 1 }) := by
  have byte : pp.ofs / 8 < input.length := by omega
  rw [pullbit, Buffer.load_eq_some byte, map_some, bitAt, getD_eq_getElem?_getD,
    getElem?_eq_getElem byte, getD_some]

theorem pullRegister_spec (count start : Nat) (pp : Pushpull)
    (inside : start + count ≤ 8 * input.length) :
    pullRegister input count (value (bitAt input) 0 start) { pp with ofs := start } =
      some (value (bitAt input) 0 (start + count), { pp with ofs := start + count }) := by
  induction count generalizing start with
  | zero => rfl
  | succ count ih =>
    rw [pullRegister, pullbit_spec (by simp only; omega), bind_some]
    have next : value (bitAt input) 0 start * 2 + (bitAt input start).toNat =
        value (bitAt input) 0 (start + 1) := by
      rw [value, Nat.zero_add, Nat.mul_comm]
    simp only [next]
    rw [ih (start + 1) (by omega), show start + 1 + count = start + (count + 1) by omega]

theorem pullBits_spec (count start : Nat) (pp : Pushpull)
    (inside : start + count + 16 ≤ 8 * input.length) :
    pullBits input count (value (bitAt input) start 16) { pp with ofs := start + 16 } =
      some (value (bitAt input) (start + count) 16, { pp with ofs := start + count + 16 }) := by
  induction count generalizing start with
  | zero => rfl
  | succ count ih =>
    rw [pullBits, pullbit_spec (by simp only; omega), bind_some]
    have next : value (bitAt input) start 16 % upperBitRubin * 2 +
        (bitAt input (start + 16)).toNat = value (bitAt input) (start + 1) 16 := by
      rw [BitStream.value_shift, Nat.mul_comm]
      rfl
    simp only [next]
    rw [show start + 16 + 1 = start + 1 + 16 by omega, ih (start + 1) (by omega),
      show start + 1 + count = start + (count + 1) by omega]

theorem decodeShift_spec (shifts : Shifts p q count p' q') (some_bits : count ≠ 0) (fuel bits : Nat)
    (enough : count ≤ fuel) : decodeShift fuel p q bits = some (p', q', bits + count) := by
  induction shifts generalizing fuel bits with
  | stop => exact absurd rfl some_bits
  | @step p q count p' q' _ rest ih =>
    obtain ⟨fuel, rfl⟩ := Nat.exists_eq_add_one_of_ne_zero (by omega : fuel ≠ 0)
    simp only [decodeShift]
    by_cases last : count = 0
    · subst last
      cases rest with
      | stop still => rw [if_neg still]
    · have more : rubinShifts (p * 2) (q % upperBitRubin * 2) := by
        cases rest with
        | stop => exact absurd rfl last
        | step shifts _ => exact shifts
      rw [if_pos more, ih last fuel (bits + 1) (by omega), show bits + 1 + count =
        bits + (count + 1)
        by omega]

/-- The decoder shifts as often as the coder did and takes in as many bits. -/
theorem align_spec {p q count p' q' start : Nat} (shifts : Shifts p q count p' q')
    (few : count ≤ 16) (inside : start + count + 16 ≤ 8 * input.length) (pp : Pushpull) :
    (if rubinShifts p q then
        doDecode ⟨p, q, value (bitAt input) start 16, { pp with ofs := start + 16 }⟩ input
      else some ⟨p, q, value (bitAt input) start 16, { pp with ofs := start + 16 }⟩) =
      some ⟨p', q', value (bitAt input) (start + count) 16,
        { pp with ofs := start + count + 16 }⟩ := by
  cases shifts with
  | stop still =>
    rw [if_neg still]
    rfl
  | step first rest =>
    rw [if_pos first, doDecode]
    rw [decodeShift_spec (.step first rest) (Nat.succ_ne_zero _) 16 0 few, bind_some,
      Nat.zero_add, pullBits_spec _ _ _ inside, map_some]

end Pull

/-- Sixteen shifts fill the register. -/
theorem Shifts.count_le (shifts : Shifts p q count p' q') (filled : 1 ≤ p) (fits : p' ≤ 2 ^ 16) :
    count ≤ 16 := by
  have width := shifts.p_eq
  have least : 2 ^ count ≤ p * 2 ^ count := Nat.le_mul_of_pos_left _ filled
  have bound : 2 ^ count ≤ 2 ^ 16 := by omega
  exact (Nat.pow_le_pow_iff_right (by omega)).mp bound

/-- The decoder takes the same shifts and finds the symbol. -/
theorem decode_spec {rs rs' : RubinState} {buf input : List UInt8} {a b : Nat} {symbol : Bool}
    (valid : Valid rs) (shifted : Shifted rs rs' buf)
    (within : Inside input (rs'.narrow a b symbol))
    (long : rs'.pp.ofs + 16 ≤ 8 * input.length) (pp : Pushpull) :
    decode (rs.mirror input pp) input a b =
      some (symbol, (rs'.narrow a b symbol).mirror input pp) := by
  obtain ⟨count, ofs, shifts⟩ := shifted.count
  have still := shifts.still
  obtain ⟨_, same_symbol⟩ := within.narrow (two_le_of_still still)
  have fits := shifted.valid.fits
  have few : count ≤ 16 := shifts.count_le valid.filled (by omega)
  have aligned : (if rubinShifts (rs.mirror input pp).p (rs.mirror input pp).q then
      doDecode (rs.mirror input pp) input else some (rs.mirror input pp)) =
      some (rs'.mirror input pp) := by
    simp only [RubinState.mirror, ofs]
    exact align_spec shifts few (by omega) pp
  rw [decode, aligned, map_some]
  show some (decide (rs'.q + splitPoint a b rs'.p ≤ value (bitAt input) rs'.pp.ofs 16),
    (rs'.mirror input pp).narrow a b
      (decide (rs'.q + splitPoint a b rs'.p ≤ value (bitAt input) rs'.pp.ofs 16))) = _
  rw [same_symbol]
  cases symbol <;> rfl

/-- What coding some symbols did, and that the decoder can follow. -/
structure Coded (rs rs' : RubinState) (buf : List UInt8) : Prop where
  valid : Valid rs'
  roomy : Roomy rs'.pp buf
  buflen : rs'.pp.buflen = rs.pp.buflen
  forward : rs.pp.ofs ≤ rs'.pp.ofs
  inside : ∀ input, SameBits rs'.pp.ofs input buf → Inside input rs' → Inside input rs

variable {rs : RubinState}

theorem Coded.refl {buf : List UInt8} (valid : Valid rs) (roomy : Roomy rs.pp buf) :
    Coded rs rs buf :=
  ⟨valid, roomy, rfl, Nat.le_refl _, fun _ _ within => within⟩

theorem Coded.trans {rs rs₁ rs₂ : RubinState} {buf₁ buf₂ : List UInt8} (first : Coded rs rs₁ buf₁)
    (second : Coded rs₁ rs₂ buf₂) (kept : SameBits rs₁.pp.ofs buf₂ buf₁) : Coded rs rs₂ buf₂ := by
  refine ⟨second.valid, second.roomy, second.buflen.trans first.buflen,
    Nat.le_trans first.forward second.forward, ?_⟩
  intro input agrees within
  have earlier : SameBits rs₁.pp.ofs input buf₁ := (agrees.less second.forward).trans kept
  exact first.inside input earlier (second.inside input agrees within)

theorem encode_spec {buf : List UInt8} (valid : Valid rs) (roomy : Roomy rs.pp buf) (a b : Nat)
    (symbol : Bool) :
    ∃ coded, encode rs buf a b symbol = some coded ∧ coded.2.length = buf.length ∧
      SameBits rs.pp.ofs coded.2 buf ∧
      ∀ rs', coded.1 = some rs' → Coded rs rs' coded.2 ∧
        ∀ input pp, Inside input rs' → rs'.pp.ofs + 16 ≤ 8 * input.length →
          decode (rs.mirror input pp) input a b = some (symbol, rs'.mirror input pp) := by
  have filled := valid.filled
  obtain ⟨shifted, done, length, same, result⟩ :=
    encodeShift_spec 17 rs buf valid roomy (by omega)
  refine ⟨(shifted.1.map fun rs => rs.narrow a b symbol, shifted.2), ?_, length, same, ?_⟩
  · rw [encode, done]
    rfl
  intro rs' success
  obtain ⟨middle, found, rfl⟩ := map_eq_some_iff.mp success
  have spec := result middle found
  obtain ⟨count, ofs, shifts⟩ := spec.count
  have two := two_le_of_still shifts.still
  refine ⟨⟨spec.valid.narrow two, ?_, ?_, ?_, ?_⟩, ?_⟩
  · rw [narrow_pp]
    exact spec.roomy
  · rw [narrow_pp]
    exact spec.buflen
  · rw [narrow_pp]
    omega
  · rw [narrow_pp]
    exact fun input agrees within => spec.inside input agrees (within.narrow two).1
  · rw [narrow_pp]
    exact fun input pp within long => decode_spec valid spec within long pp

/-- The symbols of a byte, put together from the lowest bit on. -/
theorem or_shiftLeft_bits (result byte i count : Nat) :
    (result ||| (decide (byte % 2 = 1)).toNat <<< i) ||| (byte / 2 % 2 ^ count) <<< (i + 1) =
      result ||| (byte % 2 ^ (count + 1)) <<< i := by
  have low : (decide (byte % 2 = 1)).toNat = byte % 2 := by
    rcases Nat.mod_two_eq_zero_or_one byte with even | odd
    · rw [even]
      rfl
    · rw [odd]
      rfl
  have digits : byte % 2 ^ (count + 1) = 2 ^ 1 * (byte / 2 % 2 ^ count) + byte % 2 := by
    rw [Nat.pow_succ, Nat.mul_comm (2 ^ count), Nat.mod_mul]
    omega
  have join : 2 ^ 1 * (byte / 2 % 2 ^ count) + byte % 2 =
      2 ^ 1 * (byte / 2 % 2 ^ count) ||| byte % 2 :=
    Nat.two_pow_add_eq_or_of_lt (by omega) _
  rw [low, digits, join, Nat.shiftLeft_or_distrib, Nat.or_assoc, Nat.or_comm ((byte % 2) <<< i)]
  congr 2

theorem outBits_spec (divider : Nat) (bits : List Nat) (byte : Nat) (rs : RubinState)
    (buf : List UInt8) (valid : Valid rs) (roomy : Roomy rs.pp buf) :
    ∃ coded, outBits divider bits byte rs buf = some coded ∧ coded.2.length = buf.length ∧
      SameBits rs.pp.ofs coded.2 buf ∧
      ∀ rs', coded.1 = some rs' → Coded rs rs' coded.2 ∧
        ∀ input, SameBits rs'.pp.ofs input coded.2 → Inside input rs' →
          rs'.pp.ofs + 16 ≤ 8 * input.length → ∀ pp i result,
            inBits divider input bits i result (rs.mirror input pp) =
              some (result ||| (byte % 2 ^ bits.length) <<< i, rs'.mirror input pp) := by
  induction bits generalizing byte rs buf with
  | nil =>
    refine ⟨(some rs, buf), rfl, rfl, fun _ _ => rfl, ?_⟩
    intro rs' success
    cases success
    refine ⟨Coded.refl valid roomy, ?_⟩
    intro input _ _ _ pp i result
    simp [inBits, Nat.mod_one]
  | cons bit bits ih =>
    obtain ⟨first, done, length, same, result⟩ :=
      encode_spec valid roomy (divider - bit) bit (decide (byte % 2 = 1))
    cases taken : first.1 with
    | none =>
      refine ⟨(none, first.2), ?_, length, same, fun _ wrong => (by cases wrong)⟩
      rw [outBits, done, bind_some, taken]
    | some rs₁ =>
      obtain ⟨coded₁, follows₁⟩ := result rs₁ taken
      obtain ⟨rest, done₂, length₂, same₂, result₂⟩ :=
        ih (byte / 2) rs₁ first.2 coded₁.valid coded₁.roomy
      refine ⟨rest, ?_, length₂.trans length, (same₂.less coded₁.forward).trans same, ?_⟩
      · rw [outBits, done, bind_some, taken]
        exact done₂
      · intro rs' success
        obtain ⟨coded₂, follows₂⟩ := result₂ rs' success
        refine ⟨coded₁.trans coded₂ same₂, ?_⟩
        intro input agrees within long pp i total
        have middle : Inside input rs₁ := coded₂.inside input agrees within
        have forward := coded₂.forward
        rw [inBits, follows₁ input pp middle (by omega), bind_some,
          follows₂ input agrees within long pp (i + 1), or_shiftLeft_bits]
        rfl

/-- What packing the bytes of `whole` from `pos` on did, and that unpacking from the
corresponding state on gives them back. -/
structure Unpacks (divider : Nat) (bits : List Nat) (whole : List UInt8) (pos : Nat)
    (rs : RubinState) (packed : Packed) : Prop where
  coded : Coded rs packed.rs packed.buf
  reached : pos ≤ packed.pos ∧ packed.pos ≤ whole.length
  unpacks : ∀ input, SameBits packed.rs.pp.ofs input packed.buf → Inside input packed.rs →
    packed.rs.pp.ofs + 16 ≤ 8 * input.length → ∀ pp page, packed.pos ≤ page.length →
      Buffer.Agree pos page whole →
      ∃ out, inBytes divider bits input (packed.pos - pos) pos (rs.mirror input pp) page =
        some out ∧ out.length = page.length ∧ Buffer.Agree packed.pos out whole

theorem Unpacks.stop {divider pos : Nat} {bits : List Nat} {whole buf : List UInt8}
    (valid : Valid rs) (roomy : Roomy rs.pp buf) (inside : pos ≤ whole.length) :
    Unpacks divider bits whole pos rs ⟨pos, rs, buf⟩ := by
  refine ⟨Coded.refl valid roomy, ⟨Nat.le_refl _, inside⟩, ?_⟩
  intro input _ _ _ pp page _ agree
  refine ⟨page, ?_, rfl, agree⟩
  rw [Nat.sub_self]
  rfl

theorem outBytes_spec (divider : Nat) (bits : List Nat) (eight : bits.length = 8)
    (whole data : List UInt8) (pos : Nat) (rs : RubinState) (buf : List UInt8)
    (left : data = whole.drop pos) (inside : pos ≤ whole.length) (valid : Valid rs)
    (roomy : Roomy rs.pp buf) :
    ∃ packed, outBytes divider bits data pos rs buf = some packed ∧
      packed.buf.length = buf.length ∧ SameBits rs.pp.ofs packed.buf buf ∧
      Unpacks divider bits whole pos rs packed := by
  induction data generalizing pos rs buf with
  | nil => exact ⟨⟨pos, rs, buf⟩, rfl, rfl, fun _ _ => rfl, Unpacks.stop valid roomy inside⟩
  | cons byte data ih =>
    have here : whole[pos]? = some byte := by
      rw [← head?_drop, ← left]
      rfl
    have more : pos < whole.length := (List.getElem?_eq_some_iff.mp here).1
    have rest : data = whole.drop (pos + 1) := by
      rw [← List.tail_drop, ← left]
      rfl
    obtain ⟨first, done, length, same, result⟩ :=
      outBits_spec divider bits byte.toNat rs buf valid roomy
    cases taken : first.1 with
    | none =>
      -- the byte is taken back, its bits lie behind the position
      refine ⟨⟨pos, rs, first.2⟩, ?_, length, same,
        Unpacks.stop valid { roomy with fits := length ▸ roomy.fits } inside⟩
      rw [outBytes, done, bind_some, taken]
    | some rs₁ =>
      obtain ⟨coded, follows⟩ := result rs₁ taken
      obtain ⟨packed, done₂, length₂, same₂, unpacked⟩ :=
        ih (pos + 1) rs₁ first.2 rest more coded.valid coded.roomy
      refine ⟨packed, ?_, length₂.trans length, (same₂.less coded.forward).trans same, ?_⟩
      · rw [outBytes, done, bind_some, taken]
        exact done₂
      · refine ⟨coded.trans unpacked.coded same₂, ⟨by have := unpacked.reached.1; omega,
          unpacked.reached.2⟩, ?_⟩
        intro input agrees within long pp page room agree
        have forward := unpacked.coded.forward
        have reached := unpacked.reached.1
        have middle : Inside input rs₁ := unpacked.coded.inside input agrees within
        have earlier : SameBits rs₁.pp.ofs input first.2 := (agrees.less forward).trans same₂
        obtain ⟨out, run, out_length, out_agree⟩ := unpacked.unpacks input agrees within long pp
          (page.set pos byte) (by rw [length_set]; exact room)
          (agree.snoc (by omega) here)
        refine ⟨out, ?_, by rw [out_length, length_set], out_agree⟩
        have value : UInt8.ofNat (0 ||| (byte.toNat % 2 ^ bits.length) <<< 0) = byte := by
          rw [Nat.zero_or, Nat.shiftLeft_zero, eight, Nat.mod_eq_of_lt byte.toNat_lt]
          exact UInt8.ofNat_toNat
        rw [show packed.pos - pos = packed.pos - (pos + 1) + 1 by omega, inBytes,
          follows input earlier middle (by omega) pp 0 0, bind_some, value,
          Buffer.store_eq_some _ (by omega), bind_some]
        exact run

/-- The top bit of a register and the digits it has after a shift. -/
theorem flushed_digits {q count : Nat} (small : q < 2 ^ 16) (few : count ≤ 15) :
    (decide (2 ^ 15 ≤ q)).toNat * 2 ^ count + q % upperBitRubin * 2 / 2 ^ (16 - count) =
      q / 2 ^ (16 - (count + 1)) := by
  obtain ⟨rest, split⟩ : ∃ rest, rest + count = 15 := ⟨15 - count, by omega⟩
  have top : (decide (2 ^ 15 ≤ q)).toNat = q / 2 ^ 15 := by
    by_cases high : 2 ^ 15 ≤ q
    · rw [decide_eq_true high, Bool.toNat_true]
      omega
    · rw [decide_eq_false high, Bool.toNat_false]
      omega
  have halved : q % upperBitRubin * 2 / 2 ^ (16 - count) = q % 2 ^ 15 / 2 ^ rest := by
    rw [show 16 - count = rest + 1 by omega, Nat.pow_succ]
    exact Nat.mul_div_mul_right _ _ Nat.two_pos
  have whole : q = 2 ^ rest * (q / 2 ^ 15 * 2 ^ count) + q % 2 ^ 15 := by
    have power : 2 ^ rest * (q / 2 ^ 15 * 2 ^ count) = 2 ^ 15 * (q / 2 ^ 15) := by
      rw [Nat.mul_comm (q / 2 ^ 15), ← Nat.mul_assoc, ← Nat.pow_add, split]
    rw [power, Nat.div_add_mod]
  rw [top, halved, show 16 - (count + 1) = rest by omega]
  conv_rhs => rw [whole]
  rw [Nat.mul_add_div (Nat.two_pow_pos rest)]

/-- The flush writes the lower end of the interval behind the position. -/
theorem endRubin_spec (count : Nat) (rs : RubinState) (buf : List UInt8) (few : count ≤ 16)
    (small : rs.q < 2 ^ 16) (room : rs.pp.ofs + count ≤ rs.pp.buflen)
    (fits : rs.pp.buflen ≤ 8 * buf.length) (narrow : rs.pp.buflen < 2 ^ 32) :
    ∃ rs' buf', endRubin count rs buf = some (rs', buf') ∧ buf'.length = buf.length ∧
      rs'.pp.ofs = rs.pp.ofs + count ∧ SameBits rs.pp.ofs buf' buf ∧
      value (bitAt buf') rs.pp.ofs count = rs.q / 2 ^ (16 - count) := by
  induction count generalizing rs buf with
  | zero =>
    refine ⟨rs, buf, rfl, rfl, rfl, fun _ _ => rfl, ?_⟩
    show 0 = rs.q / 2 ^ 16
    omega
  | succ count ih =>
    have open_still : ¬ (rs.pp.buflen + 2 ^ 32 - if true then 0 else rs.pp.reserve) % 2 ^ 32 ≤
        rs.pp.ofs := by
      simp only [if_true]
      omega
    have inside : rs.pp.ofs < 8 * buf.length := by omega
    obtain ⟨buf₁, pushed, length, same, here⟩ :=
      pushbit_stores (rs.q.testBit 15) true inside open_still
    obtain ⟨rs', buf', done, length₂, ofs, same₂, written⟩ := ih
      { rs with
        q := rs.q % upperBitRubin * 2
        pp := { rs.pp with ofs := rs.pp.ofs + 1 } } buf₁ (by omega)
      (by show rs.q % 2 ^ 15 * 2 < 2 ^ 16; omega) (by simp only; omega) (by simp only; omega) narrow
    simp only at ofs same₂ written
    refine ⟨rs', buf', ?_, length₂.trans length, by omega,
      (same₂.less (Nat.le_succ _)).trans same, ?_⟩
    · rw [endRubin, pushed, bind_some]
      exact done
    · rw [BitStream.value_succ_left, written, same₂ _ (Nat.lt_succ_self _), here,
        testBit_top small, flushed_digits small (by omega)]

end MagxKernel.Jffs2
