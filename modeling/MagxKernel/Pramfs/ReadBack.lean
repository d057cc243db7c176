import MagxKernel.Pramfs.DirectIo

namespace MagxKernel.Pramfs

open List Function

theorem Geometry.blocksize_pos (geo : Geometry) : 0 < geo.blocksize := Nat.two_pow_pos _

section Turn

variable {geo : Geometry} {blockoff length : Nat}

/-- A turn stays in its block, and goes to its end when there is more to do. -/
theorem turnCount_spec (within : blockoff < geo.blocksize) (some_left : 0 < length) :
    0 < turnCount geo blockoff length ∧ turnCount geo blockoff length ≤ length ∧
      blockoff + turnCount geo blockoff length ≤ geo.blocksize ∧
      (turnCount geo blockoff length < length →
        blockoff + turnCount geo blockoff length = geo.blocksize) := by
  unfold turnCount
  split <;> omega

end Turn

/-- The byte of a file at a place. -/
def byteAt (geo : Geometry) (fs : Pram) (inode : Inode) (place : Nat) : UInt8 :=
  fs.block (pramFindDataBlock geo fs inode (place / geo.blocksize)) (place % geo.blocksize)

section Read

variable {geo : Geometry} {fs : Pram} {inode : Inode}

theorem byteAt_index (i : Nat) {place : Nat} (within : place < geo.blocksize) :
    byteAt geo fs inode (i * geo.blocksize + place) =
      fs.block (pramFindDataBlock geo fs inode i) place := by
  rw [byteAt, index_div within, index_mod within]

theorem readBlocks_spec (mapped : ∀ i < inode.iBlocks, pramFindDataBlock geo fs inode i ≠ 0)
    (fuel blocknr blockoff length : Nat) (enough : length < fuel)
    (within : blockoff < geo.blocksize)
    (inside : blocknr * geo.blocksize + blockoff + length ≤ inode.iBlocks * geo.blocksize) :
    readBlocks geo fs inode fuel blocknr blockoff length = some (true,
      (List.range length).map fun index =>
        byteAt geo fs inode (blocknr * geo.blocksize + blockoff + index)) := by
  induction fuel generalizing blocknr blockoff length with
  | zero => omega
  | succ fuel ih =>
    simp only [readBlocks]
    by_cases done : length = 0
    · rw [if_pos done, done]
      rfl
    have below : blocknr < inode.iBlocks :=
      Nat.lt_of_mul_lt_mul_right (show blocknr * geo.blocksize < inode.iBlocks * geo.blocksize by
        omega)
    obtain ⟨positive, less, fits, more⟩ := turnCount_spec within (show 0 < length by omega)
    generalize turnCount geo blockoff length = count at positive less fits more
    have here : fs.copyOut (pramFindDataBlock geo fs inode blocknr) blockoff count =
        (List.range count).map fun index =>
          byteAt geo fs inode (blocknr * geo.blocksize + blockoff + index) := by
      apply map_congr_left
      intro index low
      have small : index < count := mem_range.mp low
      rw [Nat.add_assoc, byteAt_index blocknr (by omega)]
    rw [if_neg done, if_neg (mapped blocknr below), here]
    -- what is left begins with the next block
    have rest : readBlocks geo fs inode fuel (blocknr + 1) 0 (length - count) = some (true,
        (List.range (length - count)).map fun index =>
          byteAt geo fs inode (blocknr * geo.blocksize + blockoff + (count + index))) := by
      by_cases last : length - count = 0
      · rw [last, ih (blocknr + 1) 0 0 (by omega) geo.blocksize_pos]
        · rfl
        · have up := Nat.mul_le_mul_right geo.blocksize (show blocknr + 1 ≤ inode.iBlocks by omega)
          omega
      · have next : (blocknr + 1) * geo.blocksize = blocknr * geo.blocksize + blockoff + count := by
          rw [Nat.succ_mul]
          omega
        rw [ih (blocknr + 1) 0 (length - count) (by omega) geo.blocksize_pos (by omega), next]
        simp [Nat.add_assoc]
    have whole : List.range length =
        List.range count ++ (List.range (length - count)).map fun index => count + index := by
      rw [← range_add]
      congr 1
      omega
    rw [rest, Option.map_some, whole, map_append, map_map]
    rfl

end Read

/-- What a write to file `ino` at `pos` does to the blocks: only data blocks of the file
change, and those only in the range that is written. -/
structure Wrote (geo : Geometry) (ino : Nat) (fs : Pram) (roles : Nat → Option Role)
    (inode : Inode) (pos : Nat) (buf : List UInt8) (fs' : Pram) : Prop where
  bitmap : fs'.bitmap = fs.bitmap
  frame : ∀ word role, PointsTo geo roles word role → (∀ i, role ≠ .data ino i) →
    fs'.block word = fs.block word
  bytes : ∀ i < inode.iBlocks, ∀ place < geo.blocksize,
    fs'.block (pramFindDataBlock geo fs inode i) place =
      if pos ≤ i * geo.blocksize + place ∧ i * geo.blocksize + place < pos + buf.length then
        buf.getD (i * geo.blocksize + place - pos) 0
      else fs.block (pramFindDataBlock geo fs inode i) place

section Write

variable {geo : Geometry} {ino pos : Nat} {fs fs₁ fs₂ : Pram} {roles : Nat → Option Role}
  {inode : Inode} {inodes : Nat → Inode} {buf : List UInt8}

theorem Role.Indexes.not_data {other : Nat} {role : Role} (indexes : role.Indexes other) (i : Nat) :
    role ≠ .data ino i :=
  fun same => not_indexes_data _ _ _ (same ▸ indexes)

theorem Wrote.nil (geo : Geometry) (ino : Nat) (fs : Pram) (roles : Nat → Option Role)
    (inode : Inode) (pos : Nat) : Wrote geo ino fs roles inode pos [] fs := by
  refine ⟨rfl, fun _ _ _ _ => rfl, ?_⟩
  intro i _ place _
  rw [if_neg]
  rw [length_nil]
  omega

theorem Wrote.sound (wrote : Wrote geo ino fs roles inode pos buf fs₁)
    (sound : Sound geo fs roles inodes ino inode) : Sound geo fs₁ roles inodes ino inode := by
  have kept : ∀ other, ∀ word role, PointsTo geo roles word role → role.Indexes other →
      fs₁.block word = fs.block word :=
    fun other word role points indexes => wrote.frame word role points indexes.not_data
  refine ⟨?_, sound.here.frame (fun _ _ use => use) (kept ino), ?_⟩
  · intro b role use
    rw [wrote.bitmap]
    exact sound.owned b role use
  · intro other different
    exact (sound.others other different).frame (fun _ _ use => use) (kept other)

section

variable (wrote : Wrote geo ino fs roles inode pos buf fs₁)
  (sound : Sound geo fs roles inodes ino inode)

include wrote sound

theorem Wrote.find {i : Nat} (mapped : i < inode.iBlocks) :
    pramFindDataBlock geo fs₁ inode i = pramFindDataBlock geo fs inode i :=
  sound.here.find_frame sound.owned
    (fun word role points indexes => wrote.frame word role points indexes.not_data) mapped

theorem Wrote.append {second : List UInt8}
    (then_wrote : Wrote geo ino fs₁ roles inode (pos + buf.length) second fs₂) :
    Wrote geo ino fs roles inode pos (buf ++ second) fs₂ := by
  refine ⟨then_wrote.bitmap.trans wrote.bitmap, ?_, ?_⟩
  · intro word role points plain
    rw [then_wrote.frame word role points plain, wrote.frame word role points plain]
  · intro i mapped place within
    have later := then_wrote.bytes i mapped place within
    rw [wrote.find sound mapped] at later
    rw [later, wrote.bytes i mapped place within, length_append]
    generalize i * geo.blocksize + place = spot
    simp only [getD_eq_getElem?_getD]
    by_cases behind : pos + buf.length ≤ spot
    · by_cases inside : spot < pos + buf.length + second.length
      · rw [if_pos ⟨behind, inside⟩, if_pos (by omega), getElem?_append_right (by omega),
          Nat.sub_add_eq]
      · rw [if_neg (by omega), if_neg (by omega), if_neg (by omega)]
    · rw [if_neg (by omega)]
      by_cases inside : pos ≤ spot
      · rw [if_pos (by omega), if_pos (by omega), getElem?_append_left (by omega)]
      · rw [if_neg (by omega), if_neg (by omega)]

end

theorem copyIn_wrote (sound : Sound geo fs roles inodes ino inode) {blocknr blockoff : Nat}
    (mapped : blocknr < inode.iBlocks) (fits : blockoff + buf.length ≤ geo.blocksize) :
    Wrote geo ino fs roles inode (blocknr * geo.blocksize + blockoff) buf
      (fs.copyIn (pramFindDataBlock geo fs inode blocknr) blockoff buf) := by
  have here := sound.here.find sound.owned mapped
  refine ⟨rfl, ?_, ?_⟩
  · intro word role points plain
    apply update_of_ne
    intro same
    rw [same] at points
    exact plain blocknr (points.role_eq sound.owned here)
  · intro i below place within
    by_cases same : i = blocknr
    · subst same
      simp only [Pram.copyIn, update_self]
      have range : (blockoff ≤ place ∧ place < blockoff + buf.length) ↔
          i * geo.blocksize + blockoff ≤ i * geo.blocksize + place ∧
            i * geo.blocksize + place < i * geo.blocksize + blockoff + buf.length := by omega
      have shift : i * geo.blocksize + place - (i * geo.blocksize + blockoff) =
          place - blockoff := by
        omega
      rw [shift]
      simp only [range]
    · have other := sound.here.find sound.owned below
      have apart : pramFindDataBlock geo fs inode i ≠ pramFindDataBlock geo fs inode blocknr := by
        intro equal
        rw [equal] at other
        have uses := other.role_eq sound.owned here
        injection uses with _ equal_index
        exact same equal_index
      simp only [Pram.copyIn]
      rw [update_of_ne apart, if_neg]
      -- another block begins or ends outside the range
      rcases Nat.lt_or_gt_of_ne same with before | after
      · have step := Nat.mul_le_mul_right geo.blocksize before
        rw [Nat.succ_mul] at step
        omega
      · have step := Nat.mul_le_mul_right geo.blocksize after
        rw [Nat.succ_mul] at step
        omega

theorem writeBlocks_spec (fuel blocknr blockoff : Nat) (buf : List UInt8) (fs : Pram)
    (sound : Sound geo fs roles inodes ino inode) (enough : buf.length < fuel)
    (within : blockoff < geo.blocksize)
    (inside : blocknr * geo.blocksize + blockoff + buf.length ≤ inode.iBlocks * geo.blocksize) :
    ∃ fs', writeBlocks geo inode fuel blocknr blockoff buf fs = some (true, fs') ∧
      Wrote geo ino fs roles inode (blocknr * geo.blocksize + blockoff) buf fs' := by
  induction fuel generalizing blocknr blockoff buf fs with
  | zero => omega
  | succ fuel ih =>
    simp only [writeBlocks]
    by_cases done : buf.length = 0
    · rw [if_pos done, eq_nil_of_length_eq_zero done]
      exact ⟨fs, rfl, Wrote.nil _ _ _ _ _ _⟩
    have below : blocknr < inode.iBlocks :=
      Nat.lt_of_mul_lt_mul_right (show blocknr * geo.blocksize < inode.iBlocks * geo.blocksize by
        omega)
    obtain ⟨positive, less, fits, more⟩ := turnCount_spec within (show 0 < buf.length by omega)
    generalize turnCount geo blockoff buf.length = count at positive less fits more
    have mapped := (sound.here.find sound.owned below).ne_zero sound.owned
    have taken : (buf.take count).length = count := by
      rw [length_take]
      omega
    have rest_length : (buf.drop count).length = buf.length - count := length_drop
    have wrote := @copyIn_wrote geo ino fs roles inode inodes
      (buf.take count) sound blocknr blockoff
      below (by omega)
    rw [if_neg done, if_neg mapped]
    have up := Nat.mul_le_mul_right geo.blocksize (show blocknr + 1 ≤ inode.iBlocks by omega)
    obtain ⟨fs', run, rest⟩ := ih (blocknr + 1) 0 (buf.drop count) _ (wrote.sound sound) (by omega)
      geo.blocksize_pos (by
        by_cases last : buf.length - count = 0
        · omega
        · rw [Nat.succ_mul] at up ⊢
          omega)
    refine ⟨fs', run, ?_⟩
    have whole : Wrote geo ino fs roles inode (blocknr * geo.blocksize + blockoff)
        (buf.take count ++ buf.drop count) fs' := by
      apply wrote.append sound
      by_cases last : buf.length - count = 0
      · have empty : buf.drop count = [] := eq_nil_of_length_eq_zero (by omega)
        rw [empty] at rest ⊢
        refine { rest with bytes := ?_ }
        intro i known place spot
        rw [rest.bytes i known place spot]
        simp only [length_nil]
        rw [if_neg (by omega), if_neg (by omega)]
      · rw [taken]
        rw [show (blocknr + 1) * geo.blocksize + 0 =
          blocknr * geo.blocksize + blockoff + count by rw [Nat.succ_mul]; omega] at rest
        exact rest
    rw [take_append_drop] at whole
    exact whole

end Write

end MagxKernel.Pramfs
