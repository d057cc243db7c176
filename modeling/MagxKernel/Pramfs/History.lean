import MagxKernel.Pramfs.ReadBack

namespace MagxKernel.Pramfs

open Function List

section Bytes

variable {geo : Geometry} {ino last pos place : Nat} {fs fs₁ : Pram}
  {roles roles₁ : Nat → Option Role} {inode inode₁ : Inode} {inodes : Nat → Inode}
  {buf : List UInt8}

theorem Grows.bytes_kept (sound : Sound geo fs roles inodes ino inode)
    (grows : Grows geo ino last fs roles inode fs₁ roles₁ inode₁)
    (mapped : place / geo.blocksize < inode.iBlocks) :
    byteAt geo fs₁ inode₁ place = byteAt geo fs inode place := by
  have points := sound.here.find sound.owned mapped
  rw [byteAt, grows.kept _ mapped, grows.frame _ _ points (not_indexes_data _ _ _)]
  rfl

section

variable (sound : Sound geo fs roles inodes ino inode)

include sound

theorem Grows.bytes_other (grows : Grows geo ino last fs roles inode fs₁ roles₁ inode₁)
    {other : Nat} (different : other ≠ ino)
    (mapped : place / geo.blocksize < (inodes other).iBlocks) :
    byteAt geo fs₁ (inodes other) place = byteAt geo fs (inodes other) place := by
  have maps := sound.others other different
  have points := maps.find sound.owned mapped
  have same : ∀ word role, PointsTo geo roles word role → role.Indexes other →
      fs₁.block word = fs.block word := by
    intro word role reached indexes
    apply grows.frame word role reached
    exact fun also => different (indexes.unique also)
  rw [byteAt, maps.find_frame sound.owned same mapped,
    grows.frame _ _ points (not_indexes_data _ _ _)]
  rfl

theorem Wrote.bytes_here (wrote : Wrote geo ino fs roles inode pos buf fs₁)
    (mapped : place / geo.blocksize < inode.iBlocks) :
    byteAt geo fs₁ inode place =
      if pos ≤ place ∧ place < pos + buf.length then buf.getD (place - pos) 0
      else byteAt geo fs inode place := by
  have whole := Nat.div_add_mod' place geo.blocksize
  have bytes := wrote.bytes _ mapped _ (Nat.mod_lt place geo.blocksize_pos)
  rw [whole] at bytes
  rw [byteAt, wrote.find sound mapped, bytes]
  rfl

theorem Wrote.bytes_other (wrote : Wrote geo ino fs roles inode pos buf fs₁) {other : Nat}
    (different : other ≠ ino) (mapped : place / geo.blocksize < (inodes other).iBlocks) :
    byteAt geo fs₁ (inodes other) place = byteAt geo fs (inodes other) place := by
  have maps := sound.others other different
  have points := maps.find sound.owned mapped
  have apart : ∀ i, Role.data other (place / geo.blocksize) ≠ .data ino i := by
    intro i same
    injection same with equal
    exact different equal
  rw [byteAt, maps.find_frame sound.owned (fun word role reached indexes =>
    wrote.frame word role reached indexes.not_data) mapped, wrote.frame _ _ points apart]
  rfl

end

end Bytes

section Range

variable {bs offset length : Nat}

/-- The blocks that `pram_direct_IO` asks for end with the one of the last byte. -/
theorem numBlocks_spec (positive : 0 < bs) (some_bytes : 0 < length) {numBlocks : Nat}
    (number : numBlocks = (offset % bs + length + (bs - 1)) / bs) :
    1 ≤ numBlocks ∧ offset / bs + numBlocks - 1 = (offset + length - 1) / bs ∧
      offset + length ≤ (offset / bs + numBlocks) * bs := by
  have whole := Nat.div_add_mod' offset bs
  have division := Nat.div_add_mod' (offset % bs + length + (bs - 1)) bs
  have remainder := Nat.mod_lt (offset % bs + length + (bs - 1)) positive
  rw [← number] at division
  have some_blocks : 1 ≤ numBlocks := by
    rw [number]
    exact (Nat.le_div_iff_mul_le positive).mpr (by omega)
  have up : (offset / bs + numBlocks) * bs = offset / bs * bs + numBlocks * bs := Nat.add_mul _ _ _
  refine ⟨some_blocks, ?_, by omega⟩
  symm
  apply Nat.div_eq_of_lt_le
  · rw [Nat.sub_mul, Nat.one_mul, up]
    omega
  · rw [Nat.succ_mul, Nat.sub_mul, Nat.one_mul, up]
    omega

end Range

/-- A write of some bytes begins at or before the end of the file, or the bytes between are
clear: those that are mapped already hold zero, and the others do not lie in the last block
written. -/
def Op.Covered (geo : Geometry) (volume : Volume) : Op → Prop
  | .write memory ino offset buf => memory = true → 0 < buf.length →
    ∀ place, (volume.inodes ino).iSize ≤ place → place < offset →
      if pramFindDataBlock geo volume.fs (volume.inodes ino) (place / geo.blocksize) ≠ 0 then
        byteAt geo volume.fs (volume.inodes ino) place = 0
      else place / geo.blocksize ≠ (offset + buf.length - 1) / geo.blocksize
  | .read _ _ _ => True

/-- Offsets and lengths are in the range of the block pointers, and of the file sizes that
the callers let through. -/
def Op.InRange (geo : Geometry) : Op → Prop
  | .write _ _ offset buf =>
      offset + buf.length ≤ geo.pointers * geo.pointers * geo.blocksize ∧
        offset + buf.length < 2 ^ 31
  | .read _ _ _ => True

/-- The files hold what was written. -/
structure Faithful (geo : Geometry) (volume : Volume) : Prop where
  sound : ∃ roles, Owned geo volume.fs roles ∧
    ∀ ino, Maps geo volume.fs roles ino (volume.inodes ino)
  size : ∀ ino, (volume.inodes ino).iSize ≤ (volume.inodes ino).iBlocks * geo.blocksize
  history : ∀ entry ∈ volume.history,
    entry.offset + entry.buf.length ≤ (volume.inodes entry.ino).iSize
  bytes : ∀ ino place, place < (volume.inodes ino).iSize →
    byteAt geo volume.fs (volume.inodes ino) place = lastWritten volume.history ino place

section History

variable {history : List Written} {ino place : Nat}

theorem lastWritten_cons (entry : Written) (history : List Written) (ino place : Nat) :
    lastWritten (entry :: history) ino place =
      if entry.ino = ino ∧ entry.offset ≤ place ∧ place < entry.offset + entry.buf.length then
        entry.buf.getD (place - entry.offset) 0
      else lastWritten history ino place := by
  unfold lastWritten
  rw [find?_cons]
  by_cases covers : entry.ino = ino ∧ entry.offset ≤ place ∧
      place < entry.offset + entry.buf.length
  · simp [covers]
  · rw [if_neg covers]
    simp only [covers, decide_false]

theorem lastWritten_beyond (past : ∀ entry ∈ history, entry.ino = ino →
    entry.offset + entry.buf.length ≤ place) : lastWritten history ino place = 0 := by
  induction history with
  | nil => rfl
  | cons entry history ih =>
    rw [lastWritten_cons, if_neg]
    · exact ih (forall_mem_cons.mp past).2
    · intro covers
      have ends := past entry mem_cons_self covers.1
      omega

end History

section Runs

variable {geo : Geometry} {volume : Volume}

section

variable (faithful : Faithful geo volume) {roles roles₁ : Nat → Option Role}

include faithful

theorem Faithful.soundAt (ino : Nat) :
    ∃ roles, Sound geo volume.fs roles volume.inodes ino (volume.inodes ino) := by
  obtain ⟨roles, owned, maps⟩ := faithful.sound
  exact ⟨roles, owned, maps ino, fun other _ => maps other⟩

/-- Bytes of a file are in mapped blocks. -/
theorem Faithful.mapped {ino place : Nat} (inside : place < (volume.inodes ino).iSize) :
    place / geo.blocksize < (volume.inodes ino).iBlocks := by
  have size := faithful.size ino
  exact (Nat.div_lt_iff_lt_mul geo.blocksize_pos).mpr (by omega)

/-- A write fails with some blocks mapped, or it maps all its blocks and fills them. -/
theorem pramDirectIOWrite_spec (memory : Bool) (ino offset : Nat) (buf : List UInt8)
    (fits : offset + buf.length ≤ geo.pointers * geo.pointers * geo.blocksize) :
    ∃ roles roles₁ fs₁ inode₁, Sound geo volume.fs roles volume.inodes ino (volume.inodes ino) ∧
      Grows geo ino ((offset + buf.length - 1) / geo.blocksize) volume.fs roles (volume.inodes ino)
        fs₁ roles₁ inode₁ ∧
      Sound geo fs₁ roles₁ volume.inodes ino inode₁ ∧
      ((∃ ret ≤ 0, pramDirectIOWrite geo memory volume.fs (volume.inodes ino) offset buf =
          some (ret, fs₁, inode₁)) ∨
        (memory = true ∧ 0 < buf.length) ∧
          offset + buf.length ≤ inode₁.iBlocks * geo.blocksize ∧
            ∃ fs₂, pramDirectIOWrite geo memory volume.fs (volume.inodes ino) offset buf =
              some ((buf.length : Int), fs₂, inode₁) ∧
            Wrote geo ino fs₁ roles₁ inode₁ offset buf fs₂) := by
  obtain ⟨roles, sound⟩ := faithful.soundAt ino
  unfold pramDirectIOWrite
  split
  · exact ⟨roles, roles, _, _, sound, Grows.refl, sound, .inl ⟨0, Int.le_refl 0, rfl⟩⟩
  by_cases none_left : memory = false
  · rw [if_pos none_left]
    exact ⟨roles, roles, _, _, sound, Grows.refl, sound, .inl ⟨enomem, by decide, rfl⟩⟩
  rw [if_neg none_left]
  generalize number : (offset % geo.blocksize + buf.length + (geo.blocksize - 1)) / geo.blocksize =
    numBlocks
  obtain ⟨some_blocks, last, covers⟩ :=
    numBlocks_spec geo.blocksize_pos (show 0 < buf.length by omega) number.symm
  have inside : (offset + buf.length - 1) / geo.blocksize < geo.pointers * geo.pointers :=
    (Nat.div_lt_iff_lt_mul geo.blocksize_pos).mpr (by omega)
  obtain ⟨roles₁, grows, sound₁, filled⟩ := @pramAllocBlocks_spec geo ino volume.fs
    (volume.inodes ino) roles volume.inodes sound (offset / geo.blocksize) numBlocks some_blocks
    (by omega)
  rw [last] at grows
  by_cases failed : (pramAllocBlocks geo volume.fs (volume.inodes ino) (offset / geo.blocksize)
      numBlocks).done = false
  · rw [if_pos failed]
    exact ⟨roles, roles₁, _, _, sound, grows, sound₁, .inl ⟨enospc, by decide, rfl⟩⟩
  · rw [if_neg failed]
    have room := Nat.mul_le_mul_right geo.blocksize (filled (eq_true_of_ne_false failed))
    have place := Nat.div_add_mod' offset geo.blocksize
    obtain ⟨fs₂, run, wrote⟩ := writeBlocks_spec (buf.length + 1) (offset / geo.blocksize)
      (offset % geo.blocksize) buf _ sound₁ (Nat.lt_succ_self _) (Nat.mod_lt _ geo.blocksize_pos)
      (by omega)
    rw [place] at wrote
    refine ⟨roles, roles₁, _, _, sound, grows, sound₁,
      .inr ⟨⟨?_, by omega⟩, by omega, fs₂, ?_, wrote⟩⟩
    · exact eq_true_of_ne_false none_left
    · rw [run]
      rfl

/-- Files with the same blocks keep their contents when only blocks are added to them. -/
theorem Faithful.grow {ino last : Nat} {fs₁ : Pram} {inode₁ : Inode}
    (sound : Sound geo volume.fs roles volume.inodes ino (volume.inodes ino))
    (grows : Grows geo ino last volume.fs roles (volume.inodes ino) fs₁ roles₁ inode₁)
    (sound₁ : Sound geo fs₁ roles₁ volume.inodes ino inode₁) :
    Faithful geo ⟨fs₁, update volume.inodes ino inode₁, volume.history⟩ := by
  have size := grows.size
  have count := Nat.mul_le_mul_right geo.blocksize grows.count
  constructor
  · refine ⟨roles₁, sound₁.owned, ?_⟩
    exact (forall_update_iff _ (Maps geo fs₁ roles₁)).mpr ⟨sound₁.here, sound₁.others⟩
  · apply (forall_update_iff volume.inodes fun _ inode =>
      inode.iSize ≤ inode.iBlocks * geo.blocksize).mpr
    refine ⟨?_, fun other _ => faithful.size other⟩
    have before := faithful.size ino
    omega
  · intro entry found
    apply Nat.le_trans (faithful.history entry found)
    apply (forall_update_iff volume.inodes fun other inode =>
      (volume.inodes other).iSize ≤ inode.iSize).mpr
    exact ⟨Nat.le_of_eq size.symm, fun _ _ => Nat.le_refl _⟩
  · intro other place inside
    by_cases same : other = ino
    · subst same
      simp only [update_self] at inside ⊢
      rw [size] at inside
      rw [grows.bytes_kept sound (faithful.mapped inside)]
      exact faithful.bytes other place inside
    · simp only [update_of_ne same] at inside ⊢
      rw [grows.bytes_other sound same (faithful.mapped inside)]
      exact faithful.bytes other place inside

/-- A write that succeeds adds what it wrote and clears what it skipped. -/
theorem Faithful.write {ino offset : Nat} {buf : List UInt8}
    (covered : (Op.write true ino offset buf).Covered geo volume) (some_bytes : 0 < buf.length)
    (fits : offset + buf.length ≤ geo.pointers * geo.pointers * geo.blocksize) {fs₁ fs₂ : Pram}
    {inode₁ : Inode} (sound : Sound geo volume.fs roles volume.inodes ino (volume.inodes ino))
    (grows : Grows geo ino ((offset + buf.length - 1) / geo.blocksize) volume.fs roles
      (volume.inodes ino) fs₁ roles₁ inode₁)
    (sound₁ : Sound geo fs₁ roles₁ volume.inodes ino inode₁)
    (room : offset + buf.length ≤ inode₁.iBlocks * geo.blocksize)
    (wrote : Wrote geo ino fs₁ roles₁ inode₁ offset buf fs₂) :
    Faithful geo ⟨fs₂, update volume.inodes ino
        { inode₁ with
          iSize := if inode₁.iSize < offset + buf.length then offset + buf.length
            else inode₁.iSize },
      ⟨ino, offset, buf⟩ :: volume.history⟩ := by
  have size := grows.size
  have count := Nat.mul_le_mul_right geo.blocksize grows.count
  have sound₂ := wrote.sound sound₁
  have before := faithful.size ino
  generalize new_size : (if inode₁.iSize < offset + buf.length then offset + buf.length
    else inode₁.iSize) = newSize
  have bounds : (volume.inodes ino).iSize ≤ newSize ∧ offset + buf.length ≤ newSize ∧
      newSize ≤ inode₁.iBlocks * geo.blocksize ∧
      (newSize = offset + buf.length ∨ newSize = (volume.inodes ino).iSize) := by
    rw [← new_size, ← size]
    split <;> omega
  -- what the bytes behind the old end are before the data goes in
  have skipped : ∀ place, (volume.inodes ino).iSize ≤ place → place < offset →
      byteAt geo fs₁ inode₁ place = 0 := by
    intro place past early
    have clear := covered rfl some_bytes place past early
    have inside : place / geo.blocksize < geo.pointers * geo.pointers :=
      (Nat.div_lt_iff_lt_mul geo.blocksize_pos).mpr (by omega)
    have mapped₁ : place / geo.blocksize < inode₁.iBlocks :=
      (Nat.div_lt_iff_lt_mul geo.blocksize_pos).mpr (by omega)
    by_cases mapped : place / geo.blocksize < (volume.inodes ino).iBlocks
    · rw [if_pos ((sound.here.find sound.owned mapped).ne_zero sound.owned)] at clear
      rw [grows.bytes_kept sound mapped]
      exact clear
    · have none_there := sound.here.find_zero sound.owned (by omega) inside
      rw [if_neg (not_not.mpr none_there)] at clear
      rw [byteAt, grows.fresh _ (by omega) mapped₁ clear]
  constructor
  · refine ⟨roles₁, sound₂.owned, ?_⟩
    exact (forall_update_iff _ (Maps geo fs₂ roles₁)).mpr ⟨{ sound₂.here with }, sound₂.others⟩
  · apply (forall_update_iff volume.inodes fun _ inode =>
      inode.iSize ≤ inode.iBlocks * geo.blocksize).mpr
    exact ⟨bounds.2.2.1, fun other _ => faithful.size other⟩
  · intro entry found
    rcases mem_cons.mp found with rfl | earlier
    · simp only [update_self]
      exact bounds.2.1
    · apply Nat.le_trans (faithful.history entry earlier)
      apply (forall_update_iff volume.inodes fun other inode =>
        (volume.inodes other).iSize ≤ inode.iSize).mpr
      exact ⟨bounds.1, fun _ _ => Nat.le_refl _⟩
  · intro other place inside
    rw [lastWritten_cons]
    by_cases same : other = ino
    · subst same
      simp only [update_self] at inside ⊢
      have mapped₁ : place / geo.blocksize < inode₁.iBlocks :=
        (Nat.div_lt_iff_lt_mul geo.blocksize_pos).mpr (by omega)
      show byteAt geo fs₂ inode₁ place = _
      rw [wrote.bytes_here sound₁ mapped₁]
      split
      · rename_i written
        rw [if_pos ⟨trivial, written⟩]
      · rename_i written
        rw [if_neg fun all => written all.2]
        by_cases old : place < (volume.inodes other).iSize
        · rw [grows.bytes_kept sound (faithful.mapped old)]
          exact faithful.bytes other place old
        · have never : lastWritten volume.history other place = 0 := by
            apply lastWritten_beyond
            intro entry found own
            have ends := faithful.history entry found
            rw [own] at ends
            omega
          rw [never]
          exact skipped place (by omega) (by omega)
    · simp only [update_of_ne same] at inside ⊢
      have mapped := faithful.mapped inside
      rw [wrote.bytes_other sound₁ same mapped, grows.bytes_other sound same mapped,
        if_neg fun all => same all.1.symm]
      exact faithful.bytes other place inside

end

theorem readBlocks_total (geo : Geometry) (fs : Pram) (inode : Inode)
    (fuel blocknr blockoff length : Nat) (enough : length < fuel)
    (within : blockoff < geo.blocksize) :
    ∃ result, readBlocks geo fs inode fuel blocknr blockoff length = some result := by
  induction fuel generalizing blocknr blockoff length with
  | zero => omega
  | succ fuel ih =>
    simp only [readBlocks]
    split
    · exact ⟨_, rfl⟩
    · split
      · exact ⟨_, rfl⟩
      · have turn := turnCount_spec within (show 0 < length by omega)
        obtain ⟨rest, done⟩ := ih (blocknr + 1) 0 (length - turnCount geo blockoff length)
          (by omega) geo.blocksize_pos
        rw [done]
        exact ⟨_, rfl⟩

theorem pramDirectIORead_total (geo : Geometry) (fs : Pram) (inode : Inode) (offset length : Nat) :
    ∃ result, pramDirectIORead geo fs inode offset length = some result := by
  simp only [pramDirectIORead]
  generalize (if inode.iSize < offset + length then (inode.iSize + 2 ^ 32 - offset) % 2 ^ 32
    else length) = length'
  split
  · exact ⟨_, rfl⟩
  · obtain ⟨result, done⟩ := readBlocks_total geo fs inode (length' + 1) (offset / geo.blocksize)
      (offset % geo.blocksize) length' (Nat.lt_succ_self _) (Nat.mod_lt _ geo.blocksize_pos)
    rw [done]
    exact ⟨_, rfl⟩

theorem Faithful.read (faithful : Faithful geo volume) {ino offset length : Nat}
    (inside : offset + length ≤ (volume.inodes ino).iSize) :
    pramDirectIORead geo volume.fs (volume.inodes ino) offset length =
      some ((length : Int), (List.range length).map fun index =>
        lastWritten volume.history ino (offset + index)) := by
  obtain ⟨roles, sound⟩ := faithful.soundAt ino
  have size := faithful.size ino
  have place := Nat.div_add_mod' offset geo.blocksize
  simp only [pramDirectIORead]
  rw [if_neg (show ¬ (volume.inodes ino).iSize < offset + length by omega)]
  split
  · rename_i empty
    rw [empty]
    rfl
  rw [readBlocks_spec (fun i mapped =>
    (sound.here.find sound.owned mapped).ne_zero sound.owned) (length + 1)
    (offset / geo.blocksize) (offset % geo.blocksize) length (Nat.lt_succ_self _)
    (Nat.mod_lt _ geo.blocksize_pos) (by omega), place, Option.map_some]
  have same : ((List.range length).map fun index =>
      byteAt geo volume.fs (volume.inodes ino) (offset + index)) =
      (List.range length).map fun index => lastWritten volume.history ino (offset + index) := by
    apply map_congr_left
    intro index low
    have small : index < length := mem_range.mp low
    exact faithful.bytes ino (offset + index) (by omega)
  rw [same]
  rfl

theorem step_faithful (faithful : Faithful geo volume) {op : Op}
    (allowed : op.InRange geo ∧ op.Covered geo volume) :
    ∃ next, step geo volume op = some next ∧ Faithful geo next := by
  cases op with
  | read ino offset length =>
    obtain ⟨result, done⟩ := pramDirectIORead_total geo volume.fs (volume.inodes ino) offset length
    refine ⟨volume, ?_, faithful⟩
    rw [step, done]
    rfl
  | write memory ino offset buf =>
    obtain ⟨roles, roles₁, fs₁, inode₁, sound, grows, sound₁, outcome⟩ :=
      pramDirectIOWrite_spec faithful memory ino offset buf allowed.1.1
    rcases outcome with ⟨ret, low, failed⟩ | ⟨⟨rfl, some_bytes⟩, room, fs₂, done, wrote⟩
    · refine ⟨_, ?_, faithful.grow sound grows sound₁⟩
      rw [step, failed]
      simp [if_neg (show ¬ 0 < ret by omega),
        if_neg fun both : 0 < ret ∧ inode₁.iSize < offset + ret.toNat => absurd both.1 (by omega)]
    · refine ⟨_, ?_, faithful.write allowed.2 some_bytes allowed.1.1 sound grows sound₁ room wrote⟩
      rw [step, done]
      simp only [Option.map_some, Int.toNat_natCast,
        show (0 : Int) < (buf.length : Int) by omega, true_and, if_true]

/-- On files that begin empty, as long as every write covers what it skips, a read gives
for each byte the value last written, and zero if there is none. -/
theorem pramDirectIO_readsBack (geo : Geometry) (fs : Pram) (ops : List Op)
    (allowed : Runs.Along (step geo) (fun volume op => op.InRange geo ∧ op.Covered geo volume)
      ⟨fs, fun _ => ⟨0, 0, 0, 0⟩, []⟩ ops) :
    ∃ volume, Runs.run (step geo) ⟨fs, fun _ => ⟨0, 0, 0, 0⟩, []⟩ ops = some volume ∧
      ∀ ino offset length, offset + length ≤ (volume.inodes ino).iSize →
        pramDirectIORead geo volume.fs (volume.inodes ino) offset length =
          some ((length : Int), (List.range length).map fun index =>
            lastWritten volume.history ino (offset + index)) := by
  have start : Faithful geo ⟨fs, fun _ => ⟨0, 0, 0, 0⟩, []⟩ := by
    refine ⟨⟨fun _ => none, fun _ _ use => (by cases use), ?_⟩, fun _ => Nat.zero_le _,
      fun _ found => (by cases found), fun _ _ inside => (by cases inside)⟩
    exact fun ino => ⟨Nat.zero_le _, .inl ⟨rfl, rfl⟩⟩
  obtain ⟨volume, executed, faithful⟩ := Runs.run_total
    (fun volume op before permitted => step_faithful before permitted) ops _ start allowed
  refine ⟨volume, executed, ?_⟩
  intro ino offset length inside
  exact faithful.read inside

end Runs

/-- Fifteen free blocks with old data in them. -/
def usedVolume : Volume :=
  ⟨⟨15, 1, fun b => b < 1, fun _ _ => 0xaa⟩, fun _ => ⟨0, 0, 0, 0⟩, []⟩

theorem pramDirectIO_readsBack_twoFiles :
    ∃ volume, Runs.run (step smallGeometry) usedVolume
        [.write true 0 0 [1, 2, 3], .write true 1 0 [4]] = some volume ∧
      ∀ ino offset length, offset + length ≤ (volume.inodes ino).iSize →
        pramDirectIORead smallGeometry volume.fs (volume.inodes ino) offset length =
          some ((length : Int), (List.range length).map fun index =>
            lastWritten volume.history ino (offset + index)) := by
  apply pramDirectIO_readsBack
  exact ⟨⟨⟨by decide, by decide⟩, fun _ _ _ _ early => absurd early (Nat.not_lt_zero _)⟩, fun _ _ =>
    ⟨⟨⟨by decide, by decide⟩, fun _ _ _ _ early => absurd early (Nat.not_lt_zero _)⟩,
      fun _ _ => trivial⟩⟩

/-- One byte written at offset 5 of an empty file: the bytes in front of it are those of the
block's last owner. -/
theorem pramDirectIO_showsOldData :
    ∃ volume, Runs.run (step smallGeometry) usedVolume [.write true 0 5 [7]] = some volume ∧
      (volume.inodes 0).iSize = 6 ∧ lastWritten volume.history 0 0 = 0 ∧
      pramDirectIORead smallGeometry volume.fs (volume.inodes 0) 0 1 = some (1, [0xaa]) :=
  ⟨_, rfl, rfl, rfl, rfl⟩

end MagxKernel.Pramfs
