import MagxKernel.Pramfs.Tables

namespace MagxKernel.Pramfs

open MachineInt Function Option

/-- The row block and the column blocks of a file. -/
def Role.Indexes (ino : Nat) (role : Role) : Prop := role = .row ino ∨ ∃ r, role = .column ino r

/-- The tables of file `ino` and of all the others. -/
structure Sound (geo : Geometry) (fs : Pram) (roles : Nat → Option Role) (inodes : Nat → Inode)
    (ino : Nat) (inode : Inode) : Prop where
  owned : Owned geo fs roles
  here : Maps geo fs roles ino inode
  others : ∀ other, other ≠ ino → Maps geo fs roles other (inodes other)

variable {word : Nat}

section Frame

variable {geo : Geometry} {fs fs' : Pram} {roles roles' : Nat → Option Role} {ino row n : Nat}

theorem PointsTo.mono {role : Role} (points : PointsTo geo roles word role)
    (uses : ∀ b role, roles b = some role → roles' b = some role) :
    PointsTo geo roles' word role := by
  obtain ⟨b, use, rfl⟩ := points
  exact ⟨b, uses b role use, rfl⟩

theorem pointer_congr (same : fs'.block word = fs.block word) (place : Nat) :
    fs'.pointer word place = fs.pointer word place :=
  congrArg (loadWord · place) same

/-- A file keeps its tables when its index blocks keep their pointers. -/
theorem Maps.frame {inode : Inode} (maps : Maps geo fs roles ino inode)
    (uses : ∀ b role, roles b = some role → roles' b = some role)
    (same : ∀ word role, PointsTo geo roles word role → role.Indexes ino →
      fs'.block word = fs.block word) : Maps geo fs' roles' ino inode := by
  refine ⟨maps.count, ?_⟩
  rcases maps.row with empty | ⟨rows, tables⟩
  · exact .inl empty
  have row_same := pointer_congr (same _ _ rows (.inl rfl))
  have column_same : ∀ r < geo.pointers, fs.pointer inode.rowBlock r ≠ 0 → ∀ j,
      fs'.pointer (fs.pointer inode.rowBlock r) j = fs.pointer (fs.pointer inode.rowBlock r) j := by
    intro r small mapped j
    have column := (tables.columns r small).resolve_left mapped
    exact pointer_congr (same _ _ column (.inr ⟨r, rfl⟩)) j
  refine .inr ⟨rows.mono uses, ?_⟩
  constructor
  · intro r small
    rw [row_same]
    exact (tables.columns r small).imp id fun column => column.mono uses
  · intro r small below
    rw [row_same]
    exact tables.full r small below
  · intro r small mapped j within below
    rw [row_same] at mapped ⊢
    rw [column_same r small mapped]
    exact (tables.data r small mapped j within below).mono uses
  · intro r small mapped j within above
    rw [row_same] at mapped ⊢
    rw [column_same r small mapped]
    exact tables.rest r small mapped j within above

section

variable {inode : Inode} (owned : Owned geo fs roles) (maps : Maps geo fs roles ino inode)

include owned maps

theorem Maps.find {i : Nat} (mapped : i < inode.iBlocks) :
    PointsTo geo roles (pramFindDataBlock geo fs inode i) (.data ino i) := by
  rcases maps.row with empty | ⟨rows, tables⟩
  · omega
  obtain ⟨r, small, j, within, rfl⟩ := exists_index (Nat.lt_of_lt_of_le mapped maps.count)
  have present := tables.full r small (by omega)
  rw [pramFindDataBlock_eq (rows.ne_zero owned) r j within, if_neg present]
  exact tables.data r small present j within mapped

theorem Maps.find_zero {i : Nat} (past : inode.iBlocks ≤ i)
    (inside : i < geo.pointers * geo.pointers) : pramFindDataBlock geo fs inode i = 0 := by
  rcases maps.row with empty | ⟨rows, tables⟩
  · simp only [pramFindDataBlock]
    rw [if_pos empty.1]
  · exact tables.find_zero (rows.ne_zero owned) past inside

theorem Maps.find_frame
    (same : ∀ word role, PointsTo geo roles word role → role.Indexes ino →
      fs'.block word = fs.block word) {i : Nat} (mapped : i < inode.iBlocks) :
    pramFindDataBlock geo fs' inode i = pramFindDataBlock geo fs inode i := by
  rcases maps.row with empty | ⟨rows, tables⟩
  · omega
  obtain ⟨r, small, j, within, rfl⟩ := exists_index (Nat.lt_of_lt_of_le mapped maps.count)
  have present := tables.full r small (by omega)
  have column := (tables.columns r small).resolve_left present
  have row_same := pointer_congr (same _ _ rows (.inl rfl)) r
  have column_same := pointer_congr (same _ _ column (.inr ⟨r, rfl⟩)) j
  rw [pramFindDataBlock_eq (rows.ne_zero owned) r j within,
    pramFindDataBlock_eq (rows.ne_zero owned) r j within, row_same, column_same]

end

end Frame

section NewBlock

variable {geo : Geometry} {fs : Pram}

theorem findNextZeroBit_spec {bitmap : Nat → Bool} {size offset : Nat}
    (found : findNextZeroBit bitmap size offset < size) :
    bitmap (findNextZeroBit bitmap size offset) = false := by
  unfold findNextZeroBit at found ⊢
  cases search : (List.range' offset (size - offset)).find? fun nr => !bitmap nr with
  | none =>
    rw [search, getD_none] at found
    omega
  | some nr =>
    have clear := List.find?_some search
    simpa using clear

/-- A block that was free is marked; its bytes are cleared or left as they were. -/
structure Fresh (geo : Geometry) (fs : Pram) (zero : Bool) (b : Nat) (fs' : Pram) : Prop where
  behind : geo.bitmapBlocks ≤ b
  inside : b < geo.blocksCount
  unmarked : fs.bitmap b = false
  marked : fs'.bitmap = Function.update fs.bitmap b true
  frame : ∀ word, word ≠ geo.getBlockOff b → fs'.block word = fs.block word
  cleared : zero = true → fs'.block (geo.getBlockOff b) = fun _ => 0

theorem pramNewBlock_spec {zero : Bool} {fresh : Nat × Pram}
    (made : pramNewBlock geo fs zero = some fresh) : Fresh geo fs zero fresh.1 fresh.2 := by
  unfold pramNewBlock at made
  split at made
  · cases made
  simp only at made
  split at made
  · cases made
  rename_i inside
  rw [not_or, Nat.not_lt, Nat.not_le] at inside
  cases made
  cases zero with
  | true =>
    exact ⟨inside.1, inside.2, findNextZeroBit_spec inside.2, rfl,
      fun word apart => update_of_ne apart _ _, fun _ => update_self _ _ _⟩
  | false =>
    exact ⟨inside.1, inside.2, findNextZeroBit_spec inside.2, rfl, fun _ _ => rfl,
      fun wrong => (by cases wrong)⟩

variable {roles : Nat → Option Role} {zero : Bool} {b : Nat} {fs' : Pram}

section

variable (fresh : Fresh geo fs zero b fs')

include fresh

theorem Fresh.unused (owned : Owned geo fs roles) : roles b = none := by
  cases use : roles b with
  | none => rfl
  | some role =>
    have marked := (owned b role use).2.2
    rw [fresh.unmarked] at marked
    cases marked

theorem Fresh.apart (owned : Owned geo fs roles) {role : Role}
    (points : PointsTo geo roles word role) : word ≠ geo.getBlockOff b := by
  intro same
  have use := (points.blocknr owned).1
  rw [same, Geometry.getBlocknr_getBlockOff fresh.inside, fresh.unused owned] at use
  cases use

theorem Fresh.uses (owned : Owned geo fs roles) (role : Role) (other : Nat) (use : Role)
    (has : roles other = some use) :
    update roles b (some role) other = some use := by
  rw [update_of_ne]
  · exact has
  · intro same
    rw [same, fresh.unused owned] at has
    cases has

/-- The pointers after the fresh block is linked into an index block. -/
theorem Fresh.pointer_link (block index : Nat) (apart : word ≠ geo.getBlockOff b) (place : Nat) :
    (fs'.setPointer block index (geo.getBlockOff b)).pointer word place =
      if word = block ∧ place = index then geo.getBlockOff b else fs.pointer word place := by
  rw [pointer_setPointer _ _ _ (geo.getBlockOff_lt b), pointer_congr (fresh.frame word apart)]

theorem Fresh.block_link (index : Nat) {block word : Nat} (apart : word ≠ geo.getBlockOff b)
    (other : word ≠ block) :
    (fs'.setPointer block index (geo.getBlockOff b)).block word = fs.block word := by
  rw [← fresh.frame word apart]
  exact update_of_ne other _ _

theorem Fresh.owned (owned : Owned geo fs roles) (role : Role) :
    Owned geo fs' (update roles b (some role)) := by
  intro other use has
  by_cases same : other = b
  · rw [same]
    exact ⟨fresh.behind, fresh.inside, by rw [fresh.marked, update_self]⟩
  · rw [update_of_ne same] at has
    have was := owned other use has
    exact ⟨was.1, was.2.1, by rw [fresh.marked, update_of_ne same]; exact was.2.2⟩

end

end NewBlock

/-- What an allocation for file `ino` does: blocks in use stay, only the index blocks of the
file are written, and each data block but the one at `last` comes cleared. -/
structure Grows (geo : Geometry) (ino last : Nat) (fs : Pram) (roles : Nat → Option Role)
    (inode : Inode) (fs' : Pram) (roles' : Nat → Option Role) (inode' : Inode) : Prop where
  uses : ∀ b role, roles b = some role → roles' b = some role
  frame : ∀ word role, PointsTo geo roles word role → ¬ role.Indexes ino →
    fs'.block word = fs.block word
  count : inode.iBlocks ≤ inode'.iBlocks
  size : inode'.iSize = inode.iSize
  kept : ∀ i < inode.iBlocks, pramFindDataBlock geo fs' inode' i = pramFindDataBlock geo fs inode i
  fresh : ∀ i, inode.iBlocks ≤ i → i < inode'.iBlocks → i ≠ last →
    fs'.block (pramFindDataBlock geo fs' inode' i) = fun _ => 0

section Grow

variable {geo : Geometry} {ino last : Nat} {fs fs₁ fs₂ : Pram} {inode inode₁ inode₂ : Inode}
  {roles roles₁ roles₂ : Nat → Option Role} {inodes : Nat → Inode}

theorem Grows.refl : Grows geo ino last fs roles inode fs roles inode :=
  ⟨fun _ _ use => use, fun _ _ _ _ => rfl, Nat.le_refl _, rfl, fun _ _ => rfl,
    fun i above below _ => absurd below (by omega)⟩

theorem not_indexes_data (ino other i : Nat) : ¬ Role.Indexes ino (.data other i) := by
  intro indexes
  rcases indexes with wrong | ⟨r, wrong⟩
  · cases wrong
  · cases wrong

theorem Grows.trans (sound : Sound geo fs₁ roles₁ inodes ino inode₁)
    (first : Grows geo ino last fs roles inode fs₁ roles₁ inode₁)
    (second : Grows geo ino last fs₁ roles₁ inode₁ fs₂ roles₂ inode₂) :
    Grows geo ino last fs roles inode fs₂ roles₂ inode₂ := by
  have grew := first.count
  constructor
  · exact fun b role use => second.uses b role (first.uses b role use)
  · intro word role points plain
    rw [second.frame word role (points.mono first.uses) plain, first.frame word role points plain]
  · exact Nat.le_trans first.count second.count
  · rw [second.size, first.size]
  · intro i below
    rw [second.kept i (by omega), first.kept i below]
  · intro i above below other
    by_cases early : i < inode₁.iBlocks
    · have points := sound.here.find sound.owned early
      rw [second.kept i early, second.frame _ _ points (not_indexes_data ino ino i)]
      exact first.fresh i above early other
    · exact second.fresh i (by omega) below other

theorem Role.Indexes.unique {role : Role} {other : Nat} (indexes : role.Indexes other)
    (also : role.Indexes ino) : other = ino := by
  rcases indexes with rfl | ⟨r, rfl⟩
  · rcases also with same | ⟨s, same⟩
    · injection same
    · cases same
  · rcases also with same | ⟨s, same⟩
    · cases same
    · injection same

section

variable (sound : Sound geo fs roles inodes ino inode)

include sound

/-- The other files keep their tables. -/
theorem Sound.grow (grows : Grows geo ino last fs roles inode fs₁ roles₁ inode₁)
    (owned : Owned geo fs₁ roles₁) (here : Maps geo fs₁ roles₁ ino inode₁) :
    Sound geo fs₁ roles₁ inodes ino inode₁ := by
  refine ⟨owned, here, ?_⟩
  intro other different
  apply (sound.others other different).frame grows.uses
  intro word role points indexes
  apply grows.frame word role points
  exact fun also => different (indexes.unique also)

theorem allocRowBlock_grows {made : Pram × Inode} (done : allocRowBlock geo fs inode = some made) :
    ∃ roles', Grows geo ino last fs roles inode made.1 roles' made.2 ∧
      Sound geo made.1 roles' inodes ino made.2 ∧ made.2.rowBlock ≠ 0 ∧
      made.2.iBlocks = inode.iBlocks := by
  unfold allocRowBlock at done
  split at done
  · rename_i present
    cases done
    exact ⟨roles, Grows.refl, sound, present, rfl⟩
  · rename_i present
    obtain ⟨⟨b, fs₁⟩, block, rfl⟩ := map_eq_some_iff.mp done
    have fresh := pramNewBlock_spec block
    have none_mapped : inode.iBlocks = 0 := by
      rcases sound.here.row with empty | ⟨rows, _⟩
      · exact empty.2
      · exact absurd (rows.ne_zero sound.owned) present
    have grows : Grows geo ino last fs roles inode fs₁
        (update roles b (some (.row ino)))
        { inode with rowBlock := geo.getBlockOff b } := by
      refine ⟨fresh.uses sound.owned _, ?_, Nat.le_refl _, rfl, ?_, ?_⟩
      · intro word role points _
        exact fresh.frame word (fresh.apart sound.owned points)
      · intro i below
        omega
      · intro i above below
        exact absurd below (by simp only; omega)
    refine ⟨_, grows, sound.grow grows (fresh.owned sound.owned _) ?_,
      Geometry.getBlockOff_ne_zero fresh.inside, rfl⟩
    refine ⟨sound.here.count, .inr ⟨⟨b, update_self _ _ _, rfl⟩, ?_⟩⟩
    have empty : ∀ r, fs₁.pointer (geo.getBlockOff b) r = 0 := by
      intro r
      rw [Pram.pointer, fresh.cleared rfl]
      rfl
    constructor
    · exact fun r _ => .inl (empty r)
    · intro r _ below
      exact absurd below (by simp only; omega)
    · exact fun r _ mapped => absurd (empty r) mapped
    · exact fun r _ mapped => absurd (empty r) mapped

theorem allocRow_grows (present : inode.rowBlock ≠ 0) {r : Nat} (small : r < geo.pointers)
    (done : allocRow geo inode.rowBlock r fs = some fs₁) :
    ∃ roles', Grows geo ino last fs roles inode fs₁ roles' inode ∧
      Sound geo fs₁ roles' inodes ino inode ∧ fs₁.pointer inode.rowBlock r ≠ 0 := by
  unfold allocRow at done
  split at done
  · rename_i mapped
    cases done
    exact ⟨roles, Grows.refl, sound, mapped⟩
  rename_i mapped
  rw [not_not] at mapped
  obtain ⟨⟨b, fs₀⟩, block, rfl⟩ := map_eq_some_iff.mp done
  have fresh := pramNewBlock_spec block
  have owned := sound.owned
  obtain ⟨rows, tables⟩ := sound.here.row.resolve_left fun empty => present empty.1
  have behind : inode.iBlocks ≤ r * geo.pointers := by
    by_contra before
    exact tables.full r small (by omega) mapped
  have row_link := fresh.pointer_link inode.rowBlock r (fresh.apart owned rows)
  generalize made : fs₀.setPointer inode.rowBlock r (geo.getBlockOff b) = fs₂ at row_link ⊢
  have row_other : ∀ s, s ≠ r → fs₂.pointer inode.rowBlock s = fs.pointer inode.rowBlock s := by
    intro s other
    rw [row_link, if_neg fun both => other both.2]
  have row_here : fs₂.pointer inode.rowBlock r = geo.getBlockOff b := by
    rw [row_link, if_pos ⟨rfl, rfl⟩]
  have column_same : ∀ s < geo.pointers, fs.pointer inode.rowBlock s ≠ 0 → ∀ j,
      fs₂.pointer (fs.pointer inode.rowBlock s) j = fs.pointer (fs.pointer inode.rowBlock s) j := by
    intro s below linked j
    have column := (tables.columns s below).resolve_left linked
    rw [← made, fresh.pointer_link inode.rowBlock r (fresh.apart owned column), if_neg]
    intro same
    rw [same.1] at column
    exact Role.noConfusion (column.role_eq owned rows)
  have empty : ∀ j, fs₂.pointer (geo.getBlockOff b) j = 0 := by
    intro j
    rw [← made, pointer_setPointer _ _ _ (geo.getBlockOff_lt b), if_neg, Pram.pointer,
      fresh.cleared rfl]
    · rfl
    · exact fun same => fresh.apart owned rows same.1.symm
  have tables' : Tables geo fs₂ (update roles b (some (.column ino r))) ino inode.rowBlock
      inode.iBlocks := by
    have uses := fresh.uses owned (.column ino r)
    constructor
    · intro s below
      rcases eq_or_ne s r with rfl | other
      · exact .inr ⟨b, update_self _ _ _, row_here⟩
      · rw [row_other s other]
        exact (tables.columns s below).imp id fun column => column.mono uses
    · intro s below some_data
      rcases eq_or_ne s r with rfl | other
      · omega
      · rw [row_other s other]
        exact tables.full s below some_data
    · intro s below linked j within some_data
      rcases eq_or_ne s r with rfl | other
      · omega
      · rw [row_other s other] at linked ⊢
        rw [column_same s below linked]
        exact (tables.data s below linked j within some_data).mono uses
    · intro s below linked j within past
      rcases eq_or_ne s r with rfl | other
      · rw [row_here]
        exact empty j
      · rw [row_other s other] at linked ⊢
        rw [column_same s below linked]
        exact tables.rest s below linked j within past
  have grows : Grows geo ino last fs roles inode fs₂ (update roles b (some (.column ino r)))
      inode := by
    refine ⟨fresh.uses owned _, ?_, Nat.le_refl _, rfl, ?_, fun i above below => by omega⟩
    · intro word role points plain
      rw [← made]
      apply fresh.block_link r (fresh.apart owned points)
      intro same
      rw [same] at points
      exact plain (.inl (points.role_eq owned rows))
    · intro i below
      obtain ⟨s, inside, j, within, rfl⟩ := exists_index (Nat.lt_of_lt_of_le below sound.here.count)
      have linked := tables.full s inside (by omega)
      have other : s ≠ r := by
        intro same
        rw [same] at below
        omega
      rw [pramFindDataBlock_eq present s j within, pramFindDataBlock_eq present s j within,
        row_other s other, if_neg linked, if_neg linked, column_same s inside linked]
  refine ⟨_, grows, sound.grow grows (by rw [← made]; exact fresh.owned owned _)
    ⟨sound.here.count, .inr ⟨rows.mono grows.uses, tables'⟩⟩, ?_⟩
  rw [row_here]
  exact Geometry.getBlockOff_ne_zero fresh.inside

theorem newDataBlock_grows (present : inode.rowBlock ≠ 0) {r j : Nat} (small : r < geo.pointers)
    (within : j < geo.pointers) (mapped : fs.pointer inode.rowBlock r ≠ 0)
    (next : inode.iBlocks = r * geo.pointers + j) {zero : Bool}
    (clears : inode.iBlocks ≠ last → zero = true) {b : Nat} {inode₁ : Inode}
    (done : pramNewDataBlock geo fs inode zero = some (b, fs₁, inode₁)) :
    ∃ roles', Grows geo ino last fs roles inode
        (fs₁.setPointer (fs.pointer inode.rowBlock r) j (geo.getBlockOff b)) roles' inode₁ ∧
      Sound geo (fs₁.setPointer (fs.pointer inode.rowBlock r) j (geo.getBlockOff b)) roles' inodes
        ino inode₁ ∧
      (fs₁.setPointer (fs.pointer inode.rowBlock r) j (geo.getBlockOff b)).pointer
        inode₁.rowBlock r = fs.pointer inode.rowBlock r ∧
      inode₁.rowBlock = inode.rowBlock ∧ inode₁.iBlocks = inode.iBlocks + 1 := by
  obtain ⟨⟨b, fs₀⟩, block, same⟩ := map_eq_some_iff.mp done
  cases same
  have fresh := pramNewBlock_spec block
  have owned := sound.owned
  obtain ⟨rows, tables⟩ := sound.here.row.resolve_left fun empty => present empty.1
  have column := (tables.columns r small).resolve_left mapped
  have fits : r * geo.pointers + j + 1 ≤ geo.pointers * geo.pointers := by
    have full := Nat.mul_le_mul_right geo.pointers small
    rw [Nat.succ_mul] at full
    omega
  generalize made : fs₀.setPointer (fs.pointer inode.rowBlock r) j (geo.getBlockOff b) = fs₂
  have row_same : ∀ s, fs₂.pointer inode.rowBlock s = fs.pointer inode.rowBlock s := by
    intro s
    rw [← made, fresh.pointer_link _ j (fresh.apart owned rows), if_neg]
    intro same
    rw [same.1] at rows
    exact Role.noConfusion (rows.role_eq owned column)
  have column_link : ∀ s < geo.pointers, fs.pointer inode.rowBlock s ≠ 0 → ∀ l < geo.pointers,
      fs₂.pointer (fs.pointer inode.rowBlock s) l =
        if s * geo.pointers + l = inode.iBlocks then geo.getBlockOff b
      else fs.pointer (fs.pointer inode.rowBlock s) l := by
    intro s below linked l inside
    have other := (tables.columns s below).resolve_left linked
    rw [← made, fresh.pointer_link _ j (fresh.apart owned other), next]
    congr 1
    rw [eq_iff_iff, index_eq_iff inside within]
    constructor
    · intro same
      rw [same.1] at other
      have uses := other.role_eq owned column
      injection uses with _ rows_eq
      exact ⟨rows_eq, same.2⟩
    · intro same
      exact ⟨by rw [same.1], same.2⟩
  have tables' : Tables geo fs₂ (update roles b (some (.data ino inode.iBlocks))) ino
      inode.rowBlock (inode.iBlocks + 1) := by
    have uses := fresh.uses owned (.data ino inode.iBlocks)
    constructor
    · intro s below
      rw [row_same]
      exact (tables.columns s below).imp id fun column => column.mono uses
    · intro s below some_data
      rw [row_same]
      by_cases before : s * geo.pointers < inode.iBlocks
      · exact tables.full s below before
      · have equal : s * geo.pointers + 0 = r * geo.pointers + j := by omega
        rw [((index_eq_iff geo.pointers_pos within).mp equal).1]
        exact mapped
    · intro s below linked l inside some_data
      rw [row_same] at linked ⊢
      rw [column_link s below linked l inside]
      split
      · rename_i here
        rw [here]
        exact ⟨b, update_self _ _ _, rfl⟩
      · exact (tables.data s below linked l inside (by omega)).mono uses
    · intro s below linked l inside past
      rw [row_same] at linked ⊢
      rw [column_link s below linked l inside, if_neg (by omega)]
      exact tables.rest s below linked l inside (by omega)
  have find : ∀ i ≤ inode.iBlocks, pramFindDataBlock geo fs₂
      { inode with
        iBlocks := inode.iBlocks + 1
        piBlocks := inode.iBlocks + 1 } i =
      if i = inode.iBlocks then geo.getBlockOff b else pramFindDataBlock geo fs inode i := by
    intro i below
    obtain ⟨s, inside, l, less, rfl⟩ := @exists_index geo i (by omega)
    have linked : fs.pointer inode.rowBlock s ≠ 0 := by
      have full := tables'.full s inside (by omega)
      rw [row_same] at full
      exact full
    rw [pramFindDataBlock_eq present s l less, pramFindDataBlock_eq _ s l less, row_same,
      if_neg linked, if_neg linked, column_link s inside linked l less]
    exact present
  have grows : Grows geo ino last fs roles inode fs₂
      (update roles b (some (.data ino inode.iBlocks)))
      { inode with
        iBlocks := inode.iBlocks + 1
        piBlocks := inode.iBlocks + 1 } := by
    refine ⟨fresh.uses owned _, ?_, Nat.le_succ _, rfl, ?_, ?_⟩
    · intro word role points plain
      rw [← made]
      apply fresh.block_link j (fresh.apart owned points)
      intro same
      rw [same] at points
      exact plain (.inr ⟨r, points.role_eq owned column⟩)
    · intro i below
      rw [find i (by omega), if_neg (by omega)]
    · intro i above below other
      have here : i = inode.iBlocks := by
        simp only at below
        omega
      rw [find i (by omega), if_pos here]
      have apart : geo.getBlockOff b ≠ fs.pointer inode.rowBlock r :=
        (fresh.apart owned column).symm
      rw [← made, Pram.setPointer]
      simp only [update_of_ne apart]
      exact fresh.cleared (clears (by omega))
  exact ⟨_, grows, sound.grow grows (by rw [← made]; exact fresh.owned owned _)
    ⟨by simp only; omega, .inr ⟨rows.mono grows.uses, tables'⟩⟩, row_same r, rfl, rfl⟩

end

/-- What an allocation loop leaves behind. -/
structure Allocated (geo : Geometry) (ino last : Nat) (inodes : Nat → Inode) (fs : Pram)
    (roles : Nat → Option Role) (inode : Inode) (upto : Nat) (grown : Grown) : Prop where
  grows : ∃ roles', Grows geo ino last fs roles inode grown.fs roles' grown.inode ∧
    Sound geo grown.fs roles' inodes ino grown.inode
  row : grown.inode.rowBlock = inode.rowBlock
  upto : grown.done = true → upto ≤ grown.inode.iBlocks

theorem Allocated.after {upto : Nat} {grown : Grown}
    (sound : Sound geo fs₁ roles₁ inodes ino inode₁)
    (first : Grows geo ino last fs roles inode fs₁ roles₁ inode₁)
    (row : inode₁.rowBlock = inode.rowBlock)
    (second : Allocated geo ino last inodes fs₁ roles₁ inode₁ upto grown) :
    Allocated geo ino last inodes fs roles inode upto grown := by
  obtain ⟨roles', grows, sound'⟩ := second.grows
  exact ⟨⟨roles', first.trans sound grows, sound'⟩, second.row.trans row, second.upto⟩

theorem allocColumn_allocated {r : Nat} (small : r < geo.pointers) (lastRow : Bool)
    (count j : Nat) (fs : Pram) (roles : Nat → Option Role) (inode : Inode)
    (sound : Sound geo fs roles inodes ino inode) (present : inode.rowBlock ≠ 0)
    (mapped : fs.pointer inode.rowBlock r ≠ 0) (inside : j + count ≤ geo.pointers)
    (reached : r * geo.pointers + j ≤ inode.iBlocks)
    (ends : if lastRow then r * geo.pointers + (j + count) = last + 1
      else r * geo.pointers + (j + count) ≤ last) :
    Allocated geo ino last inodes fs roles inode (r * geo.pointers + (j + count))
      (allocColumn geo (fs.pointer inode.rowBlock r) lastRow count j fs inode) := by
  induction count generalizing j fs roles inode with
  | zero => exact ⟨⟨roles, Grows.refl, sound⟩, rfl, fun _ => reached⟩
  | succ count ih =>
    rw [show j + (count + 1) = j + 1 + count by omega] at ends ⊢
    obtain ⟨rows, tables⟩ := sound.here.row.resolve_left fun empty => present empty.1
    rw [allocColumn]
    split
    · rename_i filled
      have before : r * geo.pointers + j < inode.iBlocks := by
        by_contra past
        exact filled (tables.rest r small mapped j (by omega) (by omega))
      exact ih (j + 1) fs roles inode sound present mapped (by omega) (by omega) ends
    · rename_i filled
      rw [not_not] at filled
      have next : inode.iBlocks = r * geo.pointers + j := by
        by_contra other
        have points := tables.data r small mapped j (by omega) (by omega)
        exact points.ne_zero sound.owned filled
      cases made : pramNewDataBlock geo fs inode (!(lastRow && count == 0)) with
      | none =>
        exact ⟨⟨roles, Grows.refl, sound⟩, rfl, fun wrong => by cases wrong⟩
      | some fresh =>
        obtain ⟨b, fs₁, inode₁⟩ := fresh
        have clears : inode.iBlocks ≠ last → (!(lastRow && count == 0)) = true := by
          intro other
          cases lastRow with
          | false => rfl
          | true =>
            rw [if_pos rfl] at ends
            have more : count ≠ 0 := by omega
            simpa using more
        obtain ⟨roles₁, grows, sound₁, same, row, counted⟩ := newDataBlock_grows sound present small
          (by omega) mapped next clears made
        have rest := ih (j + 1) (fs₁.setPointer (fs.pointer inode.rowBlock r) j (geo.getBlockOff b))
          roles₁ inode₁ sound₁ (by rw [row]; exact present) (by rw [same]; exact mapped) (by omega)
          (by omega) ends
        rw [same] at rest
        exact Allocated.after sound₁ grows row rest

theorem allocRows_allocated {first : Nat} (order : first ≤ last)
    (fits : last < geo.pointers * geo.pointers) (count r : Nat) (fs : Pram)
    (roles : Nat → Option Role) (inode : Inode) (sound : Sound geo fs roles inodes ino inode)
    (present : inode.rowBlock ≠ 0) (begins : first / geo.pointers ≤ r)
    (ends : r + count = last / geo.pointers + 1)
    (came : reached geo first (last + 1) r ≤ inode.iBlocks) :
    Allocated geo ino last inodes fs roles inode (last + 1)
      (allocRows geo inode.rowBlock first last count r fs inode) := by
  have final : reached geo first (last + 1) (last / geo.pointers + 1) = last + 1 :=
    @reached_last geo (last + 1) first (by omega)
  induction count generalizing r fs roles inode with
  | zero =>
    rw [show r = last / geo.pointers + 1 by omega, final] at came
    exact ⟨⟨roles, Grows.refl, sound⟩, rfl, fun _ => came⟩
  | succ count ih =>
    rw [allocRows]
    cases made : allocRow geo inode.rowBlock r fs with
    | none => exact ⟨⟨roles, Grows.refl, sound⟩, rfl, fun wrong => by cases wrong⟩
    | some fs₁ =>
      have rows_fit := Nat.div_lt_of_lt_mul fits
      have small : r < geo.pointers := by omega
      obtain ⟨roles₁, grows, sound₁, mapped⟩ := @allocRow_grows geo ino last _ _ _ _ _ sound present
        r small made
      simp only
      generalize firstCol : (if r = first / geo.pointers then first % geo.pointers else 0) =
        firstColIndex
      generalize lastCol : (if decide (r = last / geo.pointers) = true then last % geo.pointers
        else geo.pointers - 1) = lastColIndex
      have plain : lastColIndex = if r = (last + 1 - 1) / geo.pointers then
          (last + 1 - 1) % geo.pointers else geo.pointers - 1 := by
        rw [Nat.add_sub_cancel, ← lastCol]
        simp only [decide_eq_true_eq]
      obtain ⟨start, stop, within, less, _⟩ := @row_bounds geo (last + 1) first r (by omega) begins
        (by rw [Nat.add_sub_cancel]; omega) firstColIndex lastColIndex firstCol.symm plain
      have span : firstColIndex + (lastColIndex + 1 - firstColIndex) = lastColIndex + 1 := by omega
      have last_here : if decide (r = last / geo.pointers) then
          r * geo.pointers + (lastColIndex + 1) = last + 1
          else r * geo.pointers + (lastColIndex + 1) ≤ last := by
        rw [← stop]
        by_cases here : r = last / geo.pointers
        · rw [if_pos (decide_eq_true here), here, final]
        · have below := Nat.mul_le_mul_right geo.pointers
            (show r + 1 ≤ last / geo.pointers by omega)
          have down := Nat.div_mul_le_self last geo.pointers
          rw [if_neg (by rw [decide_eq_true_iff]; exact here), reached]
          omega
      have filled := @allocColumn_allocated geo ino last inodes r small
        (decide (r = last / geo.pointers))
          (lastColIndex + 1 - firstColIndex) firstColIndex fs₁ roles₁
        inode sound₁ present mapped (by omega) (by omega) (by rw [span]; exact last_here)
      rw [span, ← stop] at filled
      have joined := Allocated.after sound₁ grows rfl filled
      split
      · rename_i done
        obtain ⟨roles₂, grows₂, sound₂⟩ := joined.grows
        have rest := ih (r + 1) _ roles₂ _ sound₂ (by rw [joined.row]; exact present) (by omega)
          (by omega) (joined.upto done)
        rw [joined.row] at rest
        exact Allocated.after sound₂ grows₂ joined.row rest
      · rename_i done
        exact { joined with upto := fun wrong => absurd wrong done }

/-- `pram_alloc_blocks` maps the blocks up to the last one asked for, or fails on the way. -/
theorem pramAllocBlocks_spec (sound : Sound geo fs roles inodes ino inode) {fileBlocknr num : Nat}
    (some_blocks : 1 ≤ num) (fits : fileBlocknr + num ≤ geo.pointers * geo.pointers) :
    ∃ roles', Grows geo ino (fileBlocknr + num - 1) fs roles inode
        (pramAllocBlocks geo fs inode fileBlocknr num).fs roles'
        (pramAllocBlocks geo fs inode fileBlocknr num).inode ∧
      Sound geo (pramAllocBlocks geo fs inode fileBlocknr num).fs roles' inodes ino
        (pramAllocBlocks geo fs inode fileBlocknr num).inode ∧
      ((pramAllocBlocks geo fs inode fileBlocknr num).done = true →
        fileBlocknr + num ≤ (pramAllocBlocks geo fs inode fileBlocknr num).inode.iBlocks) := by
  unfold pramAllocBlocks
  cases made : allocRowBlock geo fs inode with
  | none => exact ⟨roles, Grows.refl, sound, fun wrong => by cases wrong⟩
  | some result =>
    obtain ⟨roles₁, grows, sound₁, present, counted⟩ :=
      @allocRowBlock_grows geo ino (fileBlocknr + num - 1) _ _ _ _ sound _ made
    simp only
    generalize begins : (if result.2.iBlocks < fileBlocknr then result.2.iBlocks
      else fileBlocknr) = first
    have start : first ≤ result.2.iBlocks ∧ first ≤ fileBlocknr := by
      rw [← begins]
      split <;> omega
    have order : first / geo.pointers ≤ (fileBlocknr + num - 1) / geo.pointers :=
      Nat.div_le_div_right (by omega)
    have came := @reached_first geo (fileBlocknr + num - 1 + 1) first (by omega)
    have rest := @allocRows_allocated geo ino (fileBlocknr + num - 1) inodes first (by omega)
      (by omega) ((fileBlocknr + num - 1) / geo.pointers + 1 - first / geo.pointers)
      (first / geo.pointers) result.1 roles₁ result.2 sound₁ present (Nat.le_refl _) (by omega)
      (by rw [came]; exact start.1)
    obtain ⟨roles₂, grows₂, sound₂⟩ := rest.grows
    exact ⟨roles₂, grows.trans sound₁ grows₂, sound₂, fun done => by have := rest.upto done; omega⟩

end Grow

end MagxKernel.Pramfs
