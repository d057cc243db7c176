import Mathlib.Data.Fintype.Card
import MagxKernel.Jbd.Recovery

namespace MagxKernel.Jbd

/-- A copy of a file system block in the log. -/
structure Copy where
  blocknr : BitVec 32
  escaped : Bool
  data : Block

/-- What one header block of the log stands for. -/
inductive Item where
  | copies (copies : List Copy)
  | revokes (block : Block)
  | commit

/-- The tags of a descriptor block: block number and flags. -/
def tagsFrom (size : Nat) (block : Block) : Nat → Nat → List (BitVec 32 × BitVec 32)
  | 0, _ => []
  | fuel + 1, tagp =>
      if 4 * tagp + 8 ≤ size then
        let flags := block (tagp + 1)
        (block tagp, flags) ::
          if hasFlag flags jfsFlagLastTag then []
          else tagsFrom size block fuel (tagp + 2 + if hasFlag flags jfsFlagSameUuid then 0 else 4)
      else []

def tagsOf (journal : Journal) (block : Block) : List (BitVec 32 × BitVec 32) :=
  tagsFrom journal.jBlocksize block journal.jBlocksize 3

/-- The copies lie behind their descriptor block, round the end of the log. -/
def copiesFrom (journal : Journal) (log : Nat → Block) :
    Nat → List (BitVec 32 × BitVec 32) → List Copy
  | _, [] => []
  | position, tag :: tags =>
      ⟨tag.1, hasFlag tag.2 jfsFlagEscape, log position⟩ ::
        copiesFrom journal log (wrap journal (position + 1)) tags

/-- The item at a place of the log, the transaction that is open after it and the
place of the next item. -/
def itemAt (journal : Journal) (log : Nat → Block) (transaction : BitVec 32) (position : Nat) :
    Option (Item × BitVec 32 × Nat) :=
  let block := log position
  let next := wrap journal (position + 1)
  if block 0 = jfsMagicNumber ∧ block 2 = transaction then
    if block 1 = jfsDescriptorBlock then
      let tags := tagsOf journal block
      some (.copies (copiesFrom journal log next tags), transaction,
        wrap journal (next + tags.length))
    else if block 1 = jfsCommitBlock then some (.commit, transaction + 1, next)
    else if block 1 = jfsRevokeBlock then some (.revokes block, transaction, next)
    else none
  else none

/-- The unbroken sequence of items from a place of the log on. -/
inductive Logged (journal : Journal) (log : Nat → Block) : BitVec 32 → Nat → List Item → Prop
  | ended {transaction : BitVec 32} {position : Nat} (inside : position < journal.jLast)
      (none_here : itemAt journal log transaction position = none) :
      Logged journal log transaction position []
  | item {transaction transaction' : BitVec 32} {position position' : Nat} {item : Item}
      {items : List Item} (inside : position < journal.jLast)
      (found : itemAt journal log transaction position = some (item, transaction', position'))
      (rest : Logged journal log transaction' position' items) :
      Logged journal log transaction position (item :: items)

/-- All items of the log. A start at block zero stands for an empty log. -/
def LogHolds (journal : Journal) (log : Nat → Block) (items : List Item) : Prop :=
  (journal.sStart = 0 ∧ items = []) ∨
    (journal.sStart ≠ 0 ∧ Logged journal log journal.sSequence journal.sStart.toNat items)

/-- The number of commit blocks. -/
def commits : List Item → Nat
  | [] => 0
  | .commit :: items => commits items + 1
  | .copies _ :: items => commits items
  | .revokes _ :: items => commits items

/-- Each item with the number of its transaction, counted from the first one. -/
def numbered : Nat → List Item → List (Nat × Item)
  | _, [] => []
  | number, .commit :: items => (number, .commit) :: numbered (number + 1) items
  | number, .copies copies :: items => (number, .copies copies) :: numbered number items
  | number, .revokes block :: items => (number, .revokes block) :: numbered number items

/-- The items of the transactions that have their commit block. -/
def committedFrom (number : Nat) (items : List Item) : List (Nat × Item) :=
  (numbered number items).filter fun entry => entry.1 < number + commits items

/-- The block numbers that stand in a revoke block, up to its `r_count`. -/
def revokedBlocks (journal : Journal) (block : Block) : List (BitVec 32) :=
  ((List.range ((journal.jBlocksize - 16) / 4)).filter fun index =>
    ((16 + 4 * index : Nat) : Int) < (block 3).toInt).map fun index => block (4 + index)

def Item.copyList : Item → List Copy
  | .copies list => list
  | _ => []

def Item.revokeList (journal : Journal) : Item → List (BitVec 32)
  | .revokes block => revokedBlocks journal block
  | _ => []

def copiesOf (entries : List (Nat × Item)) : List (Nat × Copy) :=
  entries.flatMap fun entry => entry.2.copyList.map (Prod.mk entry.1)

def revokesOf (journal : Journal) (entries : List (Nat × Item)) : List (Nat × BitVec 32) :=
  entries.flatMap fun entry => (entry.2.revokeList journal).map (Prod.mk entry.1)

/-- Some transaction from the given one on revokes the block. -/
def revoked (revokes : List (Nat × BitVec 32)) (number : Nat) (blocknr : BitVec 32) : Bool :=
  revokes.any fun record => record.2 = blocknr ∧ number ≤ record.1

/-- The copies of committed transactions that are not revoked, in the order of the log. -/
def survivors (journal : Journal) (items : List Item) : List Copy :=
  ((copiesOf (committedFrom 0 items)).filter fun copy =>
    !revoked (revokesOf journal (committedFrom 0 items)) copy.1 copy.2.blocknr).map Prod.snd

def latestOf (copies : List Copy) (blocknr : BitVec 32) : Option Copy :=
  (copies.filter fun copy => copy.blocknr = blocknr).getLast?

/-- The contents a copy stands for: the magic number comes back to an escaped one. -/
def restore (journal : Journal) (copy : Copy) (old : Block) : Block :=
  let block := memcpy journal.jBlocksize copy.data old
  if copy.escaped then Function.update block 0 jfsMagicNumber else block

/-- The file system that recovery is for. -/
def restored (journal : Journal) (items : List Item) (fs : BitVec 32 → Block) :
    BitVec 32 → Block :=
  fun blocknr =>
    match latestOf (survivors journal items) blocknr with
    | none => fs blocknr
    | some copy => restore journal copy (fs blocknr)

/-- No revoke block of a committed transaction claims more bytes than a block has. -/
def RevokesFit (journal : Journal) (items : List Item) : Prop :=
  ∀ entry ∈ committedFrom 0 items, ∀ block, entry.2 = .revokes block →
    (block 3).toInt ≤ journal.jBlocksize

/-- No copy of the item belongs to a block that the log is in. -/
def Item.OffLog (journal : Journal) (item : Item) : Prop :=
  ∀ copy ∈ item.copyList, ∀ position, journal.bmap position ≠ some copy.blocknr

/-- No tag of a committed transaction names a block of the log. -/
def TagsOff (journal : Journal) (items : List Item) : Prop :=
  ∀ entry ∈ committedFrom 0 items, entry.2.OffLog journal

/-- A copy that has to be restored and is marked as escaped holds the magic number. -/
def EscapesHeld (journal : Journal) (items : List Item) : Prop :=
  ∀ blocknr copy, latestOf (survivors journal items) blocknr = some copy →
    copy.escaped = true → copy.data 0 = jfsMagicNumber

variable (sequence : BitVec 32) {item : Item} {items : List Item}

theorem sequence_succ (number : Nat) :
    sequence + 1 + BitVec.ofNat 32 number = sequence + BitVec.ofNat 32 (number + 1) := by
  bv_omega

/-- Fewer than half of the numbers are in use, so their order survives the wrap. -/
theorem tidGt_sequence {first second : Nat} (small : first < 2 ^ 31) (small' : second < 2 ^ 31) :
    tidGt (sequence + BitVec.ofNat 32 first) (sequence + BitVec.ofNat 32 second) =
      decide (second < first) := by
  have difference : (sequence + BitVec.ofNat 32 first -
      (sequence + BitVec.ofNat 32 second)).toInt = first - second := by
    rw [BitVec.toInt_eq_toNat_cond]
    simp only [BitVec.toNat_sub, BitVec.toNat_add, BitVec.toNat_ofNat]
    omega
  rw [tidGt, difference]
  congr 1
  simp

theorem tidGeq_end (number : Nat) {left : Nat} (small : left < 2 ^ 32) :
    tidGeq (sequence + BitVec.ofNat 32 number) (sequence + BitVec.ofNat 32 (number + left)) =
      decide (left = 0 ∨ 2 ^ 31 < left) := by
  have difference : (sequence + BitVec.ofNat 32 number -
      (sequence + BitVec.ofNat 32 (number + left))).toInt =
      if left ≤ 2 ^ 31 then -(left : Int) else 2 ^ 32 - left := by
    rw [BitVec.toInt_eq_toNat_cond]
    simp only [BitVec.toNat_sub, BitVec.toNat_add, BitVec.toNat_ofNat]
    omega
  rw [tidGeq, difference]
  congr 1
  simp only [eq_iff_iff]
  split <;> omega

section

variable {journal : Journal} {log : Nat → Block} {transaction : BitVec 32} {position : Nat}

theorem Logged.of_item {transaction' : BitVec 32} {position' : Nat}
    (logged : Logged journal log transaction position items)
    (found : itemAt journal log transaction position = some (item, transaction', position')) :
    ∃ rest, items = item :: rest ∧ Logged journal log transaction' position' rest := by
  cases logged with
  | ended _ none_here => rw [none_here] at found; cases found
  | item _ found' rest =>
    rw [found] at found'
    cases found'
    exact ⟨_, rfl, rest⟩

theorem Logged.unique {first second : List Item}
    (left : Logged journal log transaction position first)
    (right : Logged journal log transaction position second) : first = second := by
  induction left generalizing second with
  | ended _ none_here =>
    cases right with
    | ended => rfl
    | item _ found _ => rw [none_here] at found; cases found
  | item _ found _ ih =>
    obtain ⟨rest, rfl, tail⟩ := right.of_item found
    rw [ih tail]

end

theorem commits_commit (items : List Item) : commits (.commit :: items) = commits items + 1 := rfl

/-- The item does not end its transaction. -/
def Item.inner : Item → Bool
  | .commit => false
  | _ => true

theorem commits_inner (inner : item.inner = true) (items : List Item) :
    commits (item :: items) = commits items := by
  cases item with
  | commit => cases inner
  | copies | revokes => rfl

theorem numbered_inner (inner : item.inner = true) (number : Nat) (items : List Item) :
    numbered number (item :: items) = (number, item) :: numbered number items := by
  cases item with
  | commit => cases inner
  | copies | revokes => rfl

theorem numbered_ge {number : Nat} {entry : Nat × Item} (found : entry ∈ numbered number items) :
    number ≤ entry.1 := by
  induction items generalizing number with
  | nil => cases found
  | cons item items ih =>
    cases item with
    | commit =>
      rcases List.mem_cons.mp found with rfl | later
      · exact Nat.le_refl _
      · exact Nat.le_of_succ_le (ih later)
    | copies | revokes =>
      rcases List.mem_cons.mp found with rfl | later
      · exact Nat.le_refl _
      · exact ih later

/-- Nothing after the last commit block is committed. -/
theorem committedFrom_open (unfinished : commits items = 0) (number : Nat) :
    committedFrom number items = [] := by
  rw [committedFrom, List.filter_eq_nil_iff]
  intro entry found
  have above := numbered_ge found
  simp only [decide_eq_true_eq]
  omega

theorem committedFrom_commit (number : Nat) (items : List Item) :
    committedFrom number (.commit :: items) =
      (number, .commit) :: committedFrom (number + 1) items := by
  have bound : number + commits (.commit :: items) = number + 1 + commits items := by
    rw [commits_commit]
    omega
  rw [committedFrom, bound]
  simp only [numbered]
  rw [List.filter_cons_of_pos (by simp only [decide_eq_true_eq]; omega)]
  rfl

theorem committedFrom_inner (inner : item.inner = true) (finished : commits items ≠ 0)
    (number : Nat) :
    committedFrom number (item :: items) = (number, item) :: committedFrom number items := by
  rw [committedFrom, commits_inner inner, numbered_inner inner,
    List.filter_cons_of_pos (by simp only [decide_eq_true_eq]; omega)]
  rfl

theorem itemAt_transaction {journal : Journal} {log : Nat → Block}
    {transaction transaction' : BitVec 32} {position position' : Nat}
    (found : itemAt journal log transaction position = some (item, transaction', position')) :
    log position 2 = transaction ∧
      (item = .commit ∧ transaction' = transaction + 1 ∨
        item.inner = true ∧ transaction' = transaction) := by
  obtain ⟨header, found⟩ := Option.ite_none_right_eq_some.mp found
  refine ⟨header.2, ?_⟩
  split at found
  · cases found
    exact .inr ⟨rfl, rfl⟩
  split at found
  · cases found
    exact .inl ⟨rfl, rfl⟩
  · obtain ⟨_, found⟩ := Option.ite_none_right_eq_some.mp found
    cases found
    exact .inr ⟨rfl, rfl⟩

/-- The log is too short for headers of all transaction numbers. -/
theorem exists_unused (journal : Journal) (log : Nat → Block) :
    ∃ unused : BitVec 32, ∀ position < journal.jLast, log position 2 ≠ unused := by
  by_contra all
  push Not at all
  have onto : Function.Surjective fun position : Fin journal.jLast => (log position 2).toFin := by
    intro number
    obtain ⟨position, inside, same⟩ := all (BitVec.ofFin number)
    exact ⟨⟨position, inside⟩, congrArg BitVec.toFin same⟩
  have card := Fintype.card_le_of_surjective _ onto
  rw [Fintype.card_fin, Fintype.card_fin] at card
  have narrow := journal.narrow
  omega

/-- Each commit block brings the log nearer to a number that no header has. -/
theorem Logged.commits_le {journal : Journal} {log : Nat → Block} {transaction : BitVec 32}
    {position : Nat} {items : List Item} (logged : Logged journal log transaction position items)
    {unused : BitVec 32} (absent : ∀ position < journal.jLast, log position 2 ≠ unused) :
    commits items ≤ (unused - transaction).toNat := by
  induction logged with
  | ended => exact Nat.zero_le _
  | @item transaction transaction' position position' item items inside found rest ih =>
    obtain ⟨sequence, ⟨rfl, rfl⟩ | ⟨inner, rfl⟩⟩ := itemAt_transaction found
    · have apart := absent position inside
      rw [commits_commit]
      bv_omega
    · rwa [commits_inner inner]

theorem Logged.commits_lt {journal : Journal} {log : Nat → Block} {transaction : BitVec 32}
    {position : Nat} {items : List Item} (logged : Logged journal log transaction position items) :
    commits items < 2 ^ 32 := by
  obtain ⟨unused, absent⟩ := exists_unused journal log
  exact Nat.lt_of_le_of_lt (logged.commits_le absent) (BitVec.isLt _)

end MagxKernel.Jbd
