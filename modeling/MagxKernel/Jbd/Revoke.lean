import MagxKernel.Jbd.Passes

namespace MagxKernel.Jbd

open List

/-- All records of a list, in order, with the sequence numbers of their transactions. -/
def setAll (start : BitVec 32) (revoke : List RevokeRecord) (records : List (Nat × BitVec 32)) :
    List RevokeRecord :=
  records.foldl (fun revoke record =>
    journalSetRevoke revoke record.2 (start + BitVec.ofNat 32 record.1)) revoke

section Scan

variable {journal : Journal}

/-- The records of a revoke block from the given one on. -/
def recordsFrom (journal : Journal) (block : Block) (index : Nat) : List (BitVec 32) :=
  ((List.range' index ((journal.jBlocksize - 16) / 4 - index)).filter fun index =>
    ((16 + 4 * index : Nat) : Int) < (block 3).toInt).map fun index => block (4 + index)

theorem recordsFrom_zero (block : Block) :
    recordsFrom journal block 0 = revokedBlocks journal block := by
  rw [recordsFrom, revokedBlocks, range_eq_range', Nat.sub_zero]

variable {block : Block}

theorem recordsFrom_past {index : Nat} (past : (block 3).toInt ≤ ((16 + 4 * index : Nat) : Int)) :
    recordsFrom journal block index = [] := by
  rw [recordsFrom, map_eq_nil_iff, filter_eq_nil_iff]
  intro other found
  have above := (mem_range'_1.mp found).1
  simp only [decide_eq_true_eq]
  omega

theorem recordsFrom_cons {index : Nat} (room : 16 + 4 * index < journal.jBlocksize)
    (here : ((16 + 4 * index : Nat) : Int) < (block 3).toInt) :
    recordsFrom journal block index =
      block (4 + index) :: recordsFrom journal block (index + 1) := by
  have aligned := journal.aligned
  have count : (journal.jBlocksize - 16) / 4 - index =
      (journal.jBlocksize - 16) / 4 - (index + 1) + 1 := by omega
  rw [recordsFrom, count, range'_succ, filter_cons_of_pos (by simpa using here)]
  rfl

theorem scanRevokeFrom_eq (sequence : BitVec 32) (fuel index : Nat) (revoke : List RevokeRecord)
    (inside : 16 + 4 * index ≤ journal.jBlocksize)
    (enough : journal.jBlocksize < 16 + 4 * index + 4 * fuel) :
    scanRevokeFrom journal.jBlocksize block (block 3).toInt sequence fuel (16 + 4 * index) revoke =
      if (block 3).toInt ≤ journal.jBlocksize then
        some ((recordsFrom journal block index).foldl
          (fun revoke blocknr => journalSetRevoke revoke blocknr sequence) revoke)
      else none := by
  have aligned := journal.aligned
  induction fuel generalizing index revoke with
  | zero => omega
  | succ fuel ih =>
    rw [scanRevokeFrom]
    split
    · rename_i here
      by_cases room : 16 + 4 * index < journal.jBlocksize
      · have word : (16 + 4 * index) / 4 = 4 + index := by omega
        rw [if_neg (by omega), word, recordsFrom_cons room here, foldl_cons]
        exact ih (index + 1) _ (by omega) (by omega)
      · rw [if_pos (by omega), if_neg (by omega)]
    · rw [if_pos (by omega), recordsFrom_past (by omega)]
      rfl

/-- A revoke block is read to the end of its records when its count fits the block. -/
theorem scanRevokeRecords_eq (block : Block) (sequence : BitVec 32) (revoke : List RevokeRecord) :
    scanRevokeRecords journal.jBlocksize block sequence revoke =
      if (block 3).toInt ≤ journal.jBlocksize then
        some ((revokedBlocks journal block).foldl
          (fun revoke blocknr => journalSetRevoke revoke blocknr sequence) revoke)
      else none := by
  have minimum := journal.minimum
  rw [← recordsFrom_zero]
  exact scanRevokeFrom_eq sequence _ 0 revoke (by omega) (by omega)

end Scan

/-- The item is no revoke block that claims more than a block. -/
def Item.Fits (journal : Journal) (item : Item) : Prop :=
  ∀ block, item = .revokes block → (block 3).toInt ≤ journal.jBlocksize

variable {journal : Journal}

theorem applyItem_revoke {sequence : BitVec 32} {effect : Effect} {item : Item}
    (fits : item.Fits journal) :
    applyItem journal .revoke sequence effect item =
      some ⟨(item.revokeList journal).foldl
        (fun revoke blocknr => journalSetRevoke revoke blocknr sequence) effect.revoke,
        effect.fs⟩ := by
  cases item with
  | commit | copies => rfl
  | revokes block =>
    simp only [applyItem, if_true, scanRevokeRecords_eq, if_pos (fits block rfl), Option.map_some]
    rfl

theorem applyEntries_revoke {start : BitVec 32} (entries : List (Nat × Item))
    (fits : ∀ entry ∈ entries, entry.2.Fits journal) (effect : Effect) :
    applyEntries journal .revoke start effect entries =
      some ⟨setAll start effect.revoke (revokesOf journal entries), effect.fs⟩ := by
  induction entries generalizing effect with
  | nil => rfl
  | cons entry entries ih =>
    rw [applyEntries_cons, applyItem_revoke (fits entry mem_cons_self), Option.bind_some,
      ih (forall_mem_cons.mp fits).2]
    simp [setAll, revokesOf, foldl_map]

theorem applyEntries_overrun {start : BitVec 32} (entries : List (Nat × Item))
    (overrun : ∃ entry ∈ entries, ¬ entry.2.Fits journal) (effect : Effect) :
    applyEntries journal .revoke start effect entries = none := by
  induction entries generalizing effect with
  | nil =>
    obtain ⟨entry, found, _⟩ := overrun
    cases found
  | cons entry entries ih =>
    rw [applyEntries_cons]
    by_cases fits : entry.2.Fits journal
    · rw [applyItem_revoke fits, Option.bind_some]
      obtain ⟨other, found, long⟩ := overrun
      rcases mem_cons.mp found with rfl | later
      · exact absurd fits long
      · exact ih ⟨other, later, long⟩ _
    · have faults : applyItem journal .revoke (start + BitVec.ofNat 32 entry.1) effect entry.2 =
          none := by
        unfold Item.Fits at fits
        push Not at fits
        obtain ⟨block, same, long⟩ := fits
        rw [same]
        simp [applyItem, scanRevokeRecords_eq, if_neg (Int.not_le.mpr long)]
      rw [faults]
      rfl

section Table

variable {revoke : List RevokeRecord} {blocknr other sequence : BitVec 32}

theorem findRevokeRecord_cons (record : RevokeRecord) :
    findRevokeRecord (record :: revoke) other =
      if record.blocknr = other then some record else findRevokeRecord revoke other := by
  by_cases same : record.blocknr = other <;> simp [findRevokeRecord, same]

theorem findRevokeRecord_setSequence :
    findRevokeRecord (setSequence blocknr sequence revoke) other =
      if other = blocknr then
        (findRevokeRecord revoke other).map fun record => { record with sequence := sequence }
      else findRevokeRecord revoke other := by
  induction revoke with
  | nil => split <;> rfl
  | cons record rest ih =>
    rw [setSequence]
    split
    · rw [findRevokeRecord_cons, findRevokeRecord_cons]
      grind
    · rw [findRevokeRecord_cons, findRevokeRecord_cons, ih]
      grind

/-- The record of a block after a block has been revoked. -/
theorem findRevokeRecord_set :
    findRevokeRecord (journalSetRevoke revoke blocknr sequence) other =
      if other = blocknr then
        some ((findRevokeRecord revoke blocknr).elim ⟨blocknr, sequence⟩ fun record =>
          if tidGt sequence record.sequence then { record with sequence := sequence } else record)
      else findRevokeRecord revoke other := by
  unfold journalSetRevoke
  cases found : findRevokeRecord revoke blocknr with
  | none =>
    simp only [findRevokeRecord_cons, eq_comm, Option.elim_none]
  | some record =>
    simp only [Option.elim_some]
    by_cases later : tidGt sequence record.sequence = true
    · rw [if_pos later, if_pos later, findRevokeRecord_setSequence]
      split
      · rename_i same
        rw [same, found, Option.map_some]
      · rfl
    · rw [if_neg later, if_neg later]
      split
      · rename_i same
        rw [same, found]
      · rfl

/-- The table holds for each block the last transaction that revokes it. -/
structure TableOf (start : BitVec 32) (records : List (Nat × BitVec 32))
    (revoke : List RevokeRecord) : Prop where
  absent : ∀ blocknr, findRevokeRecord revoke blocknr = none →
    ∀ record ∈ records, record.2 ≠ blocknr
  present : ∀ blocknr found, findRevokeRecord revoke blocknr = some found →
    ∃ number, found.sequence = start + BitVec.ofNat 32 number ∧ (number, blocknr) ∈ records ∧
      ∀ record ∈ records, record.2 = blocknr → record.1 ≤ number

variable {start : BitVec 32} {records : List (Nat × BitVec 32)} {number : Nat}

theorem TableOf.set (table : TableOf start records revoke)
    (latest : ∀ record ∈ records, record.1 ≤ number) (small : number < 2 ^ 31) :
    TableOf start (records ++ [(number, blocknr)])
      (journalSetRevoke revoke blocknr (start + BitVec.ofNat 32 number)) := by
  constructor
  · intro other missing
    rw [findRevokeRecord_set] at missing
    split at missing
    · cases missing
    rename_i apart
    exact forall_mem_append.mpr
      ⟨table.absent other missing, forall_mem_singleton.mpr (Ne.symm apart)⟩
  · intro other result held
    rw [findRevokeRecord_set] at held
    split at held
    · rename_i here
      cases held
      refine ⟨number, ?_, mem_append_right _ (mem_singleton.mpr (by rw [here])),
        forall_mem_append.mpr
          ⟨fun record old _ => latest record old, forall_mem_singleton.mpr fun _ => Nat.le_refl _⟩⟩
      cases found : findRevokeRecord revoke blocknr with
      | none => rfl
      | some held =>
        obtain ⟨number', same, member, _⟩ := table.present blocknr held found
        have order := latest _ member
        rw [Option.elim_some, same, tidGt_sequence start small (Nat.lt_of_le_of_lt order small)]
        split
        · rfl
        · rename_i later
          have equal : number' = number := by
            simp only [decide_eq_true_eq] at later
            omega
          rw [same, equal]
    · rename_i apart
      obtain ⟨number', same, member, last⟩ := table.present other result held
      exact ⟨number', same, mem_append_left _ member, forall_mem_append.mpr
        ⟨last, forall_mem_singleton.mpr fun block => absurd block.symm apart⟩⟩

theorem tableOf_setAll (start : BitVec 32) (records : List (Nat × BitVec 32))
    (sorted : records.Pairwise fun first second => first.1 ≤ second.1)
    (small : ∀ record ∈ records, record.1 < 2 ^ 31) :
    TableOf start records (setAll start [] records) := by
  induction records using List.reverseRecOn with
  | nil => exact ⟨fun _ _ _ wrong => (by cases wrong), fun _ _ wrong => (by cases wrong)⟩
  | append_singleton records record ih =>
    obtain ⟨front, _, before⟩ := pairwise_append.mp sorted
    have table := ih front fun other found => small other (mem_append_left _ found)
    rw [setAll, foldl_append]
    exact table.set (fun other found => before other found record mem_cons_self)
      (small record (mem_append_right _ mem_cons_self))

/-- A block of a transaction is skipped when a transaction from that one on revokes it. -/
theorem TableOf.test (table : TableOf start records revoke)
    (small : ∀ record ∈ records, record.1 < 2 ^ 31) (below : number < 2 ^ 31)
    (blocknr : BitVec 32) :
    journalTestRevoke revoke blocknr (start + BitVec.ofNat 32 number) =
      revoked records number blocknr := by
  unfold journalTestRevoke revoked
  split
  · rename_i missing
    symm
    rw [any_eq_false]
    intro record found
    have apart := table.absent blocknr missing record found
    simp [apart]
  · rename_i found held
    obtain ⟨number', same, member, last⟩ := table.present blocknr found held
    rw [same, tidGt_sequence start below (small _ member), ← decide_not, Bool.eq_iff_iff,
      decide_eq_true_eq, any_eq_true]
    constructor
    · intro order
      exact ⟨_, member, by simpa using order⟩
    · intro hit
      obtain ⟨record, within, matches_it⟩ := hit
      obtain ⟨block, order⟩ := of_decide_eq_true matches_it
      have most := last record within block
      omega

end Table

end MagxKernel.Jbd
