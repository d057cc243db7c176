import MagxKernel.Jbd.Replay

namespace MagxKernel.Jbd

section Tags

/-- A word of a buffer. No result stands for a word outside of it. -/
def readWord (size : Nat) (bh : Block) (word : Nat) : Option (BitVec 32) :=
  if 4 * word + 4 ≤ size then some (bh word) else none

/-- The loop over the tags, as `count_tags` and the replay make it, with every read checked. -/
def readTagsFrom (size : Nat) (bh : Block) : Nat → Nat → Option (List (BitVec 32 × BitVec 32))
  | 0, _ => some []
  | fuel + 1, tagp =>
      if 4 * tagp + 8 ≤ size then
        (readWord size bh tagp).bind fun blocknr =>
          (readWord size bh (tagp + 1)).bind fun flags =>
            if hasFlag flags jfsFlagLastTag then some [(blocknr, flags)]
            else
              (readTagsFrom size bh fuel
                (tagp + 2 + if hasFlag flags jfsFlagSameUuid then 0 else 4)).map
                  ((blocknr, flags) :: ·)
      else some []

theorem readTagsFrom_eq (size : Nat) (bh : Block) (fuel tagp : Nat) :
    readTagsFrom size bh fuel tagp = some (tagsFrom size bh fuel tagp) := by
  induction fuel generalizing tagp with
  | zero => rfl
  | succ fuel ih =>
    simp only [readTagsFrom, tagsFrom]
    split
    · rw [readWord, if_pos (by omega), Option.bind_some, readWord, if_pos (by omega),
        Option.bind_some]
      split
      · rfl
      · rw [ih, Option.map_some]
    · rfl

end Tags

variable {journal : Journal} {log dev : Nat → Block} {fs : BitVec 32 → Block}

/-- The first pass comes to the end of a log that has one. -/
theorem Logged.scan_ends {transaction stop : BitVec 32} {position : Nat} {items : List Item}
    (logged : Logged journal log transaction position items) (success : Int)
    (revoke : List RevokeRecord) (image : logOn journal dev fs = log) :
    passLoop journal .scan stop (items.length + 1)
      ⟨transaction, position, success, dev, revoke, fs⟩ ≠ .running := by
  subst image
  induction logged with
  | ended inside none_here =>
    rw [passLoop, passTurn_ended (fun wrong => wrong.1 rfl) inside none_here]
    exact fun wrong => (by cases wrong)
  | item inside found _ ih =>
    rw [List.length_cons, scanLoop_item inside found]
    exact ih

/-- Recovery reads past the end of a block only where a revoke block makes it. -/
theorem journalRecover_fault_iff {turns : Nat}
    (ends : doOnePass journal .scan 0 dev [] fs turns ≠ .running) :
    journalRecover journal dev fs turns = .fault ↔
      ∃ items, LogHolds journal (logOn journal dev fs) items ∧ commits items ≤ 2 ^ 31 ∧
        ¬ RevokesFit journal items := by
  rcases journalRecover_cases ends with
    ⟨sequence, fs', done, many⟩ | ⟨items, holds, few, ⟨long, done⟩ | ⟨fits, done, _⟩⟩
  · rw [done]
    exact ⟨nofun, fun ⟨items, holds, few, _⟩ => absurd (many items holds) (Nat.not_lt.mpr few)⟩
  · exact ⟨fun _ => ⟨items, holds, few, long⟩, fun _ => done⟩
  · exact ⟨fun fault => absurd fault done,
      fun ⟨items', holds', _, long⟩ => absurd (holds'.unique holds ▸ fits) long⟩

/-- Recovery reads tags and revoke records from inside their blocks if and only if
no revoke block that it comes to has a count of more bytes than a block. -/
theorem journalRecover_reads_inside_iff (journal : Journal) (dev : Nat → Block)
    (fs : BitVec 32 → Block) :
    ((∀ block, readTagsFrom journal.jBlocksize block journal.jBlocksize 3 =
          some (tagsOf journal block)) ∧
        ∀ turns, journalRecover journal dev fs turns ≠ .fault) ↔
      ∀ items, LogHolds journal (logOn journal dev fs) items → commits items ≤ 2 ^ 31 →
        RevokesFit journal items := by
  constructor
  · rintro ⟨_, inside⟩ items holds few
    by_contra long
    refine inside (items.length + 1) ((journalRecover_fault_iff ?_).mpr ⟨items, holds, few, long⟩)
    rcases holds with ⟨_, rfl⟩ | ⟨_, logged⟩
    · exact absurd nofun long
    · exact logged.scan_ends 0 [] rfl
  · intro fits
    refine ⟨fun block => readTagsFrom_eq .., fun turns fault => ?_⟩
    by_cases ends : doOnePass journal .scan 0 dev [] fs turns = .running
    · rw [journalRecover, ends] at fault
      split at fault <;> cases fault
    · obtain ⟨items, holds, few, long⟩ := (journalRecover_fault_iff ends).mp fault
      exact long (fits items holds few)

/-- A revoke block of 1024 bytes that claims one word more, and its commit block. -/
def longRevokes : Nat → Block
  | _, 0 => jfsMagicNumber
  | 1, 1 => jfsRevokeBlock
  | _, 1 => jfsCommitBlock
  | _, 2 => 1
  | _, 3 => 1028
  | _, _ => 0

theorem journalRecover_overruns :
    journalRecover
      ⟨1, 4, 1024, 1, 1, fun _ => none, by decide, by decide, by decide, by decide⟩ longRevokes
      (fun _ _ => 0) 5 = .fault := by
  refine (journalRecover_fault_iff fun wrong => (by cases wrong)).mpr
    ⟨[.revokes (longRevokes 1), .commit], ?_, by decide, ?_⟩
  · exact .inr ⟨by decide, .item (by decide) rfl (.item (by decide) rfl (.ended (by decide) rfl))⟩
  · exact fun fits => absurd (fits (0, .revokes _) List.mem_cons_self _ rfl) (by decide)

end MagxKernel.Jbd
