import MagxKernel.Jbd.Log

namespace MagxKernel.Jbd

open Function List Option

/-- What the passes leave behind: the revoke table and the file system. -/
structure Effect where
  revoke : List RevokeRecord
  fs : BitVec 32 → Block

def replayCopy (journal : Journal) (sequence : BitVec 32) (effect : Effect) (copy : Copy) :
    Effect :=
  if journalTestRevoke effect.revoke copy.blocknr sequence then effect
  else
    { effect with
      fs := Function.update effect.fs copy.blocknr
        (memcpy journal.jBlocksize copy.data (effect.fs copy.blocknr)) }

section ReplayCopy

variable {journal : Journal} {sequence : BitVec 32} {effect : Effect} {copy : Copy}

theorem replayCopy_revoked
    (hit : journalTestRevoke effect.revoke copy.blocknr sequence = true) :
    replayCopy journal sequence effect copy = effect :=
  if_pos hit

theorem replayCopy_kept
    (miss : ¬ journalTestRevoke effect.revoke copy.blocknr sequence = true) :
    replayCopy journal sequence effect copy =
      ⟨effect.revoke, update effect.fs copy.blocknr
        (memcpy journal.jBlocksize copy.data (effect.fs copy.blocknr))⟩ :=
  if_neg miss

end ReplayCopy

/-- What an item of the log means to a pass. -/
def applyItem (journal : Journal) (pass : PassType) (sequence : BitVec 32) (effect : Effect) :
    Item → Option Effect
  | .copies copies =>
      if pass = .replay then some (copies.foldl (replayCopy journal sequence) effect)
      else some effect
  | .revokes block =>
      if pass = .revoke then
        (scanRevokeRecords journal.jBlocksize block sequence effect.revoke).map fun revoke =>
          { effect with revoke := revoke }
      else some effect
  | .commit => some effect

def PassState.effect (state : PassState) : Effect := ⟨state.revoke, state.fs⟩

/-- The state after an item: its effect, the transaction and the place that follow. -/
def PassState.move (state : PassState) (effect : Effect) (transaction : BitVec 32)
    (position : Nat) : PassState :=
  { state with
    nextCommitID := transaction
    nextLogBlock := position
    revoke := effect.revoke
    fs := effect.fs }

theorem countTagsFrom_eq (size : Nat) (block : Block) (fuel tagp : Nat) :
    countTagsFrom size block fuel tagp = (tagsFrom size block fuel tagp).length := by
  induction fuel generalizing tagp with
  | zero => rfl
  | succ fuel ih =>
    simp only [countTagsFrom, tagsFrom]
    split
    · split
      · rfl
      · rw [length_cons, ih]
    · rfl

variable {journal : Journal} {position : Nat}

section

variable (inside : position < journal.jLast)

include inside

/-- One turn round the log at most: stepping over the blocks one by one and jumping
over all of them lead to the same place. -/
theorem wrap_step {count : Nat} (within : wrap journal (position + (count + 1)) < journal.jLast) :
    wrap journal (position + 1) < journal.jLast ∧
      wrap journal (wrap journal (position + 1) + count) =
        wrap journal (position + (count + 1)) := by
  unfold wrap at within ⊢
  split at within <;> split <;> split <;> omega

theorem wrap_of_lt : wrap journal position = position :=
  if_neg (Nat.not_le.mpr inside)

theorem wrap_next_lt {count : Nat}
    (within : wrap journal (wrap journal (position + 1) + count) < journal.jLast) :
    wrap journal (position + 1) < journal.jLast := by
  unfold wrap at within ⊢
  split
  · rename_i last
    rw [if_pos last] at within
    split at within <;> omega
  · omega

end

section OneDevice

variable {dev : Nat → Block} {fs : BitVec 32 → Block} {blocknr : BitVec 32}
  (off : ∀ position, journal.bmap position ≠ some blocknr)

include off

/-- A write to a block that the log is not in leaves the log as it is. -/
theorem logOn_update (block : Block) :
    logOn journal dev (update fs blocknr block) = logOn journal dev fs := by
  funext position
  unfold logOn
  cases place : journal.bmap position with
  | none => rfl
  | some other =>
    have apart : other ≠ blocknr := fun same => off position (same ▸ place)
    exact update_of_ne apart ..

theorem replayCopy_log {sequence : BitVec 32} {effect : Effect} (escaped : Bool) (data : Block) :
    logOn journal dev (replayCopy journal sequence effect ⟨blocknr, escaped, data⟩).fs =
      logOn journal dev effect.fs := by
  unfold replayCopy
  split
  · rfl
  · exact logOn_update off _

end OneDevice

/-- The magic number of an escaped block is stored where it is already. -/
theorem writeLog_magic {bh : Nat} {state : PassState}
    (magic : state.log journal bh 0 = jfsMagicNumber) :
    state.writeLog journal bh (update (state.log journal bh) 0 jfsMagicNumber) = state := by
  rw [← magic, update_eq_self]
  unfold PassState.writeLog PassState.log logOn
  split
  next place => rw [place, elim_none, update_eq_self]
  next place => rw [place, elim_some, update_eq_self]

theorem replayBlock_eq {bh : Nat} {blocknr flags : BitVec 32} {state : PassState}
    (magic : state.log journal bh 0 = jfsMagicNumber) (inside : state.nextLogBlock < journal.jLast)
    (off : ∀ position, journal.bmap position ≠ some blocknr) :
    replayBlock journal bh blocknr flags state =
      state.move (replayCopy journal state.nextCommitID state.effect
          ⟨blocknr, hasFlag flags jfsFlagEscape, state.log journal state.nextLogBlock⟩)
        state.nextCommitID (wrap journal (state.nextLogBlock + 1)) := by
  simp only [replayBlock, if_neg (Nat.not_le.mpr inside)]
  split
  · rename_i hit
    rw [replayCopy_revoked hit]
    rfl
  · rename_i hit
    rw [replayCopy_kept hit]
    split
    · exact writeLog_magic ((congrFun (congrFun (logOn_update off _) bh) 0).trans magic)
    · rfl

theorem replayTags_eq {bh : Nat} (fuel tagp : Nat) (state : PassState)
    {log : Nat → Block} (reads : state.log journal = log) (magic : log bh 0 = jfsMagicNumber)
    (inside : state.nextLogBlock < journal.jLast)
    (within : wrap journal (state.nextLogBlock +
      (tagsFrom journal.jBlocksize (log bh) fuel tagp).length) < journal.jLast)
    (off : (Item.copies (copiesFrom journal log state.nextLogBlock
      (tagsFrom journal.jBlocksize (log bh) fuel tagp))).OffLog journal) :
    replayTags journal bh fuel tagp state =
      state.move ((copiesFrom journal log state.nextLogBlock
          (tagsFrom journal.jBlocksize (log bh) fuel tagp)).foldl
          (replayCopy journal state.nextCommitID) state.effect)
        state.nextCommitID (wrap journal (state.nextLogBlock +
          (tagsFrom journal.jBlocksize (log bh) fuel tagp).length)) := by
  induction fuel generalizing tagp state with
  | zero =>
    simp only [replayTags, tagsFrom, copiesFrom, foldl_nil, length_nil, Nat.add_zero,
      wrap_of_lt inside]
    rfl
  | succ fuel ih =>
    simp only [replayTags, reads]
    simp only [tagsFrom] at within off ⊢
    split
    · rename_i room
      rw [if_pos room] at within off
      obtain ⟨offHere, offRest⟩ := forall_mem_cons.mp off
      rw [replayBlock_eq (reads ▸ magic) inside offHere, reads]
      split
      · simp [copiesFrom]
      · rename_i more
        simp only [if_neg more, length_cons] at within offRest ⊢
        obtain ⟨next, same⟩ := wrap_step inside within
        rw [← same] at within ⊢
        exact ih _ _ ((replayCopy_log offHere _ _).trans reads) next within offRest
    · simp only [copiesFrom, foldl_nil, length_nil, Nat.add_zero, wrap_of_lt inside]
      rfl

/-- What a turn of the loop does with an item. -/
def turnOf (state : PassState) (transaction : BitVec 32) (position : Nat) :
    Option Effect → Turn
  | none => .fault
  | some effect => .again (state.move effect transaction position)

section

variable {pass : PassType} {state : PassState} {transaction stop : BitVec 32} {item : Item}
  {log : Nat → Block} {items : List Item}

theorem handleBlock_eq {bh : Nat} (inside : bh < journal.jLast)
    (here : state.nextLogBlock = wrap journal (bh + 1))
    (found : itemAt journal (state.log journal) state.nextCommitID bh =
      some (item, transaction, position))
    (within : pass = .replay → position < journal.jLast ∧ item.OffLog journal) :
    handleBlock journal pass bh state =
      turnOf state transaction position
        (applyItem journal pass state.nextCommitID state.effect item) := by
  obtain ⟨header, found⟩ := ite_none_right_eq_some.mp found
  simp only [handleBlock]
  split at found
  · rename_i descriptor
    cases found
    rw [if_pos descriptor]
    split
    · rename_i skips
      rw [countTags, countTagsFrom_eq, here]
      simp only [applyItem, if_neg skips]
      rfl
    · rename_i replays
      rw [ne_eq, not_not] at replays
      obtain ⟨ends, off⟩ := within replays
      rw [← here] at ends off
      have next : state.nextLogBlock < journal.jLast := by
        rw [here] at ends ⊢
        exact wrap_next_lt inside ends
      rw [replayTags_eq _ _ _ rfl header.1 next ends off, here]
      simp only [applyItem, if_pos replays]
      rfl
  · rename_i other
    rw [if_neg other]
    split at found
    · rename_i commit
      cases found
      rw [if_pos commit, ← here]
      rfl
    · rename_i other'
      rw [if_neg other']
      split at found
      · rename_i revokes
        cases found
        rw [if_pos revokes, ← here]
        simp only [applyItem]
        split
        · rfl
        · rename_i scans
          rw [if_pos (not_not.mp scans)]
          simp only [PassState.effect]
          cases scanRevokeRecords journal.jBlocksize (state.log journal bh) state.nextCommitID
            state.revoke with
          | none | some revoke => rfl
      · cases found

theorem handleBlock_done {bh : Nat}
    (header : state.log journal bh 0 = jfsMagicNumber ∧
      state.log journal bh 2 = state.nextCommitID)
    (ended : itemAt journal (state.log journal) state.nextCommitID bh = none) :
    handleBlock journal pass bh state = .done state := by
  simp only [itemAt, if_pos header] at ended
  split at ended
  · cases ended
  rename_i other
  split at ended
  · cases ended
  rename_i other'
  split at ended
  · cases ended
  rename_i other''
  simp [handleBlock, if_neg other, if_neg other', if_neg other'']

section

variable (active : ¬ (pass ≠ .scan ∧ tidGeq state.nextCommitID stop = true))
  (inside : state.nextLogBlock < journal.jLast)

include active inside

theorem passTurn_item
    (found : itemAt journal (state.log journal) state.nextCommitID state.nextLogBlock =
      some (item, transaction, position))
    (within : pass = .replay → position < journal.jLast ∧ item.OffLog journal) :
    passTurn journal pass stop state =
      turnOf state transaction position
        (applyItem journal pass state.nextCommitID state.effect item) := by
  have header : state.log journal state.nextLogBlock 0 = jfsMagicNumber ∧
      state.log journal state.nextLogBlock 2 = state.nextCommitID := by
    by_contra wrong
    simp only [itemAt, if_neg wrong] at found
    cases found
  rw [passTurn, if_neg active, if_neg (Nat.not_le.mpr inside)]
  refine (if_neg (not_not.mpr header.1)).trans ((if_neg (not_not.mpr header.2)).trans ?_)
  exact @handleBlock_eq _ _ _ { state with nextLogBlock := wrap journal (state.nextLogBlock + 1) } _
    _ _ inside rfl found within

theorem passTurn_ended
    (ended : itemAt journal (state.log journal) state.nextCommitID state.nextLogBlock = none) :
    passTurn journal pass stop state =
      .done { state with nextLogBlock := wrap journal (state.nextLogBlock + 1) } := by
  rw [passTurn, if_neg active, if_neg (Nat.not_le.mpr inside)]
  simp only
  split
  · rfl
  · rename_i magic
    split
    · rfl
    · rename_i sequence
      exact handleBlock_done ⟨not_not.mp magic, not_not.mp sequence⟩ ended

end

theorem Logged.inside (logged : Logged journal log transaction position items) :
    position < journal.jLast := by
  cases logged with
  | ended inside _ | item inside _ _ => exact inside

theorem itemAt_next {transaction' : BitVec 32} {position' : Nat}
    (found : itemAt journal log transaction position = some (item, transaction', position')) :
    transaction' + BitVec.ofNat 32 (commits items) =
      transaction + BitVec.ofNat 32 (commits (item :: items)) := by
  obtain ⟨_, ⟨rfl, rfl⟩ | ⟨inner, rfl⟩⟩ := itemAt_transaction found
  · exact sequence_succ _ _
  · rw [commits_inner inner]

/-- The first pass steps over an item and has no effect. -/
theorem scanLoop_item {turns : Nat} {entry : Item × BitVec 32 × Nat}
    (inside : state.nextLogBlock < journal.jLast)
    (found : itemAt journal (state.log journal) state.nextCommitID state.nextLogBlock =
      some entry) :
    passLoop journal .scan stop (turns + 1) state =
      passLoop journal .scan stop turns (state.move state.effect entry.2.1 entry.2.2) := by
  have unread : applyItem journal .scan state.nextCommitID state.effect entry.1 =
      some state.effect := by
    cases entry.1 <;> rfl
  rw [passLoop, passTurn_item (fun wrong => wrong.1 rfl) inside found nofun, unread]
  rfl

/-- The first pass finds the items of the log, or that the log leads out of itself. -/
theorem scanLoop (turns : Nat) (state : PassState)
    (ends : passLoop journal .scan stop turns state ≠ .running) :
    (∃ items last,
        Logged journal (state.log journal) state.nextCommitID state.nextLogBlock items ∧
        items.length < turns ∧
        passLoop journal .scan stop turns state =
          .returned state.success (state.nextCommitID + BitVec.ofNat 32 (commits items))
            (state.move state.effect (state.nextCommitID + BitVec.ofNat 32 (commits items)) last)) ∨
      (∃ last, passLoop journal .scan stop turns state = .failed eio last) ∧
        ∀ items, ¬ Logged journal
          (state.log journal) state.nextCommitID state.nextLogBlock items := by
  induction turns generalizing state with
  | zero => exact absurd rfl ends
  | succ turns ih =>
    have active : ¬ (PassType.scan ≠ .scan ∧ tidGeq state.nextCommitID stop = true) :=
      fun wrong => wrong.1 rfl
    by_cases inside : state.nextLogBlock < journal.jLast
    · cases found : itemAt journal (state.log journal) state.nextCommitID state.nextLogBlock with
      | none =>
        refine .inl ⟨[], wrap journal (state.nextLogBlock + 1), .ended inside found,
          Nat.zero_lt_succ _, ?_⟩
        rw [passLoop, passTurn_ended active inside found]
        rw [show state.nextCommitID + BitVec.ofNat 32 (commits []) = state.nextCommitID from
          BitVec.add_zero _]
        rfl
      | some entry =>
        obtain ⟨item, transaction, position⟩ := entry
        rw [scanLoop_item inside found] at ends ⊢
        rcases ih _ ends with ⟨items, last, logged, short, done⟩ | ⟨failed, nothing⟩
        · refine .inl ⟨item :: items, last, .item inside found logged, Nat.succ_lt_succ short, ?_⟩
          rw [done, ← itemAt_next found]
          rfl
        · refine .inr ⟨failed, ?_⟩
          intro items logged
          obtain ⟨rest, _, tail⟩ := logged.of_item found
          exact nothing rest tail
    · refine .inr ⟨⟨state, ?_⟩, fun items logged => inside logged.inside⟩
      rw [passLoop, passTurn, if_neg active, if_pos (Nat.not_lt.mp inside)]

end

/-- The effects of committed items, each in the transaction of its number. -/
def applyEntries (journal : Journal) (pass : PassType) (start : BitVec 32) (effect : Effect)
    (entries : List (Nat × Item)) : Option Effect :=
  entries.foldlM (fun effect entry =>
    applyItem journal pass (start + BitVec.ofNat 32 entry.1) effect entry.2) effect

theorem applyEntries_cons (journal : Journal) (pass : PassType) (start : BitVec 32)
    (effect : Effect) (entry : Nat × Item) (entries : List (Nat × Item)) :
    applyEntries journal pass start effect (entry :: entries) =
      (applyItem journal pass (start + BitVec.ofNat 32 entry.1) effect entry.2).bind fun effect =>
        applyEntries journal pass start effect entries :=
  foldlM_cons ..

/-- How a pass over the committed items ends. -/
def passOver (pass : PassType) (stop : BitVec 32) (state : PassState) (last : Nat) :
    Option Effect → PassEnd
  | none => .fault
  | some effect => passDone pass stop (state.move effect stop last)

theorem applyItem_log {journal : Journal} {pass : PassType} {sequence : BitVec 32}
    {effect effect' : Effect} {item : Item} (dev : Nat → Block)
    (off : pass = .replay → item.OffLog journal)
    (applied : applyItem journal pass sequence effect item = some effect') :
    logOn journal dev effect'.fs = logOn journal dev effect.fs := by
  cases item with
  | commit =>
    cases applied
    rfl
  | revokes block =>
    simp only [applyItem] at applied
    split at applied
    · obtain ⟨revoke, _, rfl⟩ := map_eq_some_iff.mp applied
      rfl
    · cases applied
      rfl
  | copies copies =>
    simp only [applyItem] at applied
    split at applied
    · rename_i replays
      cases applied
      have away := off replays
      clear off
      induction copies generalizing effect with
      | nil => rfl
      | cons copy copies ih =>
        obtain ⟨here, rest⟩ := forall_mem_cons.mp away
        exact (ih rest).trans (replayCopy_log here _ _)
    · cases applied
      rfl

/-- The later passes handle just the committed items, each in its transaction. -/
theorem laterLoop {journal : Journal} {pass : PassType} (later : pass ≠ .scan)
    {log : Nat → Block} {transaction start : BitVec 32} {position : Nat} {items : List Item}
    (logged : Logged journal log transaction position items) (few : commits items ≤ 2 ^ 31)
    (number turns : Nat) (enough : items.length < turns)
    (open_now : transaction = start + BitVec.ofNat 32 number) (effect : Effect) (success : Int)
    {dev : Nat → Block} (reads : logOn journal dev effect.fs = log)
    (off : pass = .replay → ∀ entry ∈ committedFrom number items, entry.2.OffLog journal) :
    ∃ last,
      passLoop journal pass (start + BitVec.ofNat 32 (number + commits items)) turns
          ⟨transaction, position, success, dev, effect.revoke, effect.fs⟩ =
        passOver pass (start + BitVec.ofNat 32 (number + commits items))
          ⟨transaction, position, success, dev, effect.revoke, effect.fs⟩ last
          (applyEntries journal pass start effect (committedFrom number items)) := by
  induction logged generalizing number turns effect with
  | @ended transaction position inside none_here =>
    obtain ⟨turns, rfl⟩ := Nat.exists_eq_add_one_of_ne_zero (Nat.ne_of_gt enough)
    refine ⟨position, ?_⟩
    have stops : tidGeq transaction (start + BitVec.ofNat 32 (number + commits [])) = true := by
      rw [open_now, tidGeq_end _ _ (by decide : commits [] < 2 ^ 32)]
      rfl
    rw [passLoop, passTurn, if_pos ⟨later, stops⟩, open_now]
    rfl
  | @item transaction transaction' position position' item items inside found rest ih =>
    obtain ⟨turns, rfl⟩ := Nat.exists_eq_add_one_of_ne_zero (Nat.ne_zero_of_lt enough)
    have reach : tidGeq transaction (start + BitVec.ofNat 32 (number + commits (item :: items))) =
        decide (commits (item :: items) = 0) := by
      rw [open_now, tidGeq_end _ _ (by omega)]
      congr 1
      rw [eq_iff_iff]
      omega
    by_cases unfinished : commits (item :: items) = 0
    · refine ⟨position, ?_⟩
      rw [passLoop, passTurn, if_pos ⟨later, by rw [reach]; exact decide_eq_true unfinished⟩,
        committedFrom_open unfinished, unfinished, Nat.add_zero, ← open_now]
      rfl
    · have active : ¬ (pass ≠ .scan ∧
          tidGeq transaction (start + BitVec.ofNat 32 (number + commits (item :: items))) =
            true) := by
        rw [reach]
        exact fun wrong => unfinished (of_decide_eq_true wrong.2)
      have short : items.length < turns := Nat.lt_of_succ_lt_succ enough
      -- the number of the next item, and what is committed from it on
      have next : ∃ number', transaction' = start + BitVec.ofNat 32 number' ∧
          number' + commits items = number + commits (item :: items) ∧
          commits items ≤ 2 ^ 31 ∧
          committedFrom number (item :: items) = (number, item) :: committedFrom number' items := by
        obtain ⟨_, ⟨rfl, rfl⟩ | ⟨inner, rfl⟩⟩ := itemAt_transaction found
        · rw [commits_commit] at few ⊢
          refine ⟨number + 1, ?_, by omega, by omega, committedFrom_commit number items⟩
          bv_omega
        · rw [commits_inner inner] at few unfinished ⊢
          exact ⟨number, open_now, rfl, few, committedFrom_inner inner unfinished number⟩
      obtain ⟨number', open_next, same_stop, few', split⟩ := next
      rw [split] at off
      have here (replays : pass = .replay) := forall_mem_cons.mp (off replays)
      have turn := @passTurn_item journal _ pass
        ⟨transaction, position, success, dev, effect.revoke, effect.fs⟩ _ _ _ active inside
        (reads ▸ found) fun replays => ⟨rest.inside, (here replays).1⟩
      rw [passLoop, turn, split, applyEntries_cons, ← open_now, ← same_stop]
      simp only [PassState.effect]
      cases applied : applyItem journal pass transaction effect item with
      | none => exact ⟨position, rfl⟩
      | some effect' =>
        have kept := applyItem_log dev (fun replays => (here replays).1) applied
        exact ih few' number' turns short open_next effect' (kept.trans reads)
          fun replays => (here replays).2

end MagxKernel.Jbd
