import MagxKernel.Jbd.Revoke

namespace MagxKernel.Jbd

open List Function

/-- A copy goes back to its place as it stands in the log. -/
def writeBack (journal : Journal) (fs : BitVec 32 → Block) (copy : Copy) : BitVec 32 → Block :=
  update fs copy.blocknr (memcpy journal.jBlocksize copy.data (fs copy.blocknr))

theorem memcpy_memcpy (size : Nat) (first second old : Block) :
    memcpy size first (memcpy size second old) = memcpy size first old := by
  funext word
  simp only [memcpy]
  split <;> rfl

/-- After all writes a block holds the latest copy of it, or what it held before. -/
theorem foldl_writeBack (journal : Journal) (fs : BitVec 32 → Block) (copies : List Copy)
    (blocknr : BitVec 32) :
    copies.foldl (writeBack journal) fs blocknr =
      (latestOf copies blocknr).elim (fs blocknr) fun copy =>
        memcpy journal.jBlocksize copy.data (fs blocknr) := by
  induction copies using List.reverseRecOn with
  | nil => rfl
  | append_singleton copies copy ih =>
    rw [foldl_append, foldl_cons, foldl_nil, writeBack, latestOf, filter_append]
    by_cases here : copy.blocknr = blocknr
    · rw [filter_cons_of_pos (by simpa using here), filter_nil, getLast?_concat, here,
        update_self, ih, Option.elim_some]
      cases latestOf copies blocknr with
      | none => rfl
      | some older => exact memcpy_memcpy ..
    · rw [filter_cons_of_neg (by simpa using here), filter_nil, append_nil,
        update_of_ne (Ne.symm here), ih]
      rfl

section Replay

variable {journal : Journal}

theorem foldl_replayCopy (sequence : BitVec 32) (copies : List Copy) (effect : Effect) :
    copies.foldl (replayCopy journal sequence) effect =
      ⟨effect.revoke, (copies.filter fun copy =>
        !journalTestRevoke effect.revoke copy.blocknr sequence).foldl (writeBack journal)
          effect.fs⟩ := by
  induction copies generalizing effect with
  | nil => rfl
  | cons copy copies ih =>
    rw [foldl_cons, ih]
    by_cases hit : journalTestRevoke effect.revoke copy.blocknr sequence = true
    · rw [replayCopy_revoked hit, filter_cons_of_neg (by simp [hit])]
    · rw [replayCopy_kept hit, filter_cons_of_pos (by simpa using hit)]
      rfl

theorem applyItem_replay (sequence : BitVec 32) (effect : Effect) (item : Item) :
    applyItem journal .replay sequence effect item =
      some ⟨effect.revoke, (item.copyList.filter fun copy =>
        !journalTestRevoke effect.revoke copy.blocknr sequence).foldl (writeBack journal)
          effect.fs⟩ := by
  cases item with
  | commit | revokes => rfl
  | copies copies =>
    simp only [applyItem, if_true]
    rw [foldl_replayCopy]
    rfl

theorem applyEntries_replay (start : BitVec 32) (entries : List (Nat × Item)) (effect : Effect) :
    applyEntries journal .replay start effect entries =
      some ⟨effect.revoke, (((copiesOf entries).filter fun copy =>
        !journalTestRevoke effect.revoke copy.2.blocknr
          (start + BitVec.ofNat 32 copy.1)).map Prod.snd).foldl (writeBack journal) effect.fs⟩ := by
  induction entries generalizing effect with
  | nil => rfl
  | cons entry entries ih =>
    rw [applyEntries_cons, applyItem_replay, Option.bind_some, ih]
    simp only [copiesOf, flatMap_cons, filter_append, map_append,
      foldl_append, filter_map, map_map]
    congr 2
    · rw [show Prod.snd ∘ Prod.mk entry.1 = (id : Copy → Copy) from rfl, map_id]
      rfl

end Replay

section Committed

variable {journal : Journal}

theorem numbered_sorted (number : Nat) (items : List Item) :
    (numbered number items).Pairwise fun first second => first.1 ≤ second.1 := by
  induction items generalizing number with
  | nil => exact List.Pairwise.nil
  | cons item items ih =>
    cases item with
    | commit =>
      refine List.Pairwise.cons ?_ (ih (number + 1))
      exact fun entry found => Nat.le_of_succ_le (numbered_ge found)
    | copies | revokes => exact List.Pairwise.cons (fun _ => numbered_ge) (ih number)

variable {entries : List (Nat × Item)} {items : List Item}

theorem revokesOf_sorted (sorted : entries.Pairwise fun first second => first.1 ≤ second.1) :
    (revokesOf journal entries).Pairwise fun first second => first.1 ≤ second.1 := by
  induction entries with
  | nil => exact List.Pairwise.nil
  | cons entry entries ih =>
    obtain ⟨first, rest⟩ := pairwise_cons.mp sorted
    refine pairwise_append.mpr ⟨?_, ih rest, ?_⟩
    · rw [pairwise_map]
      exact pairwise_of_forall fun _ _ => Nat.le_refl _
    · intro record here record' later
      obtain ⟨_, _, rfl⟩ := mem_map.mp here
      obtain ⟨entry', member, within⟩ := mem_flatMap.mp later
      obtain ⟨_, _, rfl⟩ := mem_map.mp within
      exact first entry' member

theorem committed_lt {entry : Nat × Item} (found : entry ∈ committedFrom 0 items) :
    entry.1 < commits items := by
  have below := of_decide_eq_true (mem_filter.mp found).2
  omega

theorem mem_entries {α : Type} {parts : Item → List α} {part : Nat × α}
    (found : part ∈ entries.flatMap fun entry => (parts entry.2).map (Prod.mk entry.1)) :
    ∃ entry ∈ entries, part.1 = entry.1 := by
  obtain ⟨entry, member, within⟩ := mem_flatMap.mp found
  obtain ⟨_, _, rfl⟩ := mem_map.mp within
  exact ⟨entry, member, rfl⟩

/-- With the table of the second pass the third one writes back the survivors. -/
theorem replay_survivors (few : commits items ≤ 2 ^ 31) (start : BitVec 32)
    (fs : BitVec 32 → Block) :
    applyEntries journal .replay start
        ⟨setAll start [] (revokesOf journal (committedFrom 0 items)), fs⟩
        (committedFrom 0 items) =
      some ⟨setAll start [] (revokesOf journal (committedFrom 0 items)),
        (survivors journal items).foldl (writeBack journal) fs⟩ := by
  have sorted : (revokesOf journal (committedFrom 0 items)).Pairwise
      fun first second => first.1 ≤ second.1 :=
    revokesOf_sorted ((numbered_sorted 0 items).sublist filter_sublist)
  have small : ∀ record ∈ revokesOf journal (committedFrom 0 items), record.1 < 2 ^ 31 := by
    intro record found
    obtain ⟨entry, member, same⟩ := mem_entries found
    have below := committed_lt member
    omega
  have table := tableOf_setAll start _ sorted small
  rw [applyEntries_replay, survivors]
  congr 4
  refine filter_congr ?_
  intro copy found
  obtain ⟨entry, member, same⟩ := mem_entries found
  have below := committed_lt member
  rw [table.test small (by omega)]

/-- What recovery writes is right exactly when the escaped copies need no repair. -/
theorem writeBack_restored_iff {fs : BitVec 32 → Block} :
    (survivors journal items).foldl (writeBack journal) fs = restored journal items fs ↔
      EscapesHeld journal items := by
  have minimum := journal.minimum
  constructor
  · intro same blocknr copy latest escaped
    have here := congrFun (congrFun same blocknr) 0
    rw [foldl_writeBack] at here
    simp only [restored, latest, Option.elim_some, restore, escaped, if_true,
      update_self] at here
    rw [← here, memcpy, if_pos (by omega)]
  · intro held
    funext blocknr
    rw [foldl_writeBack]
    simp only [restored]
    cases latest : latestOf (survivors journal items) blocknr with
    | none => rfl
    | some copy =>
      simp only [Option.elim_some, restore]
      split
      · rename_i escaped
        rw [← held blocknr copy latest escaped]
        have word : copy.data 0 = memcpy journal.jBlocksize copy.data (fs blocknr) 0 := by
          rw [memcpy, if_pos (by omega)]
        rw [word, update_eq_self]
      · rfl

end Committed

section Recover

variable {journal : Journal} {log dev : Nat → Block} {fs : BitVec 32 → Block} {items : List Item}

theorem LogHolds.unique {first second : List Item} (left : LogHolds journal log first)
    (right : LogHolds journal log second) : first = second := by
  rcases left with ⟨empty, rfl⟩ | ⟨started, logged⟩ <;>
    rcases right with ⟨empty', rfl⟩ | ⟨started', logged'⟩
  · rfl
  · exact absurd empty started'
  · exact absurd empty' started
  · exact logged.unique logged'

theorem passOver_some {pass : PassType} (later : pass ≠ .scan) {stop : BitVec 32}
    {state : PassState} (fine : state.success = 0) (last : Nat) (effect : Effect) :
    passOver pass stop state last (some effect) =
      .returned 0 stop (state.move effect stop last) := by
  cases pass with
  | scan => exact absurd rfl later
  | revoke | replay => simp [passOver, passDone, PassState.move, fine]

/-- More than half of the transaction numbers in use: the second pass reports an error. -/
theorem revokePass_tooMany {turns : Nat} (enough : 0 < turns) {count : Nat}
    (many : 2 ^ 31 < count) (bound : count < 2 ^ 32) (state : PassState)
    (fine : state.success = 0) :
    passLoop journal .revoke (state.nextCommitID + BitVec.ofNat 32 count) turns state =
      .returned eio (state.nextCommitID + BitVec.ofNat 32 count) state := by
  obtain ⟨turns, rfl⟩ := Nat.exists_eq_add_one_of_ne_zero (Nat.ne_of_gt enough)
  have stops : tidGeq state.nextCommitID (state.nextCommitID + BitVec.ofNat 32 count) = true := by
    have reach := tidGeq_end state.nextCommitID 0 bound
    rw [Nat.zero_add, show state.nextCommitID + BitVec.ofNat 32 0 = state.nextCommitID from
      BitVec.add_zero _] at reach
    rw [reach]
    exact decide_eq_true (.inr many)
  have apart : state.nextCommitID + BitVec.ofNat 32 count ≠ state.nextCommitID := by
    intro same
    bv_omega
  rw [passLoop, passTurn, if_pos ⟨by decide, stops⟩]
  simp only [passDone, if_pos (And.intro apart fine)]

/-- A later pass over a log whose transactions can be told apart. -/
theorem laterPass {pass : PassType} (later : pass ≠ .scan) {effect : Effect}
    (logged : Logged journal (logOn journal dev effect.fs) journal.sSequence journal.sStart.toNat
      items) (few : commits items ≤ 2 ^ 31) {turns : Nat} (enough : items.length < turns)
    (off : pass = .replay → TagsOff journal items) :
    ∃ last,
      doOnePass journal pass (journal.sSequence + BitVec.ofNat 32 (commits items)) dev
          effect.revoke effect.fs turns =
        passOver pass (journal.sSequence + BitVec.ofNat 32 (commits items))
          ⟨journal.sSequence, journal.sStart.toNat, 0, dev, effect.revoke, effect.fs⟩ last
          (applyEntries journal pass journal.sSequence effect (committedFrom 0 items)) := by
  have run := laterLoop later logged few 0 turns enough (BitVec.add_zero _).symm effect 0 rfl off
  rw [Nat.zero_add] at run
  exact run

/-- The third pass reads no records, so it stays inside its blocks. -/
theorem passTurn_replay {stop : BitVec 32} (state : PassState) :
    passTurn journal .replay stop state ≠ .fault := by
  simp only [passTurn, handleBlock, ne_eq, reduceCtorEq, not_false_eq_true, not_true_eq_false,
    if_true, if_false]
  repeat' split
  all_goals simp

theorem replay_ne_fault {stop : BitVec 32} (turns : Nat) (state : PassState) :
    passLoop journal .replay stop turns state ≠ .fault := by
  induction turns generalizing state with
  | zero => simp [passLoop]
  | succ turns ih =>
    rw [passLoop]
    split
    next state _ => exact ih state
    next =>
      unfold passDone
      dsimp only
      split <;> simp
    next => simp
    next fault => exact absurd fault (passTurn_replay state)

/-- How `journal_recover` ends once the scan has ended. -/
theorem journalRecover_cases {turns : Nat}
    (ends : doOnePass journal .scan 0 dev [] fs turns ≠ .running) :
    (∃ sequence fs', journalRecover journal dev fs turns = .returned eio sequence fs' ∧
        ∀ items, LogHolds journal (logOn journal dev fs) items → 2 ^ 31 < commits items) ∨
      ∃ items, LogHolds journal (logOn journal dev fs) items ∧ commits items ≤ 2 ^ 31 ∧
        (¬ RevokesFit journal items ∧ journalRecover journal dev fs turns = .fault ∨
          RevokesFit journal items ∧ journalRecover journal dev fs turns ≠ .fault ∧
            (TagsOff journal items → ∃ sequence, journalRecover journal dev fs turns =
              .returned 0 sequence ((survivors journal items).foldl (writeBack journal) fs))) := by
  by_cases started : journal.sStart = 0
  · have done : journalRecover journal dev fs turns = .returned 0 (journal.sSequence + 1) fs :=
      if_pos started
    rw [done]
    exact .inr ⟨[], .inl ⟨started, rfl⟩, Nat.zero_le _,
      .inr ⟨forall_mem_nil _, by simp, fun _ => ⟨_, rfl⟩⟩⟩
  · rcases scanLoop turns _ ends with ⟨items, last, logged, enough, scanned⟩ |
      ⟨⟨last, failed⟩, nothing⟩
    · have holds : LogHolds journal (logOn journal dev fs) items := .inr ⟨started, logged⟩
      change doOnePass journal .scan 0 dev [] fs turns = _ at scanned
      simp only [journalRecover, if_neg started, scanned, PassEnd.andThen, ne_eq,
        not_true_eq_false, if_false, PassState.move, PassState.effect]
      by_cases few : commits items ≤ 2 ^ 31
      · refine .inr ⟨items, holds, few, ?_⟩
        obtain ⟨last₁, second⟩ := @laterPass journal dev items .revoke (by decide) ⟨[], fs⟩ logged
          few turns enough (by simp)
        by_cases fits : RevokesFit journal items
        · rw [applyEntries_revoke _ fits, passOver_some (by decide : PassType.revoke ≠ .scan) rfl]
            at second
          rw [second]
          simp only [not_true_eq_false, if_false, PassState.move]
          refine .inr ⟨fits, fun fault => ?_, fun off => ?_⟩
          · split at fault
            next => cases fault
            next faulted => exact replay_ne_fault turns _ faulted
            next => cases fault
            next => split at fault <;> cases fault
          · obtain ⟨last₂, third⟩ := @laterPass journal dev items .replay (by decide)
              ⟨setAll journal.sSequence [] (revokesOf journal (committedFrom 0 items)), fs⟩ logged
              few turns enough fun _ => off
            rw [replay_survivors few, passOver_some (by decide : PassType.replay ≠ .scan) rfl]
              at third
            rw [third]
            exact ⟨_, rfl⟩
        · refine .inl ⟨fits, ?_⟩
          have overrun : ∃ entry ∈ committedFrom 0 items, ¬ entry.2.Fits journal := by
            by_contra none
            exact fits fun entry member => not_not.mp fun long => none ⟨entry, member, long⟩
          rw [applyEntries_overrun _ overrun] at second
          rw [second]
          rfl
      · have many : 2 ^ 31 < commits items := Nat.not_le.mp few
        have second := @revokePass_tooMany journal turns (Nat.zero_lt_of_lt enough) _ many
          logged.commits_lt ⟨journal.sSequence, journal.sStart.toNat, 0, dev, [], fs⟩ rfl
        refine .inl ⟨journal.sSequence + BitVec.ofNat 32 (commits items) + 1, fs, ?_, ?_⟩
        · rw [doOnePass, second]
          exact if_pos (by decide)
        · exact fun items' holds' => by rwa [holds'.unique holds]
    · refine .inl ⟨1, last.fs, ?_, ?_⟩
      · rw [journalRecover, if_neg started, doOnePass, failed]
        rfl
      · rintro items (⟨empty, _⟩ | ⟨_, logged⟩)
        · exact absurd empty started
        · exact absurd logged (nothing items)

end Recover

/-- Whenever the scan of a log ends and no tag names a block of the log, recovery returns, and if
it reports success the file system is the one the log stands for, if and only if no revoke block
runs over and no copy that has to be restored lacks the magic number its tag promises. -/
theorem journalRecover_restores_iff (journal : Journal) (dev : Nat → Block)
    (fs : BitVec 32 → Block) (turns : Nat)
    (ends : doOnePass journal .scan 0 dev [] fs turns ≠ .running)
    (off : ∀ items, LogHolds journal (logOn journal dev fs) items → TagsOff journal items) :
    (∃ err sequence fs', journalRecover journal dev fs turns = .returned err sequence fs' ∧
        (err = 0 → ∃ items, LogHolds journal (logOn journal dev fs) items ∧
          fs' = restored journal items fs)) ↔
      ∀ items, LogHolds journal (logOn journal dev fs) items → commits items ≤ 2 ^ 31 →
        RevokesFit journal items ∧ EscapesHeld journal items := by
  rcases journalRecover_cases ends with
    ⟨sequence, fs', done, many⟩ | ⟨items, holds, few, ⟨long, done⟩ | ⟨fits, _, done⟩⟩
  · constructor
    · intro _ items holds few
      exact absurd (many items holds) (Nat.not_lt.mpr few)
    · exact fun _ => ⟨_, _, _, done, fun wrong => absurd wrong (by decide)⟩
  · constructor
    · intro returns
      obtain ⟨err, sequence, fs', wrong, _⟩ := returns
      rw [done] at wrong
      cases wrong
    · exact fun all => absurd (all items holds few).1 long
  · obtain ⟨sequence, done⟩ := done (off items holds)
    constructor
    · intro returns items' holds' _
      obtain ⟨err, sequence, fs', same, right⟩ := returns
      rw [done] at same
      cases same
      obtain ⟨items'', holds'', equal⟩ := right rfl
      rw [holds''.unique holds] at equal
      rw [holds'.unique holds]
      exact ⟨fits, writeBack_restored_iff.mp equal⟩
    · intro all
      refine ⟨_, _, _, done, fun _ => ⟨items, holds, ?_⟩⟩
      exact writeBack_restored_iff.mpr (all items holds few).2

/-- A journal in the blocks of the file system from 4096 on. -/
private def fileJournal : Journal where
  jFirst := 1
  jLast := 1024
  jBlocksize := 1024
  sSequence := 5
  sStart := 1
  bmap position := if position < 1024 then some (BitVec.ofNat 32 (4096 + position)) else none
  ordered := by decide
  narrow := by decide
  minimum := by decide
  aligned := by decide

/-- One transaction in that journal, with a copy of block 7, its tag and its commit block. -/
private def oneCopy (flags : BitVec 32) (blocknr : BitVec 32) : Block := fun word =>
  if blocknr = 7 then 1
  else if blocknr = 4097 then
    if word = 0 then jfsMagicNumber else if word = 1 then jfsDescriptorBlock
    else if word = 2 then 5 else if word = 3 then 7 else if word = 4 then flags else 0
  else if blocknr = 4099 then
    if word = 0 then jfsMagicNumber else if word = 1 then jfsCommitBlock
    else if word = 2 then 5 else 0
  else 0

private theorem plainCopy_off (items : List Item)
    (holds : LogHolds fileJournal (logOn fileJournal (fun _ _ => 0) (oneCopy 10)) items) :
    TagsOff fileJournal items := by
  have known : LogHolds fileJournal (logOn fileJournal (fun _ _ => 0) (oneCopy 10))
      [.copies [⟨7, false, oneCopy 10 4098⟩], .commit] :=
    .inr ⟨by decide, .item (by decide) rfl (.item (by decide) rfl (.ended (by decide) rfl))⟩
  rw [holds.unique known]
  refine forall_mem_cons.mpr ⟨?_, forall_mem_singleton.mpr nofun⟩
  refine forall_mem_singleton.mpr fun position named => ?_
  obtain ⟨inside, same⟩ := Option.ite_some_none_eq_some.mp named
  bv_omega

theorem journalRecover_restores_iff_plainCopy :
    doOnePass fileJournal .scan 0 (fun _ _ => 0) [] (oneCopy 10) 4 ≠ .running ∧
      ((∃ err sequence fs', journalRecover fileJournal (fun _ _ => 0) (oneCopy 10) 4 =
            .returned err sequence fs' ∧
          (err = 0 → ∃ items,
            LogHolds fileJournal (logOn fileJournal (fun _ _ => 0) (oneCopy 10)) items ∧
              fs' = restored fileJournal items (oneCopy 10))) ↔
        ∀ items, LogHolds fileJournal (logOn fileJournal (fun _ _ => 0) (oneCopy 10)) items →
          commits items ≤ 2 ^ 31 →
            RevokesFit fileJournal items ∧ EscapesHeld fileJournal items) := by
  have ends : doOnePass fileJournal .scan 0 (fun _ _ => 0) [] (oneCopy 10) 4 ≠ .running :=
    fun wrong => (by cases wrong)
  exact ⟨ends, journalRecover_restores_iff _ _ _ 4 ends plainCopy_off⟩

/-- The tag says that the copy of block 7 is escaped, and recovery returns 0, but
the first word of block 7 is the zero of the log. -/
theorem escapedCopy_stays_zero :
    ∃ sequence fs',
      journalRecover fileJournal (fun _ _ => 0) (oneCopy 11) 4 = .returned 0 sequence fs' ∧
        fs' 7 0 = 0 ∧
        ∃ items, LogHolds fileJournal (logOn fileJournal (fun _ _ => 0) (oneCopy 11)) items ∧
          restored fileJournal items (oneCopy 11) 7 0 = jfsMagicNumber := by
  refine ⟨_, _, rfl, rfl, [.copies [⟨7, true, oneCopy 11 4098⟩], .commit], ?_, rfl⟩
  refine .inr ⟨by decide, ?_⟩
  refine .item (by decide) rfl (.item (by decide) rfl (.ended (by decide) rfl))

theorem latestOf_mem {copies : List Copy} {copy : Copy} {blocknr : BitVec 32}
    (latest : latestOf copies blocknr = some copy) : copy ∈ copies ∧ copy.blocknr = blocknr := by
  have member := mem_filter.mp (mem_of_getLast? latest)
  exact ⟨member.1, of_decide_eq_true member.2⟩

theorem TagsOff.survivor {journal : Journal} {items : List Item} (off : TagsOff journal items)
    {copy : Copy} (member : copy ∈ survivors journal items) (position : Nat) :
    journal.bmap position ≠ some copy.blocknr := by
  obtain ⟨numbered, found, rfl⟩ := mem_map.mp member
  obtain ⟨entry, committed, within⟩ := mem_flatMap.mp (mem_filter.mp found).1
  obtain ⟨copy, listed, rfl⟩ := mem_map.mp within
  exact off entry committed copy listed position

/-- Recovery may stop at any point and start again: whatever mixture of old and restored blocks
it finds, it ends with the same file system, if no tag names a block of the log. -/
theorem journalRecover_restart {journal : Journal} {dev : Nat → Block} {turns : Nat}
    {fs restored mixed : BitVec 32 → Block} {sequence : BitVec 32}
    (ends : ∀ start ∈ [fs, mixed], doOnePass journal .scan 0 dev [] start turns ≠ .running)
    (off : ∀ items, LogHolds journal (logOn journal dev fs) items → TagsOff journal items)
    (recovered : journalRecover journal dev fs turns = .returned 0 sequence restored)
    (between : ∀ blocknr, mixed blocknr = fs blocknr ∨ mixed blocknr = restored blocknr) :
    ∃ sequence, journalRecover journal dev mixed turns = .returned 0 sequence restored := by
  rcases journalRecover_cases (ends fs (by simp)) with
    ⟨_, _, failed, _⟩ | ⟨items, holds, few, ⟨_, faulted⟩ | ⟨fits, _, ran⟩⟩
  · rw [failed] at recovered
    cases recovered
  · rw [faulted] at recovered
    cases recovered
  obtain ⟨_, ran⟩ := ran (off items holds)
  rw [ran] at recovered
  cases recovered
  have sameLog : logOn journal dev mixed = logOn journal dev fs := by
    funext position
    unfold logOn
    cases place : journal.bmap position with
    | none => rfl
    | some blocknr =>
      refine (between blocknr).elim id fun new => new.trans ?_
      rw [foldl_writeBack]
      cases latest : latestOf (survivors journal items) blocknr with
      | none => rfl
      | some copy =>
        obtain ⟨member, rfl⟩ := latestOf_mem latest
        exact absurd place ((off items holds).survivor member position)
  have again := journalRecover_cases (ends mixed (by simp))
  rw [sameLog] at again
  rcases again with ⟨_, _, _, many⟩ | ⟨items', holds', _, ⟨long, _⟩ | ⟨_, _, again⟩⟩
  · exact absurd few (Nat.not_le.mpr (many items holds))
  · exact absurd fits (holds'.unique holds ▸ long)
  obtain ⟨sequence, again⟩ := again (off items' holds')
  rw [holds'.unique holds] at again
  refine ⟨sequence, again.trans (congrArg _ (funext fun blocknr => ?_))⟩
  have block := between blocknr
  rw [foldl_writeBack] at block
  rw [foldl_writeBack, foldl_writeBack]
  cases latest : latestOf (survivors journal items) blocknr with
  | none =>
    rw [latest] at block
    exact block.elim id id
  | some copy =>
    rw [latest] at block
    rcases block with old | new
    · rw [old]
    · rw [new]
      exact memcpy_memcpy ..

theorem journalRecover_restart_plainCopy : ∃ sequence restored,
    journalRecover fileJournal (fun _ _ => 0) (oneCopy 10) 4 = .returned 0 sequence restored ∧
      ∃ again, journalRecover fileJournal (fun _ _ => 0) restored 4 =
        .returned 0 again restored := by
  refine ⟨_, _, rfl,
    @journalRecover_restart _ _ 4 (oneCopy 10) _ _ _ ?_ plainCopy_off rfl fun _ => .inr rfl⟩
  rw [forall_mem_cons, forall_mem_singleton]
  constructor <;> exact fun wrong => (by cases wrong)

end MagxKernel.Jbd
