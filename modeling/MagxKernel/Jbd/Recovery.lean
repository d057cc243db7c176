import Mathlib.Algebra.Group.Nat.Defs
import Mathlib.Logic.Function.Basic

namespace MagxKernel.Jbd

open Function

/-- A block as its big-endian words: recovery reads and writes aligned words only. -/
abbrev Block := Nat → BitVec 32

/-- What the superblock tells. `j_maxlen` is `j_last` once the superblock is read. -/
structure Journal where
  jFirst : Nat
  jLast : Nat
  jBlocksize : Nat
  sSequence : BitVec 32
  sStart : BitVec 32
  /-- `journal_bmap`: where a block of the log is in the file system, if the journal is a file -/
  bmap : Nat → Option (BitVec 32)
  ordered : jFirst ≤ jLast
  /-- no log position that is computed leaves an `unsigned long` -/
  narrow : jLast + jBlocksize < 2 ^ 32
  minimum : 1024 ≤ jBlocksize
  aligned : jBlocksize % 4 = 0

def jfsMagicNumber : BitVec 32 := 0xc03b3998

def jfsDescriptorBlock : BitVec 32 := 1
def jfsCommitBlock : BitVec 32 := 2
def jfsRevokeBlock : BitVec 32 := 5

def eio : Int := -5

def hasFlag (flags : BitVec 32) (flag : BitVec 32) : Bool := flags &&& flag != 0

def jfsFlagEscape : BitVec 32 := 1
def jfsFlagSameUuid : BitVec 32 := 2
def jfsFlagLastTag : BitVec 32 := 8

def tidGt (x y : BitVec 32) : Bool := 0 < (x - y).toInt

def tidGeq (x y : BitVec 32) : Bool := 0 ≤ (x - y).toInt

structure RevokeRecord where
  blocknr : BitVec 32
  sequence : BitVec 32
deriving DecidableEq

/-- The record of a block. Its hash chain holds every record of the block. -/
def findRevokeRecord (revoke : List RevokeRecord) (blocknr : BitVec 32) : Option RevokeRecord :=
  revoke.find? fun record => record.blocknr = blocknr

def setSequence (blocknr sequence : BitVec 32) : List RevokeRecord → List RevokeRecord
  | [] => []
  | record :: rest =>
      if record.blocknr = blocknr then { record with sequence := sequence } :: rest
      else record :: setSequence blocknr sequence rest

def journalSetRevoke (revoke : List RevokeRecord) (blocknr sequence : BitVec 32) :
    List RevokeRecord :=
  match findRevokeRecord revoke blocknr with
  | some record =>
      if tidGt sequence record.sequence then setSequence blocknr sequence revoke else revoke
  | none => ⟨blocknr, sequence⟩ :: revoke

def journalTestRevoke (revoke : List RevokeRecord) (blocknr sequence : BitVec 32) : Bool :=
  match findRevokeRecord revoke blocknr with
  | none => false
  | some record => !tidGt sequence record.sequence

def wrap (journal : Journal) (var : Nat) : Nat :=
  if journal.jLast ≤ var then var - (journal.jLast - journal.jFirst) else var

/-- The loop of `count_tags`; `tagp` counts words. A turn takes at least eight bytes. -/
def countTagsFrom (size : Nat) (bh : Block) : Nat → Nat → Nat
  | 0, _ => 0
  | fuel + 1, tagp =>
      if 4 * tagp + 8 ≤ size then
        let flags := bh (tagp + 1)
        if hasFlag flags jfsFlagLastTag then 1
        else
          countTagsFrom size bh fuel (tagp + 2 + if hasFlag flags jfsFlagSameUuid then 0 else 4) + 1
      else 0

/-- The first tag stands after the three words of the header. -/
def countTags (bh : Block) (size : Nat) : Nat := countTagsFrom size bh size 3

/-- The log, in the file system or on a device of its own. -/
def logOn (journal : Journal) (dev : Nat → Block) (fs : BitVec 32 → Block) (position : Nat) :
    Block :=
  (journal.bmap position).elim (dev position) fs

/-- What a pass works on. `dev` is `j_dev` where that is not `j_fs_dev`. -/
structure PassState where
  nextCommitID : BitVec 32
  nextLogBlock : Nat
  success : Int
  dev : Nat → Block
  revoke : List RevokeRecord
  fs : BitVec 32 → Block

def PassState.log (state : PassState) (journal : Journal) : Nat → Block :=
  logOn journal state.dev state.fs

def PassState.writeLog (state : PassState) (journal : Journal) (position : Nat) (block : Block) :
    PassState :=
  match journal.bmap position with
  | none => { state with dev := update state.dev position block }
  | some blocknr => { state with fs := update state.fs blocknr block }

def memcpy (size : Nat) (source target : Block) : Block :=
  fun word => if 4 * word < size then source word else target word

/-- The block of one tag is written back unless it is revoked. The descriptor block
itself gets the magic number of an escaped block. -/
def replayBlock (journal : Journal) (bh : Nat) (blocknr flags : BitVec 32) (state : PassState) :
    PassState :=
  let ioBlock := state.nextLogBlock
  let state := { state with nextLogBlock := wrap journal (ioBlock + 1) }
  if journal.jLast ≤ ioBlock then { state with success := eio }
  else if journalTestRevoke state.revoke blocknr state.nextCommitID then state
  else
    let state := { state with
      fs := update state.fs blocknr
        (memcpy journal.jBlocksize (state.log journal ioBlock) (state.fs blocknr)) }
    if hasFlag flags jfsFlagEscape then
      state.writeLog journal bh (update (state.log journal bh) 0 jfsMagicNumber)
    else state

/-- The loop over the tags of the descriptor block at `bh` in `PASS_REPLAY`. -/
def replayTags (journal : Journal) (bh : Nat) : Nat → Nat → PassState → PassState
  | 0, _, state => state
  | fuel + 1, tagp, state =>
      if 4 * tagp + 8 ≤ journal.jBlocksize then
        let flags := state.log journal bh (tagp + 1)
        let state := replayBlock journal bh (state.log journal bh tagp) flags state
        if hasFlag flags jfsFlagLastTag then state
        else
          replayTags journal bh fuel
            (tagp + 2 + if hasFlag flags jfsFlagSameUuid then 0 else 4) state
      else state

/-- The loop of `scan_revoke_records`. No result stands for a read past the end of
the block. -/
def scanRevokeFrom (size : Nat) (bh : Block) (max : Int) (sequence : BitVec 32) :
    Nat → Nat → List RevokeRecord → Option (List RevokeRecord)
  | 0, _, _ => none
  | fuel + 1, offset, revoke =>
      if (offset : Int) < max then
        if size < offset + 4 then none
        else
          scanRevokeFrom size bh max sequence fuel (offset + 4)
            (journalSetRevoke revoke (bh (offset / 4)) sequence)
      else some revoke

def scanRevokeRecords (size : Nat) (bh : Block) (sequence : BitVec 32)
    (revoke : List RevokeRecord) : Option (List RevokeRecord) :=
  scanRevokeFrom size bh (bh 3).toInt sequence size 16 revoke

inductive PassType where
  | scan
  | revoke
  | replay
deriving DecidableEq

/-- How a turn of the loop in `do_one_pass` ends. -/
inductive Turn where
  | again (state : PassState)
  | done (state : PassState)
  | failed (err : Int) (state : PassState)
  /-- a read past the end of a block -/
  | fault

/-- The `switch` on the type of the block at `bh`. -/
def handleBlock (journal : Journal) (pass : PassType) (bh : Nat) (state : PassState) : Turn :=
  let block := state.log journal bh
  if block 1 = jfsDescriptorBlock then
    if pass ≠ .replay then
      .again { state with
        nextLogBlock := wrap journal (state.nextLogBlock + countTags block journal.jBlocksize) }
    else .again (replayTags journal bh journal.jBlocksize 3 state)
  else if block 1 = jfsCommitBlock then
    .again { state with nextCommitID := state.nextCommitID + 1 }
  else if block 1 = jfsRevokeBlock then
    if pass ≠ .revoke then .again state
    else
      match scanRevokeRecords journal.jBlocksize block state.nextCommitID state.revoke with
      | none => .fault
      | some revoke => .again { state with revoke := revoke }
  else .done state

def passTurn (journal : Journal) (pass : PassType) (endTransaction : BitVec 32)
    (state : PassState) : Turn :=
  if pass ≠ .scan ∧ tidGeq state.nextCommitID endTransaction then .done state
  else if journal.jLast ≤ state.nextLogBlock then .failed eio state
  else
    let bh := state.nextLogBlock
    let state := { state with nextLogBlock := wrap journal (bh + 1) }
    if state.log journal bh 0 ≠ jfsMagicNumber then .done state
    else if state.log journal bh 2 ≠ state.nextCommitID then .done state
    else handleBlock journal pass bh state

/-- How a pass ends. It may be still running when the turns are used up. -/
inductive PassEnd where
  | returned (err : Int) (endTransaction : BitVec 32) (state : PassState)
  | failed (err : Int) (state : PassState)
  | fault
  | running

/-- What `do_one_pass` does at `done`. -/
def passDone (pass : PassType) (endTransaction : BitVec 32) (state : PassState) : PassEnd :=
  match pass with
  | .scan => .returned state.success state.nextCommitID state
  | _ =>
      if endTransaction ≠ state.nextCommitID ∧ state.success = 0 then
        .returned eio endTransaction state
      else .returned state.success endTransaction state

def passLoop (journal : Journal) (pass : PassType) (endTransaction : BitVec 32) :
    Nat → PassState → PassEnd
  | 0, _ => .running
  | turns + 1, state =>
      match passTurn journal pass endTransaction state with
      | .again state => passLoop journal pass endTransaction turns state
      | .done state => passDone pass endTransaction state
      | .failed err state => .failed err state
      | .fault => .fault

def doOnePass (journal : Journal) (pass : PassType) (endTransaction : BitVec 32)
    (dev : Nat → Block) (revoke : List RevokeRecord) (fs : BitVec 32 → Block) (turns : Nat) :
    PassEnd :=
  passLoop journal pass endTransaction turns
    ⟨journal.sSequence, journal.sStart.toNat, 0, dev, revoke, fs⟩

/-- What `journal_recover` returns and leaves, and how it may fail to return. -/
inductive Recovered where
  | returned (err : Int) (jTransactionSequence : BitVec 32) (fs : BitVec 32 → Block)
  | fault
  | running

/-- What follows a pass: the next one, unless it has failed. -/
def PassEnd.andThen (endTransaction : BitVec 32) (next : BitVec 32 → PassState → Recovered) :
    PassEnd → Recovered
  | .running => .running
  | .fault => .fault
  | .failed err state => .returned err (endTransaction + 1) state.fs
  | .returned err endTransaction state =>
      if err ≠ 0 then .returned err (endTransaction + 1) state.fs else next endTransaction state

def journalRecover (journal : Journal) (dev : Nat → Block) (fs : BitVec 32 → Block) (turns : Nat) :
    Recovered :=
  if journal.sStart = 0 then .returned 0 (journal.sSequence + 1) fs
  else
    -- `end_transaction` is zero until the scan has ended
    (doOnePass journal .scan 0 dev [] fs turns).andThen 0 fun last state =>
      (doOnePass journal .revoke last state.dev state.revoke state.fs turns).andThen last
        fun last state =>
          (doOnePass journal .replay last state.dev state.revoke state.fs turns).andThen last
            fun last state => .returned 0 (last + 1) state.fs

end MagxKernel.Jbd
