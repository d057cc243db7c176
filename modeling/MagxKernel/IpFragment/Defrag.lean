import Mathlib.Data.List.Nodup
import MagxKernel.Lib.Runs
import MagxKernel.IpFragment.Reassembly

namespace MagxKernel.IpFragment

open List
open Spans (total)

structure Config where
  sysctlIpfragHighThresh : Int
  sysctlIpfragLowThresh : Int
  /-- `sizeof(struct ipq)` -/
  sizeofIpq : Nat
deriving DecidableEq

/-- The hash table, kept in the order of `ipq_lru_list`: all queues are on both. -/
structure FragTable where
  lru : List Ipq
  ipFragMem : Int
deriving DecidableEq

/-- What `ip_frag_destroy` gives back. -/
def Ipq.footprint (config : Config) (qp : Ipq) : Nat :=
  config.sizeofIpq + total Skb.truesize qp.fragments

/-- The loop of `ip_evictor`, from the oldest queue on. -/
def evict (config : Config) : Int → List Ipq → Int → FragTable
  | _, [], ipFragMem => ⟨[], ipFragMem⟩
  | work, qp :: rest, ipFragMem =>
      if 0 < work then
        evict config (work - qp.footprint config) rest (ipFragMem - qp.footprint config)
      else ⟨qp :: rest, ipFragMem⟩

def ipEvictor (config : Config) (table : FragTable) : FragTable :=
  evict config (table.ipFragMem - config.sysctlIpfragLowThresh) table.lru table.ipFragMem

/-- The queue of a fragment, created when there is none. -/
def ipFind (config : Config) (table : FragTable) (key : Key) (nomem : Bool) :
    Option (FragTable × Ipq) :=
  match table.lru.find? fun qp => qp.key = key with
  | some qp => some (table, qp)
  | none =>
      if nomem then none
      else some (⟨table.lru ++ [ipFragCreate key], table.ipFragMem + config.sizeofIpq⟩,
        ipFragCreate key)

/-- The queue is changed in its place, or moved to the tail of the list. -/
def FragTable.put (table : FragTable) (outcome : Outcome) : FragTable :=
  ⟨if outcome.queued then
      (table.lru.filter fun qp => qp.key ≠ outcome.qp.key) ++ [outcome.qp]
    else table.lru.map fun qp => if qp.key = outcome.qp.key then outcome.qp else qp,
    outcome.fragMem⟩

/-- A killed queue is destroyed with its last reference. -/
def FragTable.destroy (config : Config) (table : FragTable) (qp : Ipq) (ipFragMem : Int) :
    FragTable :=
  ⟨table.lru.filter fun other => other.key ≠ qp.key, ipFragMem - qp.footprint config⟩

/-- No result stands for the dereference of a `NULL` head in `ip_frag_reasm`. -/
def ipDefrag (config : Config) (table : FragTable) (packet : Packet) (faults : Faults) :
    Option (FragTable × Option Datagram) :=
  let table :=
    if config.sysctlIpfragHighThresh < table.ipFragMem then ipEvictor config table else table
  match ipFind config table packet.key faults.queue with
  | none => some (table, none)
  | some (table, qp) =>
      let outcome := ipFragQueue qp table.ipFragMem packet faults
      if outcome.qp.ready then
        (ipFragReasm outcome.qp outcome.fragMem packet.dev faults.reasm).map fun result =>
          (table.destroy config result.qp result.fragMem, result.datagram)
      else some (table.put outcome, none)

def ipExpire (config : Config) (table : FragTable) (key : Key) : FragTable :=
  match table.lru.find? fun qp => qp.key = key with
  | some qp => table.destroy config (ipqKill qp) table.ipFragMem
  | none => table

inductive Event where
  | ipDefrag (packet : Packet) (faults : Faults)
  /-- the timer of a queue -/
  | ipExpire (key : Key)
deriving DecidableEq

def Event.packets : Event → List Packet
  | .ipDefrag packet _ => [packet]
  | .ipExpire _ => []

def Event.step (config : Config) (table : FragTable) : Event → Option FragTable
  | .ipDefrag packet faults => (IpFragment.ipDefrag config table packet faults).map Prod.fst
  | .ipExpire key => some (IpFragment.ipExpire config table key)

/-- The packets of one datagram. -/
def ofKey (key : Key) (received : List Packet) : List Packet :=
  received.filter fun packet => packet.key = key

/-- The invariant of the table: one sound queue for each datagram, and an exact
count of the memory they hold. -/
structure TableSound (config : Config) (received : List Packet) (table : FragTable) : Prop where
  keys : (table.lru.map Ipq.key).Nodup
  live : ∀ qp ∈ table.lru, qp.lastIn.complete = false
  sound : ∀ qp ∈ table.lru, Sound (ofKey qp.key received) qp
  memory : table.ipFragMem = total (Ipq.footprint config) table.lru

/-- The queue of a key, taken out of the list or changed in its place. -/
theorem key_split {lru : List Ipq} {qp : Ipq} (nodup : (lru.map Ipq.key).Nodup) (found : qp ∈ lru) :
    ∃ others, lru.Perm (qp :: others) ∧ lru.filter (fun other => other.key ≠ qp.key) = others ∧
      ∀ changed, (lru.map fun other => if other.key = qp.key then changed else other).Perm
        (changed :: others) := by
  obtain ⟨front, back, rfl⟩ := append_of_mem found
  rw [map_append, map_cons, nodup_middle, nodup_cons, ← map_append] at nodup
  have apart : ∀ other ∈ front ++ back, other.key ≠ qp.key := by
    intro other member same
    exact nodup.1 (same ▸ mem_map_of_mem member)
  refine ⟨front ++ back, perm_middle, ?_, fun changed => ?_⟩
  · rw [filter_append, filter_cons_of_neg (by simp), ← filter_append]
    exact filter_eq_self.mpr fun other member => decide_eq_true (apart other member)
  · have kept : (front ++ back).map (fun other => if other.key = qp.key then changed else other) =
        front ++ back :=
      (map_congr_left fun other member => if_neg (apart other member)).trans (map_id _)
    rw [← kept, map_append, map_append, map_cons, if_pos rfl]
    exact perm_middle

theorem ofKey_append (key : Key) (first second : List Packet) :
    ofKey key (first ++ second) = ofKey key first ++ ofKey key second :=
  filter_append ..

theorem Sound.ofKey_snoc {received : List Packet} {packet : Packet} {qp : Ipq}
    (sound : Sound (ofKey packet.key received ++ [packet]) qp) :
    Sound (ofKey packet.key (received ++ [packet])) qp := by
  have self : ofKey packet.key [packet] = [packet] := by simp [ofKey]
  rw [ofKey_append, self]
  exact sound

theorem TableSound.more {config : Config} {received : List Packet} {table : FragTable}
    (sound : TableSound config received table) (later : List Packet) :
    TableSound config (received ++ later) table := by
  refine { sound with sound := ?_ }
  intro qp found
  refine (sound.sound qp found).more ?_
  intro packet came
  rw [ofKey_append]
  exact mem_append_left _ came

theorem TableSound.empty (config : Config) : TableSound config [] ⟨[], 0⟩ where
  keys := nodup_nil
  live := fun _ found => (by cases found)
  sound := fun _ found => (by cases found)
  memory := rfl

section

variable {config : Config} {received : List Packet}

theorem TableSound.perm {lru others : List Ipq} {ipFragMem : Int}
    (sound : TableSound config received ⟨lru, ipFragMem⟩) (perm : lru.Perm others) :
    TableSound config received ⟨others, ipFragMem⟩ where
  keys := (perm.map Ipq.key).nodup_iff.mp sound.keys
  live := fun qp found => sound.live qp (perm.mem_iff.mpr found)
  sound := fun qp found => sound.sound qp (perm.mem_iff.mpr found)
  memory := sound.memory.trans (congrArg Nat.cast (perm.map _).sum_nat)

theorem tableSound_cons {qp : Ipq} {lru : List Ipq} {ipFragMem : Int} :
    TableSound config received ⟨qp :: lru, ipFragMem⟩ ↔ qp.key ∉ lru.map Ipq.key ∧
      qp.lastIn.complete = false ∧ Sound (ofKey qp.key received) qp ∧
      TableSound config received ⟨lru, ipFragMem - qp.footprint config⟩ := by
  constructor
  · intro sound
    have keys := nodup_cons.mp sound.keys
    have live := forall_mem_cons.mp sound.live
    have queues := forall_mem_cons.mp sound.sound
    have memory := sound.memory
    simp only [Spans.total_cons] at memory
    exact ⟨keys.1, live.1, queues.1, keys.2, live.2, queues.2, by simp only; omega⟩
  · rintro ⟨fresh, live, own, keys, lives, queues, memory⟩
    simp only at memory
    exact ⟨nodup_cons.mpr ⟨fresh, keys⟩, forall_mem_cons.mpr ⟨live, lives⟩,
      forall_mem_cons.mpr ⟨own, queues⟩, by simp only [Spans.total_cons]; omega⟩

theorem evict_sound (lru : List Ipq) (work ipFragMem : Int)
    (sound : TableSound config received ⟨lru, ipFragMem⟩) :
    TableSound config received (evict config work lru ipFragMem) := by
  induction lru generalizing work ipFragMem with
  | nil => exact sound
  | cons qp rest ih =>
    unfold evict
    split
    · exact ih _ _ (tableSound_cons.mp sound).2.2.2
    · exact sound

variable {table : FragTable} (sound : TableSound config received table)

include sound

theorem ipFind_spec {found : FragTable} {key : Key} {nomem : Bool} {qp : Ipq}
    (done : ipFind config table key nomem = some (found, qp)) :
    TableSound config received found ∧ qp ∈ found.lru ∧ qp.key = key := by
  unfold ipFind at done
  split at done
  · rename_i old here
    cases done
    have same := find?_some here
    exact ⟨sound, mem_of_find?_eq_some here, of_decide_eq_true same⟩
  · rename_i missing
    split at done
    · cases done
    cases done
    have fresh : key ∉ table.lru.map Ipq.key := by simpa using missing
    have size : table.ipFragMem + config.sizeofIpq - (ipFragCreate key).footprint config =
        table.ipFragMem := Int.add_sub_cancel ..
    have created : TableSound config received
        ⟨ipFragCreate key :: table.lru, table.ipFragMem + config.sizeofIpq⟩ := by
      rw [tableSound_cons, size]
      exact ⟨fresh, rfl, (ipFragCreate_sound key).more nofun, sound⟩
    exact ⟨created.perm (perm_append_singleton _ _).symm,
      mem_append_right _ mem_cons_self, rfl⟩

theorem TableSound.destroy {qp killed : Ipq} {ipFragMem : Int} (found : qp ∈ table.lru)
    (same_key : killed.key = qp.key) (freed : ipFragMem - total Skb.truesize killed.fragments =
      table.ipFragMem - total Skb.truesize qp.fragments) :
    TableSound config received (table.destroy config killed ipFragMem) := by
  obtain ⟨others, split, filtered, _⟩ := key_split sound.keys found
  have same : ipFragMem - killed.footprint config = table.ipFragMem - qp.footprint config := by
    simp only [Ipq.footprint]
    omega
  rw [FragTable.destroy, same_key, filtered, same]
  exact (tableSound_cons.mp (sound.perm split)).2.2.2

theorem TableSound.put {qp : Ipq} {packet : Packet} {outcome : Outcome} (found : qp ∈ table.lru)
    (same_key : qp.key = packet.key)
    (taken : Taken (ofKey packet.key received ++ [packet]) qp table.ipFragMem outcome) :
    TableSound config (received ++ [packet]) (table.put outcome) := by
  obtain ⟨others, split, filtered, mapped⟩ := key_split sound.keys found
  obtain ⟨fresh, live, _, rest⟩ := tableSound_cons.mp ((sound.more [packet]).perm split)
  have same : outcome.fragMem - outcome.qp.footprint config =
      table.ipFragMem - qp.footprint config := by
    have counted := taken.fragMem
    simp only [Ipq.footprint]
    omega
  have new : TableSound config (received ++ [packet]) ⟨outcome.qp :: others, outcome.fragMem⟩ := by
    rw [tableSound_cons, taken.key, same_key, same]
    exact ⟨same_key ▸ fresh, taken.complete.trans live, taken.sound.ofKey_snoc, rest⟩
  rw [FragTable.put, taken.key]
  split
  · rw [filtered]
    exact new.perm (perm_append_singleton _ _).symm
  · exact new.perm (mapped _).symm

/-- What `ip_defrag` returns is put together from packets of the same datagram. -/
theorem ipDefrag_spec (packet : Packet) (faults : Faults) :
    ∃ next datagram, ipDefrag config table packet faults = some (next, datagram) ∧
      TableSound config (received ++ [packet]) next ∧
      ∀ made, datagram = some made →
        ∃ qp, Rebuilt (ofKey packet.key (received ++ [packet])) qp made := by
  unfold ipDefrag
  have evicted : TableSound config received
      (if config.sysctlIpfragHighThresh < table.ipFragMem then ipEvictor config table
        else table) := by
    split
    · exact evict_sound _ _ _ sound
    · exact sound
  simp only
  split
  · exact ⟨_, _, rfl, evicted.more [packet], fun _ wrong => (by cases wrong)⟩
  · rename_i current qp here
    obtain ⟨current_sound, found, same_key⟩ := ipFind_spec evicted here
    have queue_sound := current_sound.sound qp found
    rw [same_key] at queue_sound
    have taken := ipFragQueue_taken queue_sound current.ipFragMem packet faults
    generalize ipFragQueue qp current.ipFragMem packet faults = outcome at taken ⊢
    split
    · rename_i ready
      obtain ⟨head, rest, result, _, done, spec⟩ := ipFragReasm_spec taken.sound.ofKey_snoc ready
        outcome.fragMem packet.dev faults.reasm
      rw [done]
      refine ⟨_, _, rfl, ?_, fun made built => ⟨outcome.qp, spec.rebuilt made built⟩⟩
      refine (current_sound.more [packet]).destroy found ?_ ?_
      · exact spec.key.trans taken.key
      · rw [spec.fragMem, taken.fragMem]
    · exact ⟨_, _, rfl, current_sound.put found same_key taken, fun _ wrong => (by cases wrong)⟩

theorem ipExpire_sound (key : Key) : TableSound config received (ipExpire config table key) := by
  unfold ipExpire
  split
  · rename_i qp here
    exact sound.destroy (mem_of_find?_eq_some here) rfl rfl
  · exact sound

theorem Event.step_sound (event : Event) : ∃ next, event.step config table = some next ∧
    TableSound config (received ++ event.packets) next := by
  cases event with
  | ipDefrag packet faults =>
    obtain ⟨next, _, done, kept, _⟩ := ipDefrag_spec sound packet faults
    exact ⟨next, by rw [Event.step, done]; rfl, kept⟩
  | ipExpire key =>
    refine ⟨_, rfl, ?_⟩
    rw [Event.packets, append_nil]
    exact ipExpire_sound sound key

theorem run_sound (events : List Event) :
    ∃ final, Runs.run (Event.step config) table events = some final ∧
      TableSound config (received ++ events.flatMap Event.packets) final := by
  induction events generalizing received table with
  | nil => exact ⟨table, rfl, sound.more []⟩
  | cons event events ih =>
    obtain ⟨next, done, kept⟩ := event.step_sound sound
    rw [Runs.run_cons, done, flatMap_cons, ← append_assoc]
    exact ih kept

end

/-- The oldest queues go first, until the memory is down to the threshold. -/
theorem evict_below {config : Config} (low : Int) (lru : List Ipq) (ipFragMem : Int)
    (memory : ipFragMem = total (Ipq.footprint config) lru) :
    let left := evict config (ipFragMem - low) lru ipFragMem
    left.lru <:+ lru ∧ left.ipFragMem ≤ max low 0 := by
  induction lru generalizing ipFragMem with
  | nil => exact ⟨suffix_rfl, memory ▸ Int.le_max_right low 0⟩
  | cons qp rest ih =>
    rw [Spans.total_cons] at memory
    have next := ih (ipFragMem - qp.footprint config) (by omega)
    rw [show ipFragMem - qp.footprint config - low = ipFragMem - low - qp.footprint config by omega]
      at next
    rw [evict]
    split
    · exact ⟨next.1.trans (suffix_cons _ _), next.2⟩
    · exact ⟨suffix_rfl, by simp only; omega⟩

section

variable (config : Config) (events : List Event)

/-- Whatever arrives and whenever timers fire, the fragment layer runs without a
fault, keeps every queue sound and counts its memory exactly. -/
theorem defrag_run_sound : ∃ table, Runs.run (Event.step config) ⟨[], 0⟩ events = some table ∧
    TableSound config (events.flatMap Event.packets) table :=
  run_sound (TableSound.empty config) events

/-- After any run, a datagram that is handed up consists of bytes received for it. -/
theorem defrag_run_rebuilds (packet : Packet) (faults : Faults) :
    ∃ table next datagram, Runs.run (Event.step config) ⟨[], 0⟩ events = some table ∧
      ipDefrag config table packet faults = some (next, datagram) ∧ ∀ made, datagram = some made →
        ∃ qp, Rebuilt (ofKey packet.key (events.flatMap Event.packets ++ [packet])) qp made := by
  obtain ⟨table, ran, sound⟩ := run_sound (TableSound.empty config) events
  obtain ⟨next, datagram, done, _, rebuilt⟩ := ipDefrag_spec sound packet faults
  exact ⟨table, next, datagram, ran, done, rebuilt⟩

/-- After any run, the evictor takes the oldest queues and meets the low threshold. -/
theorem evictor_run_below : ∃ table, Runs.run (Event.step config) ⟨[], 0⟩ events = some table ∧
    (ipEvictor config table).lru <:+ table.lru ∧
    (ipEvictor config table).ipFragMem ≤ max config.sysctlIpfragLowThresh 0 := by
  obtain ⟨table, ran, sound⟩ := run_sound (TableSound.empty config) events
  exact ⟨table, ran, evict_below _ _ _ sound.memory⟩

end

end MagxKernel.IpFragment
