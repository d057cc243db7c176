import MagxKernel.Idr.Map

namespace MagxKernel.Idr

open RadixSlots Runs Function Option

variable {α : Type}

/-- A change of the entries on one way through the layers is an update of the map. -/
theorem entriesOf_update {level id : Nat} {before after : Ptr α} {value : Option (Ptr α)}
    (changed : ∀ other, entry other level after =
      if Same 5 (level + 1) other id then value else entry other level before) :
    entriesOf (level + 1) after =
      update (entriesOf (level + 1) before) (id % span (level + 1)) value := by
  funext other
  unfold entriesOf
  by_cases wide : other < span (level + 1)
  · have same : Same 5 (level + 1) other id ↔ other = id % span (level + 1) := by
      change other % span (level + 1) = id % span (level + 1) ↔ _
      rw [Nat.mod_eq_of_lt wide]
    simp [wide, changed, same, update_apply]
  · have different : other ≠ id % span (level + 1) := by
      rintro rfl
      exact wide (Nat.mod_lt _ (span_pos _))
    rw [if_neg wide, update_of_ne different, if_neg wide]

section Turn

variable {state : State α} {ptr : Ptr α} {id : Nat}

theorem StateOk.layers_pos {p : Layer (Ptr α)} (ok : StateOk state) (top : state.top = .layer p) :
    0 < state.layers := by
  apply Nat.pos_of_ne_zero
  intro none
  rw [ok.null_iff.mpr none] at top
  cases top

/-- One way from `build_up` to the result of `sub_alloc`. -/
inductive Turn (ptr : Ptr α) (id : Nat) (state : State α) : Prop
  | noMemory (next : State α)
      (ran : ∀ turns, getNewAboveInt ptr (turns + 1) id state = some (.noMemory, next))
      (ok : StateOk next) (same : entries next = entries state)
  | tooHigh (beyond : span 6 ≤ id) (ran : ∀ turns, getNewAboveInt ptr (turns + 1) id state = none)
  | done (new : Nat) (next : State α)
      (ran : ∀ turns, getNewAboveInt ptr (turns + 1) id state = some (.done new, next))
      (ok : StateOk next) (above : id ≤ new) (free : entries state new = none)
      (updated : entries next = update (entries state) new (some ptr))
  | again (next : State α)
      (ran : ∀ turns, getNewAboveInt ptr (turns + 1) id state =
        getNewAboveInt ptr turns (span next.layers) next)
      (ok : StateOk next) (same : entries next = entries state) (inside : id < span next.layers)
      (taken : ∀ other, id ≤ other → other < span next.layers → entries state other ≠ none)

/-- What `idr_get_new_above_int` does with the result of `sub_alloc`. -/
def conclude (ptr : Ptr α) (turns layers : Nat) (cache : List (Layer (Ptr α)))
    (outcome : Outcome α) :
    Option (Verdict × State α) :=
  match outcome.verdict with
  | .exhausted id => getNewAboveInt ptr turns id ⟨outcome.top, layers, outcome.pool, cache⟩
  | verdict => some (verdict, ⟨outcome.top, layers, outcome.pool, cache⟩)

section

variable (carry : ∀ k, 1 ≤ k → NoCarry (fun other => entries state other ≠ none) id k)

include carry

/-- The searches of `sub_alloc` in a tree with room for the id. -/
theorem Grown.turn {layers layers' : Nat} {p p' : Layer (Ptr α)} {pool : Pool α} (user : IsUser ptr)
    (grown : Grown id layers p layers' p') (some_layers : 1 ≤ layers) (low : layers' ≤ 6)
    (ok : PoolOk pool) (cache : ∀ p ∈ state.cache, Empty p)
    (here : entriesOf layers (.layer p) = entries state)
    (ran : ∀ turns, getNewAboveInt ptr (turns + 1) id state =
      (subAlloc ptr id p' layers' pool).bind (conclude ptr turns layers' state.cache)) :
    Turn ptr id state := by
  obtain ⟨level, rfl⟩ : ∃ level, layers' = level + 1 := ⟨layers' - 1, by have := grown.more; omega⟩
  have room : id < span (level + 1) := grown.room low
  have small : id < span 6 := by
    apply Nat.lt_of_lt_of_le room
    exact Nat.pow_le_pow_right (by decide) (by omega)
  have map : entriesOf (level + 1) (.layer p') = entries state := grown.same.trans here
  have read : ∀ {other}, other < span (level + 1) →
      entries state other = entry other level (.layer p') := by
    intro other less
    rw [← map]
    exact if_pos less
  have carry' : ∀ k, 1 ≤ k → k ≤ level →
      NoCarry (fun other => entry other level (.layer p') ≠ none) id k := by
    intro k positive le top taken other block
    have held := carry k positive top (by
      intro another above same
      rw [read (lt_of_block same (by omega) room)]
      exact taken another above same) other block
    change entries state other ≠ none at held
    rwa [read (lt_of_block block (by omega) room)] at held
  have search := subAllocLoop_follow user id level (3 * maxLevel) p' [] pool grown.valid ok carry'
    (by omega) small (by change 3 * level + 1 ≤ 21; omega)
  have called : subAlloc ptr id p' (level + 1) pool =
      subAllocLoop ptr (3 * maxLevel) id level p' [] pool := by
    unfold subAlloc
    rw [if_neg (by change ¬7 ≤ level + 1; omega)]
    rfl
  have notNull : ∀ q : Layer (Ptr α), (Ptr.layer q = .null ↔ level + 1 = 0) := by
    intro q
    simp
  rcases search with ⟨outcome, found, settled⟩ | ⟨exhausted, left, _, found⟩
  · cases settled with
    | @done new q pool' planted above block ok' =>
      have less : new < span (level + 1) := lt_of_block block (Nat.le_refl _) room
      refine .done new ⟨.layer q, level + 1, pool', state.cache⟩ ?_
        ⟨low, planted.valid, notNull q, ok', cache⟩ above ?_ ?_
      · intro turns
        rw [ran, called, found]
        rfl
      · rw [read less]
        exact planted.free
      · have updated := entriesOf_update planted.entries
        rwa [map, Nat.mod_eq_of_lt less] at updated
    | @noMemory q pool' kept ok' =>
      refine .noMemory ⟨.layer q, level + 1, pool', state.cache⟩ ?_
        ⟨low, kept.valid, notNull q, ok', cache⟩ ?_
      · intro turns
        rw [ran, called, found]
        rfl
      · funext other
        rw [← map]
        change (if other < span (level + 1) then entry other level (.layer q) else none) =
          if other < span (level + 1) then entry other level (.layer p') else none
        rw [kept.entries]
  · have behind : (id / span (level + 1) + 1) * span (level + 1) = span (level + 1) := by
      rw [Nat.div_eq_of_lt room, Nat.zero_add, Nat.one_mul]
    refine .again ⟨.layer p', level + 1, pool, state.cache⟩ ?_
      ⟨low, grown.valid, notNull p', ok, cache⟩ map room ?_
    · intro turns
      rw [ran, called, found, behind]
      rfl
    · intro other above less
      rw [read less]
      apply exhausted other above
      rw [Nat.div_eq_of_lt room, Nat.div_eq_of_lt less]

theorem turn_of_ok (user : IsUser ptr) (ok : StateOk state) : Turn ptr id state := by
  -- from a top layer, present or new
  have build : ∀ (layers above : Nat) (p : Layer (Ptr α)) (pool : Pool α), 1 ≤ layers → layers ≤ 6 →
      currentTop state = some (some (layers, above, p, pool)) →
      Valid (layers - 1) (.layer p) → PoolOk pool → Stack above p →
      entriesOf layers (.layer p) = entries state → Turn ptr id state := by
    intro layers above p pool some_layers few current valid okPool stack here
    obtain ⟨okPool', grown⟩ := growLoop_grown id (maxLevel - layers) layers above p pool some_layers
      (by change layers + (7 - layers) = 7; omega) valid okPool stack
    cases result : growLoop id (maxLevel - layers) layers above p pool with
    | mk verdict pool' =>
      rw [result] at okPool' grown
      cases verdict with
      | none =>
        refine .noMemory { state with pool := pool' } ?_ { ok with pool := okPool' } rfl
        intro turns
        rw [getNewAboveInt, current, bind_some]
        simp only [result]
      | some top =>
        obtain ⟨p', layers'⟩ := top
        have built := grown p' layers' rfl
        have ran : ∀ turns, getNewAboveInt ptr (turns + 1) id state =
            (subAlloc ptr id p' layers' pool').bind (conclude ptr turns layers' state.cache) := by
          intro turns
          rw [getNewAboveInt, current, bind_some]
          dsimp only
          rewrite [result]
          rfl
        by_cases low : layers' ≤ 6
        · exact built.turn carry user some_layers low okPool' ok.cache here ran
        · refine .tooHigh ?_ ?_
          · by_contra small
            exact low (built.fits few (by omega))
          · intro turns
            rw [ran]
            unfold subAlloc
            rw [if_pos (by change 7 ≤ layers'; omega)]
            rfl
  cases top : state.top with
  | user value =>
    have valid := ok.valid
    rw [top] at valid
    exact absurd valid (by simp [Valid])
  | layer p =>
    have some_layers := ok.layers_pos top
    have valid := ok.valid
    rw [top] at valid
    refine build state.layers 0 p state.pool some_layers ok.layers_le ?_ valid ok.pool trivial ?_
    · unfold currentTop
      rw [top]
    · unfold entries
      rw [top]
  | null =>
    have none : entries state = fun _ => none := by
      funext other
      unfold entries entriesOf
      rw [top, entry_null, ite_self]
    cases allocated : allocLayer state.pool with
    | none =>
      refine .noMemory state ?_ ok rfl
      intro turns
      rw [getNewAboveInt]
      unfold currentTop
      rw [top]
      simp only [allocated]
      rfl
    | some result =>
      obtain ⟨p, pool⟩ := result
      obtain ⟨empty, okPool⟩ := allocLayer_ok ok.pool allocated
      refine build 1 1 p pool (by omega) (by omega) ?_ (empty.valid 0) okPool ?_ ?_
      · unfold currentTop
        rw [top]
        simp only [allocated]
        rfl
      · refine ⟨fun slot _ => empty.slots slot, ?_⟩
        intro below first
        rw [empty.slots] at first
        cases first
      · rw [none, entriesOf_empty empty]

end

end Turn

section GetNew

variable {state : State α} {ptr : Ptr α} {start : Nat}

/-- The first id of a block has no digit 31 above the lowest. -/
theorem noCarry_span (taken : Nat → Prop) (layers k : Nat) : NoCarry taken (span layers) k := by
  intro top
  by_cases le : k ≤ layers
  · have power : span layers = span (layers - k) * span k := by
      unfold span
      rw [← Nat.pow_add]
      congr 1
      omega
    rw [power, Nat.mul_div_cancel _ (span_pos k)] at top
    cases distance : layers - k with
    | zero =>
      rw [distance] at top
      cases top
    | succ more =>
      rw [distance, span_succ, Nat.mul_mod_left] at top
      cases top
  · have less : span layers < span k := Nat.pow_lt_pow_right (by decide) (by omega)
    rw [Nat.div_eq_of_lt less] at top
    cases top

/-- What a search from `start` on may end with. -/
inductive Granted (ptr : Ptr α) (state : State α) (start : Nat) : Option (Verdict × State α) → Prop
  | noMemory (next : State α) (ok : StateOk next) (same : entries next = entries state) :
      Granted ptr state start (some (.noMemory, next))
  | full (taken : ∀ id, start ≤ id → id < span 6 → entries state id ≠ none) :
      Granted ptr state start none
  | done (new : Nat) (next : State α) (ok : StateOk next) (above : start ≤ new)
      (free : entries state new = none)
      (updated : entries next = update (entries state) new (some ptr)) :
      Granted ptr state start (some (.done new, next))

theorem getNewAboveInt_granted (user : IsUser ptr) (ok : StateOk state) (turns : Nat)
    (carry : ∀ k, 1 ≤ k → NoCarry (fun other => entries state other ≠ none) start k) :
    Granted ptr state start (getNewAboveInt ptr (turns + 2) start state) := by
  cases turn_of_ok carry user ok with
  | noMemory next ran ok' same =>
    rw [ran]
    exact .noMemory next ok' same
  | tooHigh beyond ran =>
    rw [ran]
    exact .full fun id above less => by omega
  | done new next ran ok' above free updated =>
    rw [ran]
    exact .done new next ok' above free updated
  | again next ran ok' same inside taken =>
    rw [ran]
    -- the second way round finds the first id behind the old range free
    cases turn_of_ok (fun k _ => noCarry_span _ next.layers k) user ok' with
    | noMemory last ran' ok'' same' =>
      rw [ran']
      exact .noMemory last ok'' (same'.trans same)
    | tooHigh beyond ran' =>
      rw [ran']
      exact .full fun id above less => taken id above (by omega)
    | done new last ran' ok'' above free updated =>
      rw [same] at free updated
      rw [ran']
      exact .done new last ok'' (by omega) free updated
    | again last ran' ok'' same' inside' taken' =>
      exact absurd (if_neg (Nat.lt_irrefl _)) (taken' _ (Nat.le_refl _) inside')

end GetNew

section Remove

variable {state : State α}

theorem foldl_freeLayer_ok {freed : List (Layer (Ptr α))} {pool : Pool α} (ok : PoolOk pool)
    (blank : ∀ p ∈ freed, Blank p) : PoolOk (freed.foldl freeLayer pool) :=
  List.foldlRecOn freed freeLayer ok fun _ ok p member => freeLayer_ok ok (blank p member)

/-- The low digits of an id beyond the layers name another one. -/
theorem StateOk.entry_low (ok : StateOk state) (id : Nat) :
    entry id (state.layers - 1) state.top = entries state (id % span state.layers) := by
  unfold entries entriesOf
  rw [if_pos (Nat.mod_lt _ (span_pos _))]
  cases count : state.layers with
  | zero => rw [ok.null_iff.mpr count, entry_null, entry_null]
  | succ level => exact entry_same (Nat.mod_mod _ _).symm

/-- `sub_remove` removes what the low digits of the id name. -/
theorem subRemove_ok (ok : StateOk state) (id : Nat) :
    ∃ next, subRemove state id = some next ∧ StateOk next ∧
      entries next = update (entries state) (id % span state.layers) none := by
  have valid := ok.valid
  by_cases free : entry id (state.layers - 1) state.top = none
  · obtain ⟨found, frames, walk, plugged, missing⟩ := removeWalk_absent id _ _ [] valid free
    have unchanged : entries state = update (entries state) (id % span state.layers) none := by
      rw [← free, ok.entry_low, update_eq_self]
    refine ⟨state, ?_, ok, unchanged⟩
    rw [subRemove, walk, bind_some]
    rcases missing with rfl | ⟨leaf, rfl, clear⟩
    · simp only [plugged, plug]
    · simp [clear, plugged, plug]
  cases top : state.top with
  | null =>
    rw [top, entry_null] at free
    exact absurd rfl free
  | user value =>
    rw [top] at valid
    exact absurd valid (by simp [Valid])
  | layer p =>
    rw [top] at free valid
    have level := ok.layers_pos top
    obtain ⟨leaf, frames, after, freed, walk, set, removed, blank, drops⟩ :=
      subRemove_removed id (state.layers - 1) p valid free
    have dropped : dropUp (frames ++ []) ((leaf.setBit (slotOf id 0) false).setSlot (slotOf id 0)
        .null) = (after, freed) := by
      refine (drops []).trans ?_
      cases after with
      | null => exact congrArg (Prod.mk _) (List.append_nil freed)
      | user value | layer q => rfl
    refine ⟨⟨after, if after.isNull then 0 else state.layers, freed.foldl freeLayer state.pool,
      state.cache⟩, ?_, ?_⟩
    · unfold subRemove
      rw [top, walk, bind_some]
      simp only [set, if_true, dropped]
    · have span_eq : state.layers - 1 + 1 = state.layers := by omega
      have map := entriesOf_update removed.entries
      rw [span_eq, ← top] at map
      cases after with
      | null =>
        refine ⟨⟨Nat.zero_le 6, valid_null _, Iff.intro (fun _ => rfl) (fun _ => rfl),
          foldl_freeLayer_ok ok.pool blank, ok.cache⟩, ?_⟩
        refine Eq.trans ?_ map
        funext other
        unfold entries entriesOf
        rw [entry_null, entry_null, ite_self, ite_self]
      | user value => exact absurd removed.valid (by simp [Valid])
      | layer q =>
        refine ⟨⟨ok.layers_le, removed.valid, ?_, foldl_freeLayer_ok ok.pool blank, ok.cache⟩, map⟩
        exact Iff.intro (fun null => by cases null) (fun none => absurd none (Nat.ne_of_gt level))

/-- With a count of one, entry 0 is the only one. -/
theorem only_entry {p : Layer (Ptr α)} (ok : InnerOk p) (single : p.count = 1)
    (first : (p.ary 0).isNull = false) {slot : Slot} (other : slot ≠ 0) : p.ary slot = .null := by
  have total := occupied_update (fun child : Ptr α => !child.isNull) p.ary 0 .null
  have count := ok.count_eq
  rw [first] at total
  have vacant : occupied (fun child : Ptr α => !child.isNull) (update p.ary 0 .null) = 0 := by
    have none : (!(Ptr.null : Ptr α).isNull).toNat = 0 := rfl
    have one : (!false).toNat = 1 := rfl
    omega
  have bit := (occupied_eq_zero _).mp vacant slot
  rw [update_of_ne other] at bit
  exact (isNull_iff _).mp (by simpa using bit)

theorem dropLayer_ok (ok : StateOk state) :
    StateOk (dropLayer state) ∧ entries (dropLayer state) = entries state := by
  unfold dropLayer
  cases top : state.top with
  | null | user value => exact ⟨ok, rfl⟩
  | layer p =>
    change StateOk (if _ then _ else _) ∧ entries (if _ then _ else _) = _
    split
    · rename_i single
      obtain ⟨one, many, first⟩ := single
      obtain ⟨level, count⟩ : ∃ level, state.layers = level + 2 := ⟨state.layers - 2, by omega⟩
      have valid := ok.valid
      rw [top, count] at valid
      have inner : InnerOk p := valid.1
      have few := ok.layers_le
      have size : state.layers - 1 = level + 1 := by omega
      refine ⟨⟨by change state.layers - 1 ≤ 6; omega, ?_, ?_, ?_, ok.cache⟩, ?_⟩
      · rw [size]
        exact valid.2 0
      · constructor
        · intro null
          change p.ary 0 = .null at null
          rw [null] at first
          cases first
        · intro none
          change state.layers - 1 = 0 at none
          omega
      · exact freeLayer_ok ok.pool ⟨fun _ => rfl, fun _ => only_entry inner one first, rfl⟩
      · unfold entries
        rw [size, top, count]
        exact (entriesOf_single fun slot => only_entry inner one first).symm
    · exact ⟨ok, rfl⟩

theorem trimPool_ok (ok : StateOk state) :
    ∃ next, trimPool state = some next ∧ StateOk next ∧ entries next = entries state := by
  unfold trimPool
  split
  · rename_i enough
    cases free : state.pool.idFree with
    | nil =>
      have counted := ok.pool.counted
      rw [free] at counted
      rw [counted] at enough
      change 14 ≤ 0 at enough
      omega
    | cons p rest =>
      have allocated : allocLayer state.pool =
          some (p.setSlot 0 .null, ⟨rest, state.pool.idFreeCnt - 1⟩) := by
        unfold allocLayer
        rw [free]
      obtain ⟨empty, pool⟩ := allocLayer_ok ok.pool allocated
      rw [allocated]
      refine ⟨_, rfl, { ok with pool := pool, cache := ?_ }, rfl⟩
      exact List.forall_mem_cons.mpr ⟨empty, ok.cache⟩
  · exact ⟨state, rfl, ok, rfl⟩

theorem idrRemove_ok (ok : StateOk state) (id : UInt32) :
    ∃ next, idrRemove state id = some next ∧ StateOk next ∧
      entries next = update (entries state)
        ((id.toNat &&& maxIdMask) % span state.layers) none := by
  obtain ⟨removed, ran, okRemoved, updated⟩ := subRemove_ok ok (id.toNat &&& maxIdMask)
  obtain ⟨okDropped, same⟩ := dropLayer_ok okRemoved
  obtain ⟨next, trimmed, okNext, same'⟩ := trimPool_ok okDropped
  refine ⟨next, ?_, okNext, ?_⟩
  · unfold idrRemove
    rw [ran, bind_some, trimmed]
  · rw [same', same, updated]

end Remove

theorem preGetLoop_ok (budget : Nat) (pool : Pool α) (cache : List (Layer (Ptr α)))
    (ok : PoolOk pool)
    (clean : ∀ p ∈ cache, Empty p) :
    PoolOk (preGetLoop budget pool cache).2.1 ∧
      ∀ p ∈ (preGetLoop budget pool cache).2.2, Empty p := by
  induction budget generalizing pool cache with
  | zero =>
    rw [preGetLoop]
    split <;> exact ⟨ok, clean⟩
  | succ budget ih =>
    cases cache with
    | nil =>
      rw [preGetLoop]
      split
      · exact ih _ _ (freeLayer_ok ok empty_zero.blank) clean
      · exact ⟨ok, clean⟩
    | cons new cache =>
      rw [preGetLoop]
      split
      · obtain ⟨first, others⟩ := List.forall_mem_cons.mp clean
        exact ih _ _ (freeLayer_ok ok first.blank) others
      · exact ⟨ok, clean⟩

/-- Calls on one idr; a user's pointer may be NULL. -/
inductive Op (α : Type) where
  | preGet (budget : Nat)
  | getNew (ptr : Option α)
  | getNewAbove (ptr : Option α) (start : UInt32)
  | remove (id : UInt32)

inductive Reply where
  | preGet (code : Int)
  | got (error : Int) (id : Option Nat)
  | removed

def userPtr : Option α → Ptr α
  | none => .null
  | some value => .user value

def call (state : State α) : Op α → Option (Reply × State α)
  | .preGet budget => some (.preGet (idrPreGet state budget).1, (idrPreGet state budget).2)
  | .getNew ptr => (idrGetNew state (userPtr ptr)).map fun (error, id, next) =>
    (.got error id, next)
  | .getNewAbove ptr start =>
      (idrGetNewAbove state (userPtr ptr) start.toNat).map fun (error, id, next) =>
        (.got error id, next)
  | .remove id => (idrRemove state id).map fun next => (.removed, next)

def step (state : State α) (op : Op α) : Option (State α) := (call state op).map Prod.snd

/-- The starting id is a non-negative `int`, and only allocated ids are removed. -/
def Allowed (state : State α) : Op α → Prop
  | .getNewAbove _ start => start.toNat < maxIdBit
  | .remove id => entries state (id.toNat &&& maxIdMask) ≠ none
  | _ => True

instance (state : State α) : (op : Op α) → Decidable (Allowed state op)
  | .getNewAbove _ start => inferInstanceAs (Decidable (start.toNat < maxIdBit))
  | .remove id => inferInstanceAs (Decidable (entries state (id.toNat &&& maxIdMask) ≠ none))
  | .preGet _ | .getNew _ => inferInstanceAs (Decidable True)

/-- The search from the starting id never comes back to a digit 31. -/
def NoCarries (state : State α) : Op α → Prop
  | .getNewAbove _ start =>
      ∀ k, 1 ≤ k → NoCarry (fun id => entries state id ≠ none) start.toNat k
  | _ => True

/-- There is a free id that six layers can hold. -/
def Room (state : State α) : Op α → Prop
  | .getNew _ => ∃ id, id < span 6 ∧ entries state id = none
  | .getNewAbove _ start => ∃ id, start.toNat ≤ id ∧ id < span 6 ∧ entries state id = none
  | _ => True

/-- The calls on a finite map from ids to pointers. -/
inductive MapStep : Op α → (Nat → Option (Ptr α)) → Reply → (Nat → Option (Ptr α)) → Prop
  | preGet {budget : Nat} {code : Int} {map : Nat → Option (Ptr α)} :
      MapStep (.preGet budget) map (.preGet code) map
  | got {ptr : Option α} {id : Nat} {map : Nat → Option (Ptr α)} (free : map id = none) :
      MapStep (.getNew ptr) map (.got 0 (some id)) (update map id (some (userPtr ptr)))
  | getFailed {ptr : Option α} {map : Nat → Option (Ptr α)} :
      MapStep (.getNew ptr) map (.got (-eagain) none) map
  | gotAbove {ptr : Option α} {start : UInt32} {id : Nat} {map : Nat → Option (Ptr α)}
      (above : start.toNat ≤ id) (free : map id = none) :
      MapStep (.getNewAbove ptr start) map (.got 0 (some id))
        (update map id (some (userPtr ptr)))
  | getAboveFailed {ptr : Option α} {start : UInt32} {map : Nat → Option (Ptr α)} :
      MapStep (.getNewAbove ptr start) map (.got (-eagain) none) map
  | removed {id : UInt32} {map : Nat → Option (Ptr α)} :
      MapStep (.remove id) map .removed (update map (id.toNat &&& maxIdMask) none)

section Calls

variable {state : State α}

theorem isUser_userPtr (ptr : Option α) : IsUser (userPtr ptr) := by
  intro below
  cases ptr with
  | none | some value => simp [userPtr]

theorem inside_of_taken {id : Nat} (taken : entries state id ≠ none) : id < span state.layers := by
  by_contra beyond
  exact taken (if_neg beyond)

theorem noCarry_zero (taken : Nat → Prop) (k : Nat) : NoCarry taken 0 k := by
  intro top
  rw [Nat.zero_div] at top
  cases top

/-- A call that asks for a new id answers as the search for it ends. -/
theorem getNew_refines {op : Op α} {ptr : Option α} {start : Nat} (ok : StateOk state)
    (carry : ∀ k, 1 ≤ k → NoCarry (fun id => entries state id ≠ none) start k)
    (called : call state op = (idrGetNewAbove state (userPtr ptr) start).map
      fun (error, id, next) => (.got error id, next))
    (failed : MapStep op (entries state) (.got (-eagain) none) (entries state))
    (got : ∀ id, start ≤ id → entries state id = none → MapStep op (entries state)
      (.got 0 (some id)) (update (entries state) id (some (userPtr ptr))))
    (room : Room state op → ∃ id, start ≤ id ∧ id < span 6 ∧ entries state id = none) :
    (∀ reply next, call state op = some (reply, next) →
      StateOk next ∧ MapStep op (entries state) reply (entries next)) ∧
    (Room state op → ∃ result, call state op = some result) := by
  have granted := getNewAboveInt_granted (isUser_userPtr ptr) ok 6 carry
  have turns : 6 + 2 = maxLevel + 1 := rfl
  rw [called, idrGetNewAbove, ← turns]
  generalize getNewAboveInt (userPtr ptr) (6 + 2) start state = result at granted
  cases granted with
  | noMemory next ok' same =>
    refine ⟨?_, fun _ => ⟨_, rfl⟩⟩
    rintro _ _ ⟨⟩
    rw [same]
    exact ⟨ok', failed⟩
  | full taken =>
    refine ⟨fun _ _ impossible => (by cases impossible), fun some_ => ?_⟩
    obtain ⟨id, above, low, free⟩ := room some_
    exact absurd free (taken id above low)
  | done new next ok' above free updated =>
    refine ⟨?_, fun _ => ⟨_, rfl⟩⟩
    rintro _ _ ⟨⟩
    rw [updated]
    exact ⟨ok', got new above free⟩

/-- A call keeps the tree well formed and acts as on the map, and it returns when
there is room. -/
theorem call_refines {op : Op α} (ok : StateOk state) (allowed : Allowed state op)
    (carries : NoCarries state op) :
    (∀ reply next, call state op = some (reply, next) →
      StateOk next ∧ MapStep op (entries state) reply (entries next)) ∧
    (Room state op → ∃ result, call state op = some result) := by
  cases op with
  | preGet budget =>
    refine ⟨?_, fun _ => ⟨_, rfl⟩⟩
    rintro _ _ ⟨⟩
    obtain ⟨pool, clean⟩ := preGetLoop_ok budget state.pool state.cache ok.pool ok.cache
    exact ⟨{ ok with pool := pool, cache := clean }, .preGet⟩
  | getNew ptr =>
    refine getNew_refines ok (fun k _ => noCarry_zero _ k) rfl .getFailed (fun _ _ => .got) ?_
    rintro ⟨id, low, free⟩
    exact ⟨id, Nat.zero_le _, low, free⟩
  | getNewAbove ptr start =>
    exact getNew_refines ok carries rfl .getAboveFailed (fun _ => .gotAbove) id
  | remove id =>
    obtain ⟨next, ran, ok', updated⟩ := idrRemove_ok ok id
    rw [Nat.mod_eq_of_lt (inside_of_taken allowed)] at updated
    simp only [call, ran, map_some]
    refine ⟨?_, fun _ => ⟨_, rfl⟩⟩
    rintro _ _ ⟨⟩
    rw [updated]
    exact ⟨ok', .removed⟩

theorem step_ok {next : State α} {op : Op α} (ok : StateOk state)
    (permitted : Allowed state op ∧ NoCarries state op) (stepped : step state op = some next) :
    StateOk next := by
  obtain ⟨⟨reply, next'⟩, called, rfl⟩ := map_eq_some_iff.mp stepped
  exact ((call_refines ok permitted.1 permitted.2).1 reply next' called).1

theorem idrInit_ok : StateOk (idrInit : State α) := by
  exact ⟨Nat.zero_le 6, trivial, Iff.intro (fun _ => rfl) (fun _ => rfl), ⟨rfl, nofun⟩, nofun⟩

theorem StateOk.span_le (ok : StateOk state) : span state.layers ≤ span 6 :=
  Nat.pow_le_pow_right (by decide) (Nat.mul_le_mul_left 5 ok.layers_le)

theorem masked_ofNat {id : Nat} (small : id < span 6) :
    (UInt32.ofNat id).toNat &&& maxIdMask = id := by
  rw [span_six] at small
  have word : (UInt32.ofNat id).toNat = id :=
    UInt32.toNat_ofNat_of_lt' (by change id < 2 ^ 32; omega)
  rw [word]
  have mask := Nat.and_two_pow_sub_one_eq_mod id 31
  rw [Nat.mod_eq_of_lt (by omega)] at mask
  exact mask

end Calls

theorem run_ok {ops : List (Op α)} {final : State α}
    (executed : run step idrInit ops = some final)
    (permitted : Along step (fun state op => Allowed state op ∧ NoCarries state op) idrInit ops) :
    StateOk final :=
  run_invariant (fun _ _ _ => step_ok) ops idrInit final idrInit_ok permitted executed

/-- In every run whose searches have no carry, an idr is a finite map: `idr_find`
reads it, every call acts as on it, a new id is at least the starting id and was
free, only that id changes, and a call with room for its id returns. -/
theorem idr_behaves_as_map (ops : List (Op α)) (final : State α)
    (permitted : Along step (fun state op => Allowed state op ∧ NoCarries state op) idrInit ops)
    (executed : run step idrInit ops = some final) :
    (∀ id, idrFind final id = some ((entries final (id.toNat &&& maxIdMask)).getD .null)) ∧
    (∀ op reply next, Allowed final op → NoCarries final op → call final op = some (reply, next) →
      MapStep op (entries final) reply (entries next)) ∧
    (∀ ptr (start : UInt32) id next, Allowed final (.getNewAbove ptr start) →
      NoCarries final (.getNewAbove ptr start) →
      idrGetNewAbove final (userPtr ptr) start.toNat = some (0, some id, next) →
      start.toNat ≤ id ∧ entries final id = none ∧
      idrFind next (UInt32.ofNat id) = some (userPtr ptr) ∧
      ∀ other : UInt32, other.toNat &&& maxIdMask ≠ id → idrFind next other = idrFind final other) ∧
    ∀ op, Allowed final op → NoCarries final op → Room final op →
      ∃ result, call final op = some result := by
  have ok := run_ok executed permitted
  refine ⟨ok.find_eq, ?_, ?_, ?_⟩
  · intro op reply next allowed carries called
    exact ((call_refines ok allowed carries).1 reply next called).2
  · intro ptr start id next allowed carries granted
    have called : call final (.getNewAbove ptr start) = some (.got 0 (some id), next) := by
      rw [call, granted]
      rfl
    obtain ⟨ok', mapped⟩ := (call_refines ok allowed carries).1 _ next called
    generalize fresh : entries next = after at mapped
    cases mapped with
    | gotAbove above free =>
      have taken : entries next id ≠ none := by
        rw [fresh, update_self]
        simp
      refine ⟨above, free, ?_, ?_⟩
      · rw [ok'.find_eq, masked_ofNat (Nat.lt_of_lt_of_le (inside_of_taken taken) ok'.span_le),
          fresh, update_self]
        rfl
      · intro other different
        rw [ok'.find_eq, ok.find_eq, fresh, update_of_ne different]
  · intro op allowed carries room
    exact (call_refines ok allowed carries).2 room

/-- Ids on both sides of a layer boundary. -/
theorem idr_behaves_as_map_threeIds :
    ∃ final : State Nat,
      run step idrInit [.preGet 14, .getNewAbove (some 5) 31, .getNewAbove (some 6) 31,
        .getNew none, .remove 31] = some final ∧
      (∀ id, idrFind final id = some ((entries final (id.toNat &&& maxIdMask)).getD .null)) := by
  have small : ∀ (taken : Nat → Prop) k, 1 ≤ k → NoCarry taken (31 : UInt32).toNat k := by
    intro taken k positive top
    have less : 31 < span k := by
      have first : span 1 ≤ span k := Nat.pow_le_pow_right (by decide) (by omega)
      have size : span 1 = 32 := by decide
      omega
    have zero : (31 : UInt32).toNat / span k = 0 := Nat.div_eq_of_lt less
    rw [zero] at top
    cases top
  refine (isSome_iff_exists.mp ?_).imp fun final executed =>
    ⟨executed, (idr_behaves_as_map _ final ?_ executed).1⟩
  · decide +kernel
  · refine ⟨⟨trivial, trivial⟩, ?_⟩
    rintro _ ⟨⟩
    refine ⟨⟨by decide, small _⟩, ?_⟩
    rintro _ ⟨⟩
    refine ⟨⟨by decide, small _⟩, ?_⟩
    rintro _ ⟨⟩
    refine ⟨⟨trivial, trivial⟩, ?_⟩
    rintro _ ⟨⟩
    exact ⟨⟨by decide +kernel, trivial⟩, fun _ _ => trivial⟩

/-- Twice the starting id 1023: the second search comes back from the full end of
the last block, carries past digit 1 and returns 1024 for the entry of id 0. -/
theorem secondTopId_misplaced :
    ((run step (idrInit : State Nat) [.preGet 14, .getNewAbove (some 5) 1023]).bind fun before =>
      (idrGetNewAbove before (userPtr (some 6)) 1023).map fun (error, id, after) =>
        (error, id, (idrFind after 1024).map Ptr.isNull, (idrFind before 0).map Ptr.isNull,
          (idrFind after 0).map Ptr.isNull)) =
      some (0, some 1024, some true, some true, some false) := by
  decide +kernel

/-- Removing any id keeps the tree well formed, and `idr_find` reads the same everywhere
exactly when it reads NULL at the id that the low digits name. -/
theorem idrRemove_keeps_find_iff {state : State α} (ok : StateOk state) (id : UInt32) :
    ∃ next, idrRemove state id = some next ∧ StateOk next ∧
      ((∀ other, idrFind next other = idrFind state other) ↔
        idrFind state (UInt32.ofNat ((id.toNat &&& maxIdMask) % span state.layers)) =
          some .null) := by
  obtain ⟨next, ran, ok', updated⟩ := idrRemove_ok ok id
  generalize low : (id.toNat &&& maxIdMask) % span state.layers = place at updated ⊢
  have masked : (UInt32.ofNat place).toNat &&& maxIdMask = place := by
    apply masked_ofNat (Nat.lt_of_lt_of_le _ ok.span_le)
    rw [← low]
    exact Nat.mod_lt _ (span_pos _)
  refine ⟨next, ran, ok', ?_, ?_⟩
  · intro same
    rw [← same, ok'.find_eq, masked, updated, update_self]
    rfl
  · intro null other
    rw [ok.find_eq, masked] at null
    rw [ok.find_eq, ok'.find_eq, updated]
    by_cases here : other.toNat &&& maxIdMask = place
    · rw [here, null, update_self]
      rfl
    · rw [update_of_ne here]

theorem idrRemove_keeps_find_iff_oneId :
    ∃ state next : State Nat, run step idrInit [.preGet 1, .getNew (some 5)] = some state ∧
      idrRemove state 33 = some next ∧ StateOk next ∧
      ((∀ other, idrFind next other = idrFind state other) ↔
        idrFind state (UInt32.ofNat (33 % span state.layers)) = some .null) := by
  have defined : (run step (idrInit : State Nat) [.preGet 1, .getNew (some 5)]).isSome = true := by
    decide +kernel
  obtain ⟨state, executed⟩ := isSome_iff_exists.mp defined
  have ok : StateOk state :=
    run_ok executed ⟨⟨trivial, trivial⟩, fun _ _ => ⟨⟨trivial, trivial⟩, fun _ _ => trivial⟩⟩
  obtain ⟨next, ran, rest⟩ := idrRemove_keeps_find_iff ok 33
  exact ⟨state, next, executed, ran, rest⟩

/-- With id 0 alone in one layer, removing id 32 removes id 0. -/
theorem idrRemove_removesLow :
    ((run step (idrInit : State Nat) [.preGet 1, .getNew (some 5)]).bind fun before =>
      (idrRemove before 32).map fun after =>
        ((entries before 32).isNone, (idrFind before 0).map Ptr.isNull,
          (idrFind after 0).map Ptr.isNull)) = some (true, some false, some true) := by
  decide +kernel

end MagxKernel.Idr
