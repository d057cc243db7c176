import MagxKernel.Vmalloc.VmList

namespace MagxKernel.Vmalloc

open RoundUp Spans List

/-- Sorted areas without overlap, all of them below the end of the address space. -/
def Kept (low : Nat) (vmlist : List VmStruct) : Prop :=
  Laid VmStruct.addr VmStruct.size (2 ^ 32 - 1) low vmlist

/-- An aligned place in the window where no area is in the way. -/
structure Free (size align start stop : Nat) (vmlist : List VmStruct) (place : Nat) : Prop where
  aligned : align ∣ place
  above : start ≤ place
  below : place + size ≤ stop
  free : ∀ area ∈ vmlist, place + size ≤ area.addr ∨ area.addr + area.size ≤ place

/-- Where an area in the gap behind `low` would begin. -/
def gapStart (align start low : Nat) : Nat := roundUp (max start low) align

/-- No gap up to some area takes the size; that area does not begin before its gap does, and from
the gap on the address space is too short, or behind the area the window is. -/
def Barred (size align start stop : Nat) : Nat → List VmStruct → Prop
  | _, [] => False
  | low, tmp :: rest =>
      tmp.addr < gapStart align start low + size ∧
        (gapStart align start low ≤ tmp.addr ∧
            (2 ^ 32 ≤ gapStart align start low + size ∨
              roundUp (tmp.addr + tmp.size) align < 2 ^ 32 ∧
                (stop + 2 ^ 32 - size) % 2 ^ 32 < roundUp (tmp.addr + tmp.size) align) ∨
          Barred size align start stop (tmp.addr + tmp.size) rest)

section Scan

variable {size flags align start stop : Nat}

theorem alignWord_eq {x : Nat} (positive : 0 < align) (whole : align ∣ 2 ^ 32)
    (small : roundUp x align < 2 ^ 32) : alignWord x align = roundUp x align :=
  wrapped_roundUp positive whole small

theorem Kept.past {low : Nat} {tmp : VmStruct} {rest : List VmStruct}
    (kept : Kept low (tmp :: rest)) : (tmp.size + tmp.addr) % 2 ^ 32 = tmp.addr + tmp.size := by
  have inside := Laid.inside kept mem_cons_self
  rw [Nat.add_comm, Nat.mod_eq_of_lt (by omega)]

/-- The first free place is found, and the list stays in order. -/
theorem scan_free (positive : 0 < align) (whole : align ∣ 2 ^ 32) (some_size : 0 < size)
    (narrow : stop < 2 ^ 32) {place : Nat} (vmlist : List VmStruct) (low addr : Nat)
    (free : Free size align start stop vmlist place) (kept : Kept low vmlist)
    (behind : low ≤ addr) (aligned : align ∣ addr) (inside : start ≤ addr) (first : addr ≤ place) :
    ∃ found, scan size flags align stop addr vmlist = some found ∧ found.1.size = size ∧
      align ∣ found.1.addr ∧ start ≤ found.1.addr ∧ found.1.addr ≤ place ∧ Kept low found.2 := by
  have room := free.below
  induction vmlist generalizing low addr with
  | nil =>
    refine ⟨_, rfl, rfl, aligned, inside, first, behind, some_size, ?_⟩
    show addr + size ≤ 2 ^ 32 - 1
    omega
  | cons tmp rest ih =>
    have past := kept.past
    have others : Free size align start stop rest place :=
      ⟨free.aligned, free.above, free.below,
        (forall_mem_cons.mp free.free).2⟩
    -- when the place is not in front of this area, the next candidate is not behind the place
    have skip : tmp.addr < place + size →
        alignWord (tmp.addr + tmp.size) align = roundUp (tmp.addr + tmp.size) align ∧
          tmp.addr + tmp.size ≤ roundUp (tmp.addr + tmp.size) align ∧
          roundUp (tmp.addr + tmp.size) align ≤ place := by
      intro late
      have apart := free.free tmp mem_cons_self
      have least := roundUp_le positive free.aligned (apart.resolve_left (by omega))
      exact ⟨alignWord_eq positive whole (by omega), le_roundUp _ positive, least⟩
    have go_on : ∀ next, align ∣ next → start ≤ next → tmp.addr + tmp.size ≤ next → next ≤ place →
        ∃ found, (scan size flags align stop next rest).map
            (fun found => (found.1, tmp :: found.2)) = some found ∧ found.1.size = size ∧
          align ∣ found.1.addr ∧ start ≤ found.1.addr ∧ found.1.addr ≤ place ∧
          Kept low found.2 := by
      intro next multiple starts clear before
      obtain ⟨found, done, facts⟩ := ih (tmp.addr + tmp.size) next others kept.2.2 clear multiple
        starts before
      rw [done]
      exact ⟨_, rfl, facts.1, facts.2.1, facts.2.2.1, facts.2.2.2.1, kept.1, kept.2.1,
        facts.2.2.2.2⟩
    simp only [scan]
    rw [past]
    by_cases earlier : tmp.addr < addr
    · have bump := skip (by omega)
      rw [if_pos earlier]
      split
      · rw [bump.1]
        exact go_on _ (dvd_roundUp _ _) (by omega) bump.2.1 bump.2.2
      · exact go_on addr aligned inside (by omega) first
    · have sum : (size + addr) % 2 ^ 32 = size + addr := Nat.mod_eq_of_lt (by omega)
      rw [if_neg earlier, sum, if_neg (by omega)]
      by_cases gap : size + addr ≤ tmp.addr
      · rw [if_pos gap]
        refine ⟨_, rfl, rfl, aligned, inside, first, behind, some_size, ?_⟩
        exact ⟨by show addr + size ≤ tmp.addr; omega, kept.2.1, kept.2.2⟩
      · have bump := skip (by omega)
        have limit : (stop + 2 ^ 32 - size) % 2 ^ 32 = stop - size := by omega
        rw [if_neg gap, bump.1, limit, if_neg (by omega)]
        exact go_on _ (dvd_roundUp _ _) (by omega) bump.2.1 bump.2.2

theorem gapStart_next (positive : 0 < align) {low past : Nat} (order : low ≤ past) :
    gapStart align start past =
      if gapStart align start low ≤ past then roundUp past align else gapStart align start low := by
  unfold gapStart
  have above := le_roundUp (max start low) positive
  split
  · congr 1
    omega
  · apply Nat.le_antisymm
    · exact roundUp_le positive (dvd_roundUp _ _) (by omega)
    · exact roundUp_mono positive (by omega)

theorem Barred.below {low : Nat} {vmlist : List VmStruct}
    (barred : Barred size align start stop low vmlist) (positive : 0 < align)
    (kept : Kept low vmlist) : gapStart align start low < 2 ^ 32 := by
  induction vmlist generalizing low with
  | nil => exact barred.elim
  | cons tmp rest ih =>
    have area := Laid.inside kept mem_cons_self
    rcases barred.2 with here | later
    · omega
    · have up : gapStart align start low ≤ gapStart align start (tmp.addr + tmp.size) :=
        roundUp_mono positive (by omega)
      have above := ih later kept.2.2
      omega

theorem scan_barred (positive : 0 < align) (whole : align ∣ 2 ^ 32) (small : size < 2 ^ 32)
    (vmlist : List VmStruct) (low : Nat) (kept : Kept low vmlist)
    (barred : Barred size align start stop low vmlist) :
    scan size flags align stop (gapStart align start low) vmlist = none := by
  induction vmlist generalizing low with
  | nil => exact barred.elim
  | cons tmp rest ih =>
    have past := kept.past
    have area := Laid.inside kept mem_cons_self
    obtain ⟨tight, ⟨inFront, wraps | ⟨fits, beyond⟩⟩ | later⟩ := barred
    · rw [scan, if_neg (by omega), if_pos (by omega)]
    · have word := alignWord_eq positive whole fits
      simp only [scan]
      rw [past, word, if_neg (by omega), if_pos beyond]
      split
      · rfl
      · exact if_neg (by omega)
    · have next := @gapStart_next align start positive low (tmp.addr + tmp.size) (by omega)
      have word : alignWord (tmp.addr + tmp.size) align = roundUp (tmp.addr + tmp.size) align := by
        have up : roundUp (tmp.addr + tmp.size) align ≤
            gapStart align start (tmp.addr + tmp.size) :=
          roundUp_mono positive (Nat.le_max_right _ _)
        exact alignWord_eq positive whole
          (Nat.lt_of_le_of_lt up (later.below positive kept.2.2))
      simp only [scan]
      rw [past, word]
      split
      · rw [← next, ih _ kept.2.2 later]
        rfl
      · split
        · rfl
        · rw [if_neg (show ¬ _ ≤ tmp.addr by omega)]
          split
          · rfl
          · rw [if_pos (by omega)] at next
            rw [← next, ih _ kept.2.2 later]
            rfl

end Scan

section Request

variable {request : Request} {vmlist : List VmStruct}

theorem Request.align_eq (request : Request) :
    ∃ bit ≤ ioremapMaxOrder, request.align = 2 ^ bit := by
  unfold Request.align
  split
  · simp only
    split
    · exact ⟨ioremapMaxOrder, Nat.le_refl _, rfl⟩
    · split
      · exact ⟨pageShift, by decide, rfl⟩
      · exact ⟨fls request.size, by omega, rfl⟩
  · exact ⟨0, Nat.zero_le _, rfl⟩

theorem Request.align_pos (request : Request) : 0 < request.align := by
  obtain ⟨bit, _, power⟩ := request.align_eq
  rw [power]
  exact Nat.two_pow_pos bit

theorem Request.align_dvd (request : Request) : request.align ∣ 2 ^ 32 := by
  obtain ⟨bit, small, power⟩ := request.align_eq
  have order : ioremapMaxOrder ≤ 32 := by decide
  rw [power]
  exact Nat.pow_dvd_pow 2 (Nat.le_trans small order)

/-- The request has a place in its window, or the areas are such that the scan
comes upon the end of the window right behind one of them. -/
def Admitted (memory : Bool) (request : Request) (vmlist : List VmStruct) : Prop :=
  memory = false ∨ request.size + pageSize = 2 ^ 32 ∨
    (∃ place, Free (request.size + pageSize) request.align request.start request.stop vmlist
      place) ∨
    Barred (request.size + pageSize) request.align request.start request.stop 0 vmlist

/-- What is promised about the area that is handed out. -/
structure Granted (request : Request) (area : VmStruct) : Prop where
  aligned : request.align ∣ area.addr
  above : request.start ≤ area.addr
  below : area.addr + area.size ≤ request.stop

theorem getVmArea_spec (proper : request.Proper) {memory : Bool} (kept : Kept 0 vmlist)
    (admitted : Admitted memory request vmlist) :
    Kept 0 (getVmArea memory request vmlist).2 ∧
      ∀ area, (getVmArea memory request vmlist).1 = some area → Granted request area := by
  have narrow := proper.stop_narrow
  have positive := request.align_pos
  have whole := request.align_dvd
  simp only [getVmArea]
  split
  · exact ⟨kept, fun _ wrong => (by cases wrong)⟩
  rename_i refused
  push Not at refused
  rcases admitted with none_left | wraps | ⟨place, free⟩ | barred
  · exact absurd none_left refused.1
  · rw [wraps] at refused
    exact absurd (Nat.mod_self _) refused.2
  · have room := free.below
    have least := roundUp_le positive free.aligned free.above
    have size : (request.size + pageSize) % 2 ^ 32 = request.size + pageSize :=
      Nat.mod_eq_of_lt (by omega)
    rw [size, alignWord_eq positive whole (by omega)]
    obtain ⟨found, done, length, aligned, above, before, order⟩ :=
      @scan_free (request.size + pageSize) request.flags request.align request.start request.stop
        positive whole (by have : 0 < pageSize := by decide
                           omega) narrow place vmlist 0 _ free kept (Nat.zero_le _)
        (dvd_roundUp _ _) (le_roundUp _ positive) least
    rw [done]
    refine ⟨order, ?_⟩
    intro area same
    cases same
    exact ⟨aligned, above, by omega⟩
  · have small : request.size + pageSize < 2 ^ 32 := by
      have narrow := proper.narrow
      have nonzero := refused.2
      obtain ⟨pages, total⟩ := proper.pages
      rw [show pageSize = 4096 from rfl] at total nonzero ⊢
      omega
    have size : (request.size + pageSize) % 2 ^ 32 = request.size + pageSize :=
      Nat.mod_eq_of_lt small
    have begins : gapStart request.align request.start 0 = roundUp request.start request.align := by
      rw [gapStart, Nat.max_zero]
    have below := barred.below positive kept
    have none_found := @scan_barred _ request.flags _ _ _ positive whole small vmlist 0 kept barred
    rw [begins] at below none_found
    rw [size, alignWord_eq positive whole below, none_found]
    exact ⟨kept, fun _ wrong => (by cases wrong)⟩

end Request

/-- A call of `__get_vm_area` or of `remove_vm_area`. -/
inductive Call where
  | get (memory : Bool) (request : Request)
  | remove (addr : Nat)
deriving DecidableEq

/-- `vmlist`, and the areas that were handed out so far. -/
structure State where
  vmlist : List VmStruct
  granted : List (Request × VmStruct)
deriving DecidableEq

def step (state : State) : Call → Option State
  | .get memory request =>
      let result := getVmArea memory request state.vmlist
      some ⟨result.2, (result.1.map fun area => (request, area)).toList ++ state.granted⟩
  | .remove addr => some { state with vmlist := (removeVmArea addr state.vmlist).2 }

def Call.Proper : Call → Prop
  | .get _ request => request.Proper
  | .remove _ => True

def Call.Admitted (state : State) : Call → Prop
  | .get memory request => Vmalloc.Admitted memory request state.vmlist
  | .remove _ => True

/-- Sorted areas apart from each other, each handed out inside its window. -/
structure Sound (state : State) : Prop where
  kept : Kept 0 state.vmlist
  granted : ∀ grant ∈ state.granted, Granted grant.1 grant.2

theorem step_sound {state next : State} {call : Call} (sound : Sound state) (proper : call.Proper)
    (admitted : call.Admitted state) (stepped : step state call = some next) : Sound next := by
  cases call with
  | get memory request =>
    have spec := getVmArea_spec proper sound.kept admitted
    cases stepped
    refine ⟨spec.1, ?_⟩
    intro grant found
    rcases mem_append.mp found with fresh | earlier
    · obtain ⟨area, same, rfl⟩ := Option.map_eq_some_iff.mp (Option.mem_toList.mp fresh)
      exact spec.2 area same
    · exact sound.granted grant earlier
  | remove addr =>
    cases stepped
    exact ⟨Laid.sublist eraseP_sublist sound.kept, sound.granted⟩

/-- As long as each request has a place in its window or runs into the check, the areas
stay sorted and apart, and each one handed out is aligned and inside its window. -/
theorem vmlist_sorted_inside (calls : List Call) (state : State)
    (admitted : Runs.Along step (fun state call => call.Proper ∧ call.Admitted state) ⟨[], []⟩
      calls)
    (executed : Runs.run step ⟨[], []⟩ calls = some state) :
    (state.vmlist.Pairwise fun first second =>
        first.addr < second.addr ∧ first.addr + first.size ≤ second.addr) ∧
      ∀ grant ∈ state.granted, grant.1.align ∣ grant.2.addr ∧ grant.1.start ≤ grant.2.addr ∧
        grant.2.addr + grant.2.size ≤ grant.1.stop := by
  have empty : Sound ⟨[], []⟩ := ⟨Nat.zero_le _, fun _ wrong => (by cases wrong)⟩
  have sound : Sound state := by
    apply Runs.run_invariant _ calls ⟨[], []⟩ state empty admitted executed
    intro state call next sound allowed stepped
    exact step_sound sound allowed.1 allowed.2 stepped
  constructor
  · apply (Laid.pairwise sound.kept).imp_of_mem
    intro first second found _ apart
    have filled := (Laid.inside sound.kept found).2.1
    exact ⟨by omega, apart⟩
  · intro grant found
    have granted := sound.granted grant found
    exact ⟨granted.aligned, granted.above, granted.below⟩

/-- Two areas with one page each, the second for I/O, in a window of fifteen pages. -/
theorem vmlist_sorted_inside_twoAreas :
    Runs.run step ⟨[], []⟩
        [.get true ⟨4096, 2, 4096, 65536⟩, .get true ⟨4096, 1, 4096, 65536⟩, .remove 4096] =
      some ⟨[⟨16384, 8192, 1⟩],
        [(⟨4096, 1, 4096, 65536⟩, ⟨16384, 8192, 1⟩), (⟨4096, 2, 4096, 65536⟩, ⟨4096, 8192, 2⟩)]⟩ ∧
      (([⟨16384, 8192, 1⟩] : List VmStruct).Pairwise fun first second =>
        first.addr < second.addr ∧ first.addr + first.size ≤ second.addr) := by
  have plain : Request.Proper ⟨4096, 2, 4096, 65536⟩ := by constructor <;> decide
  have mapped : Request.Proper ⟨4096, 1, 4096, 65536⟩ := by constructor <;> decide
  refine (and_iff_left_of_imp fun executed => (vmlist_sorted_inside _ _ ?_ executed).1).mpr
    (by decide)
  refine ⟨⟨plain, .inr (.inr (.inl ⟨4096, by constructor <;> decide⟩))⟩, ?_⟩
  intro next stepped
  cases stepped
  refine ⟨⟨mapped, .inr (.inr (.inl ⟨16384, by constructor <;> decide⟩))⟩, ?_⟩
  intro next stepped
  cases stepped
  exact ⟨⟨trivial, trivial⟩, fun _ _ => trivial⟩

/-- Two pages and the guard page asked for in a window of one page: the empty list has no
area to run the check behind. -/
theorem getVmArea_outside :
    Request.Proper ⟨8192, 2, 4096, 8192⟩ ∧
      getVmArea true ⟨8192, 2, 4096, 8192⟩ [] = (some ⟨4096, 12288, 2⟩, [⟨4096, 12288, 2⟩]) ∧
      ¬ 4096 + 12288 ≤ 8192 :=
  ⟨by constructor <;> decide, by decide, by decide⟩

end MagxKernel.Vmalloc
