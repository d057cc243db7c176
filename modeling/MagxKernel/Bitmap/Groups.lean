import Mathlib.Data.List.TakeWhile
import MagxKernel.Bitmap.Parse

namespace MagxKernel.Bitmap

open List

/-- The digits of one chunk. -/
structure IsGroup (group : List Byte) : Prop where
  some_ : group ≠ []
  digits : ∀ c ∈ group, isxdigit c = true

/-- The text ends: with spaces, with spaces and a NUL, or with a comma that is the last
character of the buffer. -/
inductive EndOfText : List Byte → Prop
  | comma : EndOfText [Bitmap.comma]
  | spaces (blanks : List Byte) (blank : ∀ c ∈ blanks, isspace c = true) : EndOfText blanks
  | nul (blanks more : List Byte) (blank : ∀ c ∈ blanks, isspace c = true) :
      EndOfText (blanks ++ 0 :: more)

/-- A text of groups with commas between them. -/
inductive Groups : List Byte → List (List Byte) → Prop
  | last (group tail : List Byte) (isGroup : IsGroup group) (ends : EndOfText tail) :
      Groups (group ++ tail) [group]
  | more (group rest : List Byte) (groups : List (List Byte)) (isGroup : IsGroup group)
      (further : Groups rest groups) : Groups (group ++ comma :: rest) (group :: groups)

/-- A text that may be parsed, and its groups. -/
def Reads (text : List Byte) (groups : List (List Byte)) : Prop :=
  ∃ lead rest, (∀ c ∈ lead, isspace c = true) ∧ text = lead ++ rest ∧ Groups rest groups

/-- The groups as one number, the first in front. -/
def groupsValue (value : Nat) (groups : List (List Byte)) : Nat :=
  groups.foldl (fun value group => value * 2 ^ 32 + hexValue 0 group) value

/-- Every group fits a chunk, and the number fits the bitmap. -/
structure Fits (nmaskbits value : Nat) (groups : List (List Byte)) : Prop where
  chunks : ∀ group ∈ groups, hexValue 0 group < 2 ^ 32
  whole : groupsValue value groups < 2 ^ nmaskbits

theorem le_groupsValue (value : Nat) (groups : List (List Byte)) :
    value ≤ groupsValue value groups := by
  induction groups generalizing value with
  | nil => exact Nat.le_refl value
  | cons group groups ih => exact Nat.le_trans (by omega) (ih (value * 2 ^ 32 + hexValue 0 group))

section Scan

variable {tail : List Byte} {rest : Option (List Byte)}

theorem takeWhile_eq_nil (head : ∀ c rest, tail = c :: rest → isxdigit c = false) :
    tail.takeWhile isxdigit = [] ∧ tail.dropWhile isxdigit = tail := by
  cases tail with
  | nil => exact ⟨rfl, rfl⟩
  | cons c rest =>
    have other : ¬ isxdigit c = true := Bool.eq_false_iff.mp (head c rest rfl)
    exact ⟨takeWhile_cons_of_neg other, dropWhile_cons_of_neg other⟩

theorem scan_group {group : List Byte} (isGroup : IsGroup group)
    (head : ∀ c rest, tail = c :: rest → isxdigit c = false) :
    scan 0 (group ++ tail) =
      if 2 ^ 32 ≤ hexValue 0 group then .error .eoverflow
      else (chunkEnd tail).map fun rest => (group, rest) := by
  obtain ⟨none, whole⟩ := takeWhile_eq_nil head
  unfold scan
  rw [takeWhile_append_of_pos isGroup.digits, dropWhile_append_of_pos isGroup.digits, none,
    whole, append_nil]

theorem head_of {d : Byte} {others : List Byte} (other : isxdigit d = false) (c : Byte)
    (rest : List Byte) (same : d :: others = c :: rest) : isxdigit c = false :=
  (List.cons.inj same).1 ▸ other

theorem not_xdigit_of_space {c : Nat} (blank : isspace c = true) : isxdigit c = false := by
  by_contra digit
  have space := (isxdigit_ne (Bool.eq_true_of_not_eq_false digit)).1
  exact Bool.noConfusion (space.symm.trans blank)

theorem spacesEnd_spaces {blanks : List Byte} (blank : ∀ c ∈ blanks, isspace c = true) :
    spacesEnd blanks = .ok none ∧ ∀ more, spacesEnd (blanks ++ 0 :: more) = .ok none := by
  unfold spacesEnd
  refine ⟨?_, fun more => ?_⟩
  · rw [dropWhile_eq_nil_iff.mpr blank]
  · rw [dropWhile_append_of_pos blank, dropWhile_cons_of_neg (by decide)]
    rfl

theorem EndOfText.chunkEnd (ends : EndOfText tail) :
    Bitmap.chunkEnd tail = .ok none ∧ ∀ c rest, tail = c :: rest → isxdigit c = false := by
  cases ends with
  | comma => exact ⟨rfl, head_of (by decide)⟩
  | spaces _ blank =>
    cases tail with
    | nil => exact ⟨rfl, nofun⟩
    | cons d tail =>
      obtain ⟨first, others⟩ := forall_mem_cons.mp blank
      rw [chunkEnd_space first]
      exact ⟨(spacesEnd_spaces others).1, head_of (not_xdigit_of_space first)⟩
  | nul blanks more blank =>
    cases blanks with
    | nil => exact ⟨rfl, head_of (by decide)⟩
    | cons d blanks =>
      obtain ⟨first, others⟩ := forall_mem_cons.mp blank
      rw [cons_append, chunkEnd_space first]
      exact ⟨(spacesEnd_spaces others).2 more, head_of (not_xdigit_of_space first)⟩

theorem spacesEnd_ok {text : List Byte} (found : spacesEnd text = .ok rest) :
    rest = none ∧ ∃ blanks, (∀ c ∈ blanks, isspace c = true) ∧
      (text = blanks ∨ ∃ more, text = blanks ++ 0 :: more) := by
  have parts := takeWhile_append_dropWhile (p := isspace) (l := text)
  have blank : ∀ c ∈ text.takeWhile isspace, isspace c = true :=
    fun _ => mem_takeWhile_imp
  unfold spacesEnd at found
  cases left : text.dropWhile isspace with
  | nil =>
    rw [left] at found parts
    rw [append_nil] at parts
    exact ⟨(Except.ok.inj found).symm, _, blank, .inl parts.symm⟩
  | cons d more =>
    rw [left] at found parts
    dsimp only at found
    by_cases zero : d = 0
    · subst zero
      exact ⟨(Except.ok.inj found).symm, _, blank, .inr ⟨more, parts.symm⟩⟩
    · rw [if_neg zero] at found
      cases found

theorem chunkEnd_ok {after : List Byte} (found : chunkEnd after = .ok rest) :
    (rest = none ∧ EndOfText after) ∨
      ∃ more, rest = some more ∧ after = comma :: more ∧ more ≠ [] := by
  cases after with
  | nil => exact .inl ⟨(Except.ok.inj found).symm, .spaces [] nofun⟩
  | cons c after =>
    by_cases blank : isspace c = true
    · rw [chunkEnd_space blank] at found
      obtain ⟨none, blanks, others, ends⟩ := spacesEnd_ok found
      have all : ∀ d ∈ c :: blanks, isspace d = true := forall_mem_cons.mpr ⟨blank, others⟩
      refine .inl ⟨none, ?_⟩
      cases ends with
      | inl whole => exact whole ▸ .spaces (c :: blanks) all
      | inr nul =>
        obtain ⟨more, whole⟩ := nul
        rw [whole, ← cons_append]
        exact .nul (c :: blanks) more all
    · by_cases isComma : c = comma
      · subst isComma
        rw [chunkEnd, if_pos rfl] at found
        by_cases ends : after = []
        · subst ends
          exact .inl ⟨(Except.ok.inj found).symm, .comma⟩
        · rw [if_neg ends] at found
          exact .inr ⟨after, (Except.ok.inj found).symm, rfl, ends⟩
      · rw [chunkEnd, if_neg isComma] at found
        by_cases zero : c = 0
        · subst zero
          exact .inl ⟨(Except.ok.inj found).symm, .nul [] after nofun⟩
        · rw [if_neg zero, if_neg blank] at found
          cases found

theorem spacesEnd_cases (text : List Byte) :
    spacesEnd text = .ok none ∨ spacesEnd text = .error .einval := by
  unfold spacesEnd
  split
  · exact .inl rfl
  · split
    · exact .inl rfl
    · exact .inr rfl

theorem chunkEnd_not_overflow (after : List Byte) : chunkEnd after ≠ .error .eoverflow := by
  intro found
  cases after with
  | nil => cases found
  | cons c after =>
    rw [chunkEnd] at found
    split at found
    · cases found
    split at found
    · cases found
    split at found
    · rcases spacesEnd_cases after with ends | fails
      · rw [ends] at found
        cases found
      · rw [fails] at found
        cases found
    · cases found

theorem scan_ok {text digits : List Byte} (found : scan 0 text = .ok (digits, rest)) :
    (∀ c ∈ digits, isxdigit c = true) ∧ hexValue 0 digits < 2 ^ 32 ∧
      ((rest = none ∧ ∃ tail, text = digits ++ tail ∧ EndOfText tail) ∨
        ∃ more, rest = some more ∧ text = digits ++ comma :: more ∧ more ≠ []) := by
  unfold scan at found
  dsimp only at found
  split at found
  · cases found
  rename_i fits
  cases ended : chunkEnd (text.dropWhile isxdigit) with
  | error errno =>
    rw [ended] at found
    cases found
  | ok after =>
    rw [ended] at found
    obtain ⟨rfl, rfl⟩ := Prod.mk.inj (Except.ok.inj found)
    have parts := takeWhile_append_dropWhile (p := isxdigit) (l := text)
    refine ⟨fun _ => mem_takeWhile_imp, Nat.not_le.mp fits, ?_⟩
    cases chunkEnd_ok ended with
    | inl last => exact .inl ⟨last.1, _, parts.symm, last.2⟩
    | inr more =>
      obtain ⟨more, isMore, after, some_⟩ := more
      rw [after] at parts
      exact .inr ⟨more, isMore, parts.symm, some_⟩

theorem scan_overflow {text : List Byte} (found : scan 0 text = .error .eoverflow) :
    ∃ digits tail, text = digits ++ tail ∧ (∀ c ∈ digits, isxdigit c = true) ∧
      2 ^ 32 ≤ hexValue 0 digits := by
  unfold scan at found
  dsimp only at found
  split at found
  next large =>
    exact ⟨_, _, (takeWhile_append_dropWhile (p := isxdigit) (l := text)).symm,
      fun _ => mem_takeWhile_imp, large⟩
  · cases ended : chunkEnd (text.dropWhile isxdigit) with
    | error errno =>
      rw [ended] at found
      cases found
      exact absurd ended (chunkEnd_not_overflow _)
    | ok after =>
      rw [ended] at found
      cases found

end Scan

section Parse

variable {nmaskbits : Nat} {fuel totaldigits : Nat} {text digits : List Byte} {c : Byte}
  {progress : Progress} {groups : List (List Byte)} {value : Nat}

/-- The character before a chunk is not a space, and neither is the first one. -/
structure Ready (text : List Byte) (c : Byte) (totaldigits : Nat) : Prop where
  start : totaldigits ≠ 0 → isspace c = false
  lead : totaldigits = 0 → ∀ first rest, text = first :: rest → isspace first = false

section

variable (ready : Ready text c totaldigits)

include ready

theorem Ready.agrees :
    Agrees 0 0 totaldigits (scan 0 text) (nextChunk (text.map some) c 0 0 totaldigits) :=
  nextChunk_agrees text 0 0 totaldigits ready.start ready.lead

theorem Ready.error {errno : Errno} (found : scan 0 text = .error errno) (nmaskbits fuel : Nat)
    (progress : Progress) :
    parseChunks nmaskbits (fuel + 1) (text.map some) c totaldigits progress =
      some (.error errno) := by
  have agrees := ready.agrees
  rw [found] at agrees
  cases result : nextChunk (text.map some) c 0 0 totaldigits with
  | ok chunk =>
    rw [result] at agrees
    cases agrees
  | error other =>
    rw [result] at agrees
    cases agrees
    rw [parseChunks, result]

/-- A chunk goes to `addChunk`, and the rest to the next turn. -/
theorem Ready.chunk {rest : Option (List Byte)} (found : scan 0 text = .ok (digits, rest))
    (nmaskbits fuel : Nat) (progress : Progress) :
    (digits = [] → parseChunks nmaskbits (fuel + 1) (text.map some) c totaldigits progress =
      some (.error .einval)) ∧
    (digits ≠ [] → ∃ chunk : Word, chunk.toNat = hexValue 0 digits ∧
      (∀ errno, addChunk nmaskbits progress chunk = .error errno →
        parseChunks nmaskbits (fuel + 1) (text.map some) c totaldigits progress =
          some (.error errno)) ∧
      ∀ next, addChunk nmaskbits progress chunk = .ok next →
        (rest = none → parseChunks nmaskbits (fuel + 1) (text.map some) c totaldigits progress =
          some (.ok next.mask)) ∧
        ∀ more, rest = some more →
          parseChunks nmaskbits (fuel + 1) (text.map some) c totaldigits progress =
            parseChunks nmaskbits fuel (more.map some) comma
              (totaldigits + digits.length) next) := by
  have agrees := ready.agrees
  rw [found] at agrees
  rw [parseChunks]
  cases result : nextChunk (text.map some) c 0 0 totaldigits with
  | error other =>
    rw [result] at agrees
    cases agrees
  | ok chunk =>
    rw [result] at agrees
    have counted : Counted 0 0 totaldigits digits chunk := by
      cases agrees with
      | last _ _ counted _ | more _ _ _ counted _ _ _ => exact counted
    have digitsCount : chunk.ndigits = digits.length := by
      rw [counted.ndigits, Nat.zero_add]
    dsimp only
    rw [digitsCount]
    refine ⟨fun none => by rw [if_pos (by rw [none]; rfl)], fun some_ => ?_⟩
    rw [if_neg fun zero => some_ (eq_nil_of_length_eq_zero zero)]
    refine ⟨chunk.chunk, counted.value, fun errno failed => by rw [failed], fun next added => ?_⟩
    rw [added]
    dsimp only
    refine ⟨fun isNone => ?_, fun more isMore => ?_⟩
    · subst isNone
      cases agrees with
      | last _ _ _ stops => rw [if_neg stops]
    · subst isMore
      cases agrees with
      | more _ _ _ _ ubuf rest isComma =>
        rw [ubuf, isComma, counted.totaldigits,
          if_pos ⟨fun none => rest (map_eq_nil_iff.mp none), rfl⟩]

end

theorem Fits.cons {group : List Byte} :
    Fits nmaskbits value (group :: groups) ↔
      hexValue 0 group < 2 ^ 32 ∧ Fits nmaskbits (value * 2 ^ 32 + hexValue 0 group) groups := by
  constructor
  · intro fits
    obtain ⟨first, others⟩ := forall_mem_cons.mp fits.chunks
    exact ⟨first, others, fits.whole⟩
  · intro facts
    exact ⟨forall_mem_cons.mpr ⟨facts.1, facts.2.chunks⟩, facts.2.whole⟩

theorem Fits.nil : Fits nmaskbits value [] ↔ value < 2 ^ nmaskbits :=
  ⟨fun fits => fits.whole, fun small => ⟨forall_mem_nil _, small⟩⟩

theorem ready_comma (text : List Byte) {totaldigits : Nat} (some_ : totaldigits ≠ 0) :
    Ready text comma totaldigits :=
  ⟨fun _ => by decide, fun zero => absurd zero some_⟩

theorem ends_nil : EndOfText [] := .spaces [] (forall_mem_nil _)

/-- Whatever the text, the loop returns; it succeeds only with groups that fit, and finds
an overflow only in groups that do not. -/
theorem Ready.outcome (ready : Ready text c totaldigits) (holds : Holds nmaskbits value progress)
    (small : nmaskbits + 32 < 2 ^ 31) (positive : 0 < nmaskbits) (enough : text.length < fuel) :
    ∃ result, parseChunks nmaskbits fuel (text.map some) c totaldigits progress = some result ∧
      (∀ final, result = .ok final → ∃ groups, Groups text groups ∧ Fits nmaskbits value groups ∧
        maskValue final nmaskbits = groupsValue value groups) ∧
      (result = .error .eoverflow → ∃ front back groups, text = front ++ back ∧
        Groups front groups ∧ ¬ Fits nmaskbits value groups) := by
  induction fuel generalizing text c totaldigits progress value with
  | zero => exact absurd enough (Nat.not_lt_zero _)
  | succ fuel ih =>
    cases found : scan 0 text with
    | error errno =>
      refine ⟨_, ready.error found nmaskbits fuel progress, fun final wrong => (by cases wrong),
        fun same => ?_⟩
      cases same
      obtain ⟨digits, tail, isText, xdigits, large⟩ := scan_overflow found
      have some_ : digits ≠ [] := by
        intro none
        rw [none] at large
        exact absurd large (by decide)
      refine ⟨digits, tail, [digits], isText, ?_, fun fits => ?_⟩
      · have group := Groups.last digits [] ⟨some_, xdigits⟩ ends_nil
        rwa [append_nil] at group
      · exact absurd (fits.chunks digits mem_cons_self) (Nat.not_lt.mpr large)
    | ok pair =>
      obtain ⟨digits, rest⟩ := pair
      obtain ⟨xdigits, isChunk, shape⟩ := scan_ok found
      obtain ⟨empty, full⟩ := ready.chunk found nmaskbits fuel progress
      by_cases none : digits = []
      · exact ⟨_, empty none, fun final wrong => (by cases wrong), fun wrong => (by cases wrong)⟩
      · have isGroup : IsGroup digits := ⟨none, xdigits⟩
        obtain ⟨chunk, isValue, fails, adds⟩ := full none
        by_cases fits : value * 2 ^ 32 + chunk.toNat < 2 ^ nmaskbits
        · obtain ⟨next, added, sum⟩ := holds.addChunk (by omega) positive chunk fits
          rw [isValue] at sum
          obtain ⟨stop, go⟩ := adds next added
          cases shape with
          | inl last =>
            obtain ⟨isNone, tail, isText, ends⟩ := last
            refine ⟨_, stop isNone, fun final same => ?_, fun wrong => (by cases wrong)⟩
            cases same
            exact ⟨[digits], isText ▸ .last digits tail isGroup ends,
              Fits.cons.mpr ⟨isChunk, Fits.nil.mpr sum.fits⟩, sum.mask⟩
          | inr shape =>
            obtain ⟨more, isMore, isText, _⟩ := shape
            have shorter : more.length < fuel := by
              rw [isText, length_append, length_cons] at enough
              omega
            have positiveDigits : totaldigits + digits.length ≠ 0 := by
              have := length_pos_iff.mpr none
              omega
            obtain ⟨result, parsed, ok, overflow⟩ :=
              ih (ready_comma more positiveDigits) sum shorter
            refine ⟨result, (go more isMore).trans parsed, fun final same => ?_, fun same => ?_⟩
            · obtain ⟨groups, isGroups, fitting, isMask⟩ := ok final same
              exact ⟨digits :: groups, isText ▸ .more digits more groups isGroup isGroups,
                Fits.cons.mpr ⟨isChunk, fitting⟩, isMask⟩
            · obtain ⟨front, back, groups, split, isGroups, unfit⟩ := overflow same
              refine ⟨digits ++ comma :: front, back, digits :: groups, ?_,
                .more digits front groups isGroup isGroups, fun fitting => ?_⟩
              · rw [isText, split, append_assoc, cons_append]
              · exact unfit (Fits.cons.mp fitting).2
        · refine ⟨_, fails _ (holds.addChunk_over small chunk fits),
            fun final wrong => (by cases wrong), fun _ => ?_⟩
          have unfit : ¬ Fits nmaskbits value [digits] := by
            intro fitting
            rw [isValue] at fits
            exact fits (Fits.nil.mp (Fits.cons.mp fitting).2)
          cases shape with
          | inl last =>
            obtain ⟨_, tail, isText, ends⟩ := last
            exact ⟨text, [], [digits], (append_nil text).symm,
              isText ▸ .last digits tail isGroup ends, unfit⟩
          | inr shape =>
            obtain ⟨more, _, isText, _⟩ := shape
            refine ⟨digits ++ [comma], more, [digits], ?_, .last digits [comma] isGroup .comma,
              unfit⟩
            rw [isText, append_assoc]
            rfl

theorem Groups.ready (isGroups : Groups text groups) (start : totaldigits ≠ 0 → isspace c = false) :
    Ready text c totaldigits := by
  have head : ∀ {group tail : List Byte}, IsGroup group → ∀ first rest,
      group ++ tail = first :: rest → isspace first = false := by
    intro group tail isGroup first rest same
    obtain ⟨d, group, rfl⟩ := exists_cons_of_ne_nil isGroup.some_
    obtain rfl := (List.cons.inj same).1
    exact (isxdigit_ne (isGroup.digits d mem_cons_self)).1
  refine ⟨start, fun _ => ?_⟩
  cases isGroups with
  | last group tail isGroup ends | more group rest groups isGroup further => exact head isGroup

theorem Groups.ne_nil (isGroups : Groups text groups) : text ≠ [] := by
  intro none
  cases isGroups with
  | last group tail isGroup ends => exact isGroup.some_ (append_eq_nil_iff.mp none).1
  | more group rest groups isGroup further =>
    exact isGroup.some_ (append_eq_nil_iff.mp none).1

theorem scan_last {group tail : List Byte} (isGroup : IsGroup group) (ends : EndOfText tail)
    (small : hexValue 0 group < 2 ^ 32) : scan 0 (group ++ tail) = .ok (group, none) := by
  rw [scan_group isGroup ends.chunkEnd.2, if_neg (Nat.not_le.mpr small), ends.chunkEnd.1]
  rfl

theorem scan_more {group rest : List Byte} (isGroup : IsGroup group) (some_ : rest ≠ [])
    (small : hexValue 0 group < 2 ^ 32) :
    scan 0 (group ++ comma :: rest) = .ok (group, some rest) := by
  rw [scan_group isGroup (head_of (by decide)), if_neg (Nat.not_le.mpr small), chunkEnd, if_pos rfl,
    if_neg some_]
  rfl

/-- Groups that fit are parsed, and groups that do not are an overflow. -/
theorem Groups.parse (isGroups : Groups text groups) (start : totaldigits ≠ 0 → isspace c = false)
    (holds : Holds nmaskbits value progress) (small : nmaskbits + 31 < 2 ^ 31)
    (positive : 0 < nmaskbits) (enough : text.length < fuel) :
    (Fits nmaskbits value groups →
      ∃ final, parseChunks nmaskbits fuel (text.map some) c totaldigits progress =
        some (.ok final) ∧ maskValue final nmaskbits = groupsValue value groups) ∧
      (nmaskbits + 32 < 2 ^ 31 → ¬ Fits nmaskbits value groups →
        parseChunks nmaskbits fuel (text.map some) c totaldigits progress =
          some (.error .eoverflow)) := by
  induction isGroups generalizing fuel c totaldigits progress value with
  | last group tail isGroup ends =>
    obtain ⟨fuel, rfl⟩ := Nat.exists_eq_add_one_of_ne_zero (Nat.ne_zero_of_lt enough)
    have ready := (Groups.last group tail isGroup ends).ready start
    by_cases isChunk : hexValue 0 group < 2 ^ 32
    · obtain ⟨_, full⟩ := ready.chunk (scan_last isGroup ends isChunk) nmaskbits fuel progress
      obtain ⟨chunk, isValue, fails, adds⟩ := full isGroup.some_
      refine ⟨fun fits => ?_, fun room unfit => ?_⟩
      · obtain ⟨next, added, sum⟩ := holds.addChunk small positive chunk
          (by rw [isValue]; exact Fits.nil.mp (Fits.cons.mp fits).2)
        rw [isValue] at sum
        exact ⟨next.mask, (adds next added).1 rfl, sum.mask⟩
      · refine fails _ (holds.addChunk_over room chunk fun fits => ?_)
        rw [isValue] at fits
        exact unfit (Fits.cons.mpr ⟨isChunk, Fits.nil.mpr fits⟩)
    · refine ⟨fun fits => absurd (Fits.cons.mp fits).1 isChunk, fun _ _ => ready.error ?_ _ _ _⟩
      rw [scan_group isGroup ends.chunkEnd.2, if_pos (Nat.not_lt.mp isChunk)]
  | more group rest groups isGroup further ih =>
    obtain ⟨fuel, rfl⟩ := Nat.exists_eq_add_one_of_ne_zero (Nat.ne_zero_of_lt enough)
    have ready := (Groups.more group rest groups isGroup further).ready start
    by_cases isChunk : hexValue 0 group < 2 ^ 32
    · obtain ⟨_, full⟩ :=
        ready.chunk (scan_more isGroup further.ne_nil isChunk) nmaskbits fuel progress
      obtain ⟨chunk, isValue, fails, adds⟩ := full isGroup.some_
      by_cases fits : value * 2 ^ 32 + chunk.toNat < 2 ^ nmaskbits
      · obtain ⟨next, added, sum⟩ := holds.addChunk small positive chunk fits
        rw [isValue] at sum
        rw [(adds next added).2 rest rfl]
        have shorter : rest.length < fuel := by
          rw [length_append, length_cons] at enough
          omega
        obtain ⟨parses, overflows⟩ := ih (c := comma) (fun _ => by decide) sum shorter
        exact ⟨fun fitting => parses (Fits.cons.mp fitting).2, fun room unfit =>
          overflows room fun fitting => unfit (Fits.cons.mpr ⟨isChunk, fitting⟩)⟩
      · refine ⟨fun fitting => absurd ?_ fits,
          fun room _ => fails _ (holds.addChunk_over room chunk fits)⟩
        rw [isValue]
        exact Nat.lt_of_le_of_lt (le_groupsValue _ _) (Fits.cons.mp fitting).2.whole
    · refine ⟨fun fits => absurd (Fits.cons.mp fits).1 isChunk, fun _ _ => ready.error ?_ _ _ _⟩
      rw [scan_group isGroup (head_of (by decide)), if_pos (Nat.not_lt.mp isChunk)]

theorem nextChunk_skip {lead : List Byte} (blank : ∀ d ∈ lead, isspace d = true) (c : Byte)
    (chunk : Word) (ndigits totaldigits : Nat) :
    ∃ last, ∀ rest : List Byte,
      nextChunk ((lead ++ rest).map some) c chunk ndigits totaldigits =
        nextChunk (rest.map some) last chunk ndigits totaldigits := by
  induction lead generalizing c with
  | nil => exact ⟨c, fun _ => rfl⟩
  | cons d lead ih =>
    obtain ⟨last, skipped⟩ := ih (fun e inside => blank e (mem_cons_of_mem d inside)) d
    refine ⟨last, fun rest => ?_⟩
    rw [cons_append, map_cons, nextChunk, if_pos (blank d mem_cons_self)]
    exact skipped rest

theorem bitmapParse_skip {lead : List Byte} (blank : ∀ d ∈ lead, isspace d = true)
    (rest : List Byte) (mask : Mask) (small : nmaskbits + 31 < 2 ^ 31) (positive : 0 < nmaskbits) :
    ∃ last progress, Holds nmaskbits 0 progress ∧
      bitmapParse ((lead ++ rest).map some) mask nmaskbits =
        parseChunks nmaskbits ((lead ++ rest).length + 1) (rest.map some) last 0 progress := by
  obtain ⟨last, skipped⟩ := nextChunk_skip blank 0 0 0 0
  obtain ⟨zeroed, cleared, value⟩ := maskValue_bitmapZero small mask positive
  refine ⟨last, ⟨0, 0, zeroed⟩, ⟨value, ⟨0, rfl, ?_⟩, ?_, Nat.two_pow_pos nmaskbits⟩, ?_⟩
  · exact ⟨Nat.one_pos, fun _ wrong => absurd wrong.symm (Nat.succ_ne_zero _)⟩
  · exact ⟨fun _ => rfl, fun _ => rfl⟩
  · rw [bitmapParse, cleared, Option.bind_some, parseChunks, skipped rest, length_map,
      parseChunks]

theorem no_digits {c : Byte} : (0 : Nat) ≠ 0 → isspace c = false := absurd rfl

/-- A text of groups that fit gives their number; if they do not, it is an overflow. -/
theorem Reads.parse (reads : Reads text groups) (mask : Mask) (small : nmaskbits + 31 < 2 ^ 31)
    (positive : 0 < nmaskbits) :
    (Fits nmaskbits 0 groups → ∃ final, bitmapParse (text.map some) mask nmaskbits =
      some (.ok final) ∧ maskValue final nmaskbits = groupsValue 0 groups) ∧
      (nmaskbits + 32 < 2 ^ 31 → ¬ Fits nmaskbits 0 groups →
        bitmapParse (text.map some) mask nmaskbits = some (.error .eoverflow)) := by
  obtain ⟨lead, rest, blank, rfl, isGroups⟩ := reads
  obtain ⟨last, progress, holds, skipped⟩ := bitmapParse_skip blank rest mask small positive
  rw [skipped]
  apply isGroups.parse no_digits holds small positive
  rw [length_append]
  omega

theorem bitmapParse_outcome (text : List Byte) (mask : Mask) (small : nmaskbits + 32 < 2 ^ 31)
    (positive : 0 < nmaskbits) :
    ∃ result, bitmapParse (text.map some) mask nmaskbits = some result ∧
      (∀ final, result = .ok final → ∃ groups, Reads text groups ∧ Fits nmaskbits 0 groups ∧
        maskValue final nmaskbits = groupsValue 0 groups) ∧
      (result = .error .eoverflow → ∃ front back groups, text = front ++ back ∧
        Reads front groups ∧ ¬ Fits nmaskbits 0 groups) := by
  have parts := takeWhile_append_dropWhile (p := isspace) (l := text)
  have blank : ∀ d ∈ text.takeWhile isspace, isspace d = true :=
    fun _ => mem_takeWhile_imp
  obtain ⟨last, progress, holds, skipped⟩ :=
    bitmapParse_skip blank (text.dropWhile isspace) mask (by omega) positive
  rw [parts] at skipped
  have ready : Ready (text.dropWhile isspace) last 0 := by
    refine ⟨no_digits, fun _ first rest same => ?_⟩
    have stop := head_dropWhile_not isspace (l := text)
      (by rw [same]; exact cons_ne_nil first rest)
    simp only [same, head_cons] at stop
    exact stop
  have shorter : (text.dropWhile isspace).length < text.length + 1 :=
    Nat.lt_succ_of_le (dropWhile_sublist isspace).length_le
  obtain ⟨result, parsed, ok, overflow⟩ :=
    ready.outcome holds small positive shorter
  refine ⟨result, skipped.trans parsed, fun final same => ?_, fun same => ?_⟩
  · obtain ⟨groups, isGroups, facts⟩ := ok final same
    exact ⟨groups, ⟨_, _, blank, parts.symm, isGroups⟩, facts⟩
  · obtain ⟨front, back, groups, split, isGroups, unfit⟩ := overflow same
    refine ⟨text.takeWhile isspace ++ front, back, groups, ?_, ⟨_, front, blank, rfl, isGroups⟩,
      unfit⟩
    rw [append_assoc, ← split, parts]

end Parse

end MagxKernel.Bitmap
