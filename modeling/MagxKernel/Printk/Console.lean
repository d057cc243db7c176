import MagxKernel.Lib.Runs
import MagxKernel.Printk.Log

namespace MagxKernel.Printk

open List

/-- The lines of a text, each with its newline; the last may have none. -/
def splitLines : List Byte → List (List Byte)
  | [] => []
  | c :: rest =>
      if c = newline then [c] :: splitLines rest
      else
        match splitLines rest with
        | [] => [[c]]
        | line :: lines => (c :: line) :: lines

/-- The line starts with a level tag. -/
def Tagged (line : List Byte) : Prop :=
  ∃ level rest, line = '<'.toNat :: level :: '>'.toNat :: rest ∧
    '0'.toNat ≤ level ∧ level ≤ '7'.toNat

theorem exists_three {line : List Byte} (long : 2 < line.length) :
    ∃ first second third rest, line = first :: second :: third :: rest := by
  rcases line with _ | ⟨first, _ | ⟨second, _ | ⟨third, rest⟩⟩⟩
  · simp at long
  · simp at long
  · simp at long
  · exact ⟨first, second, third, rest, rfl⟩

theorem tagged_iff (line : List Byte) :
    (2 < line.length ∧ line.head? = some '<'.toNat ∧ line.tail.tail.head? = some '>'.toNat ∧
      ∀ level ∈ line.tail.head?, '0'.toNat ≤ level ∧ level ≤ '7'.toNat) ↔ Tagged line := by
  constructor
  · rintro ⟨long, first, third, digit⟩
    obtain ⟨a, b, c, rest, rfl⟩ := exists_three long
    simp only [head?_cons, Option.some.injEq] at first
    simp only [tail_cons, head?_cons, Option.some.injEq] at third
    exact ⟨b, rest, by rw [first, third], digit b rfl⟩
  · rintro ⟨level, rest, rfl, digit⟩
    refine ⟨by simp, rfl, rfl, fun other inside => ?_⟩
    rw [← Option.some.inj (Option.mem_def.mp inside)]
    exact digit

instance (line : List Byte) : Decidable (Tagged line) := decidable_of_iff _ (tagged_iff line)

/-- The level of a line, if the level so far is unknown and the line has a tag. -/
def lineLevel (level : Int) (line : List Byte) : Int :=
  if level < 0 ∧ Tagged line then (line.getD 1 0 : Int) - '0'.toNat else level

/-- The line without its tag. -/
def lineBody (level : Int) (line : List Byte) : List Byte :=
  if level < 0 ∧ Tagged line then line.drop 3 else line

def Ended (line : List Byte) : Prop := line.getLast? = some newline

instance (line : List Byte) : Decidable (Ended line) :=
  inferInstanceAs (Decidable (line.getLast? = some newline))

/-- What the console shows of a line that begins with the level known so far. A full
line without any level gets the default; an unfinished one is shown. -/
def shownLine (levels : ConsolePrintk) (level : Int) (line : List Byte) : List Byte :=
  let known := lineLevel level line
  let final := if known < 0 ∧ Ended line then levels.defaultMessageLoglevel else known
  if final < levels.consoleLoglevel then lineBody level line else []

/-- The text for the console: tags at line starts removed, lines whose level is not
below `console_loglevel` left out. -/
def consoleText (levels : ConsolePrintk) : Int → List (List Byte) → List Byte
  | _, [] => []
  | level, line :: lines => shownLine levels level line ++ consoleText levels (-1) lines

/-- The level with which the next text begins. -/
def levelAfter : Int → List (List Byte) → Int
  | level, [] => level
  | level, line :: lines =>
      if Ended line then levelAfter (-1) lines else lineLevel level line

/-- The text up to and with the first newline, and the rest. -/
def breakLine : List Byte → List Byte × List Byte
  | [] => ([], [])
  | c :: rest =>
      if c = newline then ([c], rest) else (c :: (breakLine rest).1, (breakLine rest).2)

variable (text : List Byte)

theorem breakLine_append : (breakLine text).1 ++ (breakLine text).2 = text := by
  induction text with
  | nil => rfl
  | cons c rest ih =>
    unfold breakLine
    split
    · rfl
    · rw [cons_append, ih]

variable {c : Byte}

theorem breakLine_cons (plain : c ≠ newline) (rest : List Byte) :
    breakLine (c :: rest) = (c :: (breakLine rest).1, (breakLine rest).2) := by
  rw [breakLine, if_neg plain]

theorem ended_cons (plain : c ≠ newline) (line : List Byte) : Ended (c :: line) ↔ Ended line := by
  unfold Ended
  cases line with
  | nil => simp [plain]
  | cons d rest => rw [getLast?_cons_cons]

/-- Only a line without a newline is at the end of the text. -/
theorem breakLine_rest (open_ : ¬ Ended (breakLine text).1) :
    (breakLine text).1 = text ∧ (breakLine text).2 = [] := by
  induction text with
  | nil => exact ⟨rfl, rfl⟩
  | cons c rest ih =>
    by_cases here : c = newline
    · exact absurd (by rw [here]; rfl) open_
    · rw [breakLine_cons here] at open_ ⊢
      rw [ended_cons here] at open_
      obtain ⟨whole, none⟩ := ih open_
      exact ⟨by rw [whole], none⟩

theorem splitLines_break (some_ : text ≠ []) :
    splitLines text = (breakLine text).1 :: splitLines (breakLine text).2 := by
  induction text with
  | nil => exact absurd rfl some_
  | cons c rest ih =>
    by_cases here : c = newline
    · rw [splitLines, if_pos here, breakLine, if_pos here]
    · rw [splitLines, if_neg here, breakLine_cons here]
      cases rest with
      | nil => rfl
      | cons d rest => rw [ih (cons_ne_nil d rest)]

theorem breakLine_ne_nil {text : List Byte} (some_ : text ≠ []) : (breakLine text).1 ≠ [] := by
  cases text with
  | nil => exact absurd rfl some_
  | cons c rest =>
    unfold breakLine
    split <;> exact cons_ne_nil _ _

theorem digit_ne_newline {level : Byte} (low : '0'.toNat ≤ level) : level ≠ newline := by
  intro same
  rw [same] at low
  exact absurd low (by decide)

theorem breakLine_tag {level : Byte} (low : '0'.toNat ≤ level) (rest : List Byte) :
    breakLine ('<'.toNat :: level :: '>'.toNat :: rest) =
      ('<'.toNat :: level :: '>'.toNat :: (breakLine rest).1, (breakLine rest).2) := by
  rw [breakLine_cons (by decide), breakLine_cons (digit_ne_newline low), breakLine_cons (by decide)]

theorem tagged_break : Tagged (breakLine text).1 ↔ Tagged text := by
  constructor
  · rintro ⟨level, rest, line, digit⟩
    refine ⟨level, rest ++ (breakLine text).2, ?_, digit⟩
    have whole := breakLine_append text
    rw [line] at whole
    exact whole.symm
  · rintro ⟨level, rest, rfl, digit⟩
    rw [breakLine_tag digit.1]
    exact ⟨level, _, rfl, digit⟩

variable {fuel : Nat}

section Spans

/-- The index `cur` is that of the text `rest`, which ends at `stop`. -/
structure Spans (log : Log) (cur stop : Nat) (rest : List Byte) : Prop where
  index : cur < 2 ^ 32
  text : rest = log.text cur rest.length
  ends : stop = u32 (cur + rest.length)
  short : rest.length ≤ log.logBufLen

variable {log : Log} {cur stop : Nat} {rest : List Byte}

theorem logBufLen_pos (log : Log) : 0 < log.logBufLen := Nat.two_pow_pos _

theorem logBufLen_le (log : Log) : log.logBufLen ≤ 2 ^ 30 :=
  Nat.pow_le_pow_right (by decide) (by have := log.logBufShift.isLt; omega)

theorem u32_mod (log : Log) (index : Nat) : u32 index % log.logBufLen = index % log.logBufLen := by
  apply Nat.mod_mod_of_dvd
  exact Nat.pow_dvd_pow 2 (by have := log.logBufShift.isLt; omega)

theorem text_u32 (log : Log) (index count : Nat) :
    log.text (u32 index) count = log.text index count :=
  RingCells.window_start (u32_mod log index)

theorem text_split (log : Log) (start : Nat) {count total : Nat} (within : count ≤ total) :
    log.text start total = log.text start count ++ log.text (start + count) (total - count) := by
  have split := RingCells.window_add log.logBuf log.logBufLen start count (total - count)
  rwa [Nat.add_sub_cancel' within] at split

section

variable (spans : Spans log cur stop rest)

include spans

theorem Spans.small : rest.length ≤ 2 ^ 30 :=
  spans.short.trans (logBufLen_le log)

theorem Spans.eq_iff : cur = stop ↔ rest = [] := by
  have := spans.index
  have := spans.small
  rw [spans.ends, u32, ← length_eq_zero_iff]
  omega

theorem Spans.sub : sub32 stop cur = rest.length := by
  have := spans.index
  have := spans.small
  rw [spans.ends, u32, sub32]
  omega

theorem Spans.drop {count : Nat} (within : count ≤ rest.length) :
    Spans log (u32 (cur + count)) stop (rest.drop count) where
  index := Nat.mod_lt _ (by decide)
  text := by
    have whole := spans.text.trans (text_split log cur within)
    rw [text_u32, length_drop]
    conv_lhs => rw [whole]
    exact drop_left' (RingCells.window_length)
  ends := by
    rw [spans.ends, length_drop]
    unfold u32
    omega
  short := by
    rw [length_drop]
    exact (Nat.sub_le _ _).trans spans.short

theorem Spans.take {count : Nat} (within : count ≤ rest.length) :
    rest.take count = log.text cur count := by
  conv_lhs => rw [spans.text, text_split log cur within]
  exact take_left' (RingCells.window_length)

theorem Spans.get (index : Nat) (within : index < rest.length) :
    rest[index]? = some (log.at_ (cur + index)) := by
  conv_lhs => rw [spans.text]
  unfold Log.text Log.at_ RingCells.window
  rw [getElem?_map, getElem?_range within]
  rfl

end

theorem Spans.head (spans : Spans log cur stop (c :: rest)) : log.at_ cur = c := by
  exact (Option.some.inj (spans.get 0 (by simp))).symm

theorem Spans.tail (spans : Spans log cur stop (c :: rest)) : Spans log (u32 (cur + 1)) stop rest :=
  @Spans.drop log cur stop (c :: rest) spans 1 (by simp)

theorem Spans.three {a b c : Byte} (spans : Spans log cur stop (a :: b :: c :: rest)) :
    log.at_ cur = a ∧ log.at_ (cur + 1) = b ∧ log.at_ (cur + 2) = c :=
  ⟨(Option.some.inj (spans.get 0 (by simp))).symm, (Option.some.inj (spans.get 1 (by simp))).symm,
    (Option.some.inj (spans.get 2 (by simp))).symm⟩

theorem Spans.tagAt_iff (spans : Spans log cur stop rest) :
    log.tagAt cur stop = true ↔ Tagged rest := by
  unfold Log.tagAt
  rw [decide_eq_true_iff, spans.sub]
  constructor
  · rintro ⟨long, first, low, high, third⟩
    obtain ⟨a, b, c, tail, rfl⟩ := exists_three long
    obtain ⟨one, two, three⟩ := spans.three
    rw [one] at first
    rw [two] at low high
    rw [three] at third
    exact ⟨b, tail, by rw [first, third], low, high⟩
  · rintro ⟨level, rest, rfl, low, high⟩
    obtain ⟨one, two, three⟩ := spans.three
    rw [one, two, three]
    exact ⟨by simp, rfl, low, high, rfl⟩

/-- The inner loop stops behind the first line. -/
theorem Spans.lineEnd (spans : Spans log cur stop rest) (enough : rest.length < fuel) :
    log.lineEnd stop fuel cur =
      some (u32 (cur + (breakLine rest).1.length), decide (Ended (breakLine rest).1)) := by
  induction rest generalizing cur fuel with
  | nil =>
    obtain ⟨fuel, rfl⟩ := Nat.exists_eq_add_one_of_ne_zero (Nat.ne_of_gt enough)
    rw [Log.lineEnd, if_pos (spans.eq_iff.mpr rfl)]
    have same : u32 (cur + 0) = cur := Nat.mod_eq_of_lt spans.index
    rw [show (breakLine []).1.length = 0 from rfl, same]
    rfl
  | cons c rest ih =>
    obtain ⟨fuel, rfl⟩ := Nat.exists_eq_add_one_of_ne_zero (Nat.ne_zero_of_lt enough)
    have going : cur ≠ stop := fun same => cons_ne_nil c rest (spans.eq_iff.mp same)
    rw [Log.lineEnd, if_neg going, spans.head]
    split
    · rename_i here
      rw [breakLine, if_pos here]
      have ended : Ended [c] := by rw [here]; rfl
      simp [ended]
    · rename_i here
      rw [breakLine_cons here, ih spans.tail (by simpa using enough)]
      have index : u32 (u32 (cur + 1) + (breakLine rest).1.length) =
          u32 (cur + (c :: (breakLine rest).1).length) := by
        rw [length_cons]
        unfold u32
        omega
      simp only [index, ended_cons here]

end Spans

section Ranges

variable {log : Log} {levels : ConsolePrintk} {level : Int}

/-- The characters a console driver reads for a write. -/
def Log.written (log : Log) (write : Log.Write) : List Byte :=
  (List.range write.2).map fun n => log.logBuf (write.1 + n)

/-- Every write stays inside `log_buf`, and together they give the text. -/
def Log.Shows (log : Log) (writes : List Log.Write) (text : List Byte) : Prop :=
  (∀ write ∈ writes, write.1 + write.2 ≤ log.logBufLen) ∧ writes.flatMap log.written = text

theorem Log.Shows.append {first second : List Log.Write} {text more : List Byte}
    (left : log.Shows first text) (right : log.Shows second more) :
    log.Shows (first ++ second) (text ++ more) :=
  ⟨forall_mem_append.mpr ⟨left.1, right.1⟩, by rw [flatMap_append, left.2, right.2]⟩

theorem Log.Shows.nil : log.Shows [] [] :=
  ⟨forall_mem_nil _, rfl⟩

section

variable {start count : Nat}

theorem mod_add_low (low : start % log.logBufLen + count < log.logBufLen) :
    (start + count) % log.logBufLen = start % log.logBufLen + count := by
  rw [Nat.add_mod, Nat.mod_eq_of_lt (show count < log.logBufLen by omega)]
  exact Nat.mod_eq_of_lt low

theorem mod_add_high (high : log.logBufLen ≤ start % log.logBufLen + count)
    (fits : count ≤ log.logBufLen) :
    (start + count) % log.logBufLen = start % log.logBufLen + count - log.logBufLen := by
  have below := Nat.mod_lt start (logBufLen_pos log)
  have split := Nat.div_add_mod start log.logBufLen
  have whole : start + count = log.logBufLen * (start / log.logBufLen + 1) +
      (start % log.logBufLen + count - log.logBufLen) := by
    rw [Nat.mul_add]
    omega
  rw [whole, Nat.mul_add_mod]
  exact Nat.mod_eq_of_lt (by omega)

theorem text_written (inside : start % log.logBufLen + count ≤ log.logBufLen) :
    log.text start count = log.written (start % log.logBufLen, count) := by
  apply map_congr_left
  intro n member
  have : n < count := mem_range.mp member
  congr 1
  exact mod_add_low (by omega)

theorem Log.Shows.one (inside : start % log.logBufLen + count ≤ log.logBufLen) :
    log.Shows [(start % log.logBufLen, count)] (log.text start count) := by
  refine ⟨fun write here => ?_, ?_⟩
  · rw [mem_singleton.mp here]
    exact inside
  · rw [text_written inside]
    exact append_nil _

/-- The two halves of a range that runs over the end of the buffer. -/
theorem Log.Shows.wrapped (first : log.logBufLen - start % log.logBufLen ≤ count)
    (fits : count ≤ log.logBufLen) :
    log.Shows [(start % log.logBufLen, log.logBufLen - start % log.logBufLen),
      (0, count - (log.logBufLen - start % log.logBufLen))] (log.text start count) := by
  have below := Nat.mod_lt start (logBufLen_pos log)
  have top : (start + (log.logBufLen - start % log.logBufLen)) % log.logBufLen = 0 := by
    rw [mod_add_high (by omega) (by omega)]
    omega
  have low : log.Shows [(start % log.logBufLen, log.logBufLen - start % log.logBufLen)]
      (log.text start (log.logBufLen - start % log.logBufLen)) := Log.Shows.one (by omega)
  have high : log.Shows [(0, count - (log.logBufLen - start % log.logBufLen))]
      (log.text (start + (log.logBufLen - start % log.logBufLen))
        (count - (log.logBufLen - start % log.logBufLen))) := by
    have one := @Log.Shows.one log (start + (log.logBufLen - start % log.logBufLen))
      (count - (log.logBufLen - start % log.logBufLen)) (by rw [top]; omega)
    rwa [top] at one
  rw [text_split log start first]
  exact low.append high

/-- The writes for a range are right unless it is as long as the ring and starts
inside it. -/
theorem callRange_shows (index : start < 2 ^ 32) (fits : count ≤ log.logBufLen)
    (loud : level < levels.consoleLoglevel)
    (fine : count < log.logBufLen ∨ start % log.logBufLen = 0) :
    log.Shows (log.callRange levels start (u32 (start + count)) level)
      (log.text start count) := by
  have below := Nat.mod_lt start (logBufLen_pos log)
  have small := logBufLen_le log
  by_cases none : count = 0
  · have same : start = u32 (start + count) := by
      rw [none]
      exact (Nat.mod_eq_of_lt index).symm
    rw [Log.callRange, if_neg (fun both => both.2 same), none]
    exact Log.Shows.nil
  · have differs : start ≠ u32 (start + count) := by
      unfold u32
      omega
    have length : sub32 (u32 (start + count)) start = count := by
      unfold sub32 u32
      omega
    rw [Log.callRange, if_pos ⟨loud, differs⟩, u32_mod, length]
    by_cases low : start % log.logBufLen + count < log.logBufLen
    · rw [mod_add_low low, if_neg (by omega)]
      exact Log.Shows.one (by omega)
    · rw [mod_add_high (by omega) fits]
      by_cases top : start % log.logBufLen = 0
      · rw [if_neg (by omega)]
        exact Log.Shows.one (by omega)
      · rw [if_pos (by omega)]
        have wrapped := @Log.Shows.wrapped log start count (by omega) fits
        have second : count - (log.logBufLen - start % log.logBufLen) =
            start % log.logBufLen + count - log.logBufLen := by omega
        rwa [second] at wrapped

end

/-- A range as long as the ring that starts inside it is written as one piece. -/
theorem callRange_whole {start : Nat} (index : start < 2 ^ 32)
    (loud : level < levels.consoleLoglevel) :
    log.callRange levels start (u32 (start + log.logBufLen)) level =
      [(start % log.logBufLen, log.logBufLen)] := by
  have small := logBufLen_le log
  have positive := logBufLen_pos log
  have differs : start ≠ u32 (start + log.logBufLen) := by
    unfold u32
    omega
  have length : sub32 (u32 (start + log.logBufLen)) start = log.logBufLen := by
    unfold sub32 u32
    omega
  rw [Log.callRange, if_pos ⟨loud, differs⟩, u32_mod, length, Nat.add_mod_right,
    if_neg (Nat.lt_irrefl _)]

end Ranges

section Lines

variable {log : Log} {levels : ConsolePrintk} {level : Int} {cur stop : Nat}
  {rest : List Byte}

/-- Where the printed part of the first line starts. -/
def bodyStart (level : Int) (cur : Nat) (rest : List Byte) : Nat :=
  if level < 0 ∧ Tagged rest then u32 (cur + 3) else cur

/-- The level with which the first line is compared. -/
def finalLevel (levels : ConsolePrintk) (level : Int) (line : List Byte) : Int :=
  if lineLevel level line < 0 ∧ Ended line then levels.defaultMessageLoglevel
  else lineLevel level line

theorem shownLine_eq (line : List Byte) :
    shownLine levels level line =
      if finalLevel levels level line < levels.consoleLoglevel then lineBody level line
      else [] := rfl

theorem lineBody_length_le (level : Int) (line : List Byte) :
    (lineBody level line).length ≤ line.length := by
  unfold lineBody
  split
  · rw [length_drop]
    exact Nat.sub_le _ _
  · exact Nat.le_refl _

theorem breakLine_length_le (text : List Byte) : (breakLine text).1.length ≤ text.length := by
  have whole := congrArg List.length (breakLine_append text)
  rw [length_append] at whole
  omega

theorem breakLine_rest_lt {text : List Byte} (some_ : text ≠ []) :
    (breakLine text).2.length < text.length := by
  have whole := congrArg List.length (breakLine_append text)
  have := length_pos_iff.mpr (breakLine_ne_nil some_)
  rw [length_append] at whole
  omega

section

variable (spans : Spans log cur stop rest)

include spans

/-- The printed part of the first line, as a range of the ring. -/
theorem Spans.body (level : Int) :
    let line := (breakLine rest).1
    let start := bodyStart level cur rest
    start < 2 ^ 32 ∧ lineBody level line = log.text start (lineBody level line).length ∧
      u32 (cur + line.length) = u32 (start + (lineBody level line).length) := by
  intro line start
  have within : line.length ≤ rest.length := breakLine_length_le rest
  have prefix_ : rest.take line.length = line := by
    have whole := breakLine_append rest
    rw [show rest = line ++ (breakLine rest).2 from whole.symm]
    exact take_left
  have tagged := tagged_break rest
  by_cases tag : level < 0 ∧ Tagged rest
  · have isStart : start = u32 (cur + 3) := if_pos tag
    have isBody : lineBody level line = line.drop 3 := if_pos ⟨tag.1, tagged.mpr tag.2⟩
    obtain ⟨_, _, whole, _⟩ := tagged.mpr tag.2
    have long : 3 ≤ line.length := by
      rw [show line = _ from whole]
      simp
    have dropped := spans.drop (show 3 ≤ rest.length by omega)
    rw [isStart, isBody, length_drop]
    refine ⟨Nat.mod_lt _ (by decide), ?_, ?_⟩
    · have inside : line.length - 3 ≤ (rest.drop 3).length := by
        rw [length_drop]
        omega
      rw [← dropped.take inside, ← drop_take, prefix_]
    · unfold u32
      omega
  · have isStart : start = cur := if_neg tag
    have isBody : lineBody level line = line := by
      apply if_neg
      rwa [tagged]
    rw [isStart, isBody]
    exact ⟨spans.index, by rw [← spans.take within, prefix_], rfl⟩

/-- What the outer loop finds out about the first line: its level, where its printed part
starts and where it ends. -/
theorem Spans.firstLine (level : Int) (enough : rest.length < fuel) :
    let line := (breakLine rest).1
    let seen := level < 0 ∧ log.tagAt cur stop = true
    (if seen then (log.at_ (cur + 1) : Int) - '0'.toNat else level) = lineLevel level line ∧
      (if seen then u32 (cur + 3) else cur) = bodyStart level cur rest ∧
      log.lineEnd stop fuel (bodyStart level cur rest) =
        some (u32 (cur + line.length), decide (Ended line)) := by
  intro line seen
  have tagged := tagged_break rest
  have sees : seen ↔ level < 0 ∧ Tagged rest := by
    rw [← spans.tagAt_iff]
  by_cases tag : level < 0 ∧ Tagged rest
  · rw [if_pos (sees.mpr tag), if_pos (sees.mpr tag), bodyStart, if_pos tag]
    obtain ⟨digit, body, rfl, low, high⟩ := tag.2
    have dropped : Spans log (u32 (cur + 3)) stop body :=
      @Spans.drop log cur stop _ spans 3 (by simp)
    refine ⟨?_, rfl, ?_⟩
    · rw [lineLevel, if_pos ⟨tag.1, tagged.mpr tag.2⟩, spans.three.2.1]
      simp only [line, breakLine_tag low]
      rfl
    · rw [dropped.lineEnd (by simp only [length_cons] at enough; omega)]
      simp only [line, breakLine_tag low, ended_cons (by decide : '<'.toNat ≠ newline),
        ended_cons (digit_ne_newline low), ended_cons (by decide : '>'.toNat ≠ newline),
        length_cons]
      congr 2
      unfold u32
      omega
  · have unseen := fun seen => tag (sees.mp seen)
    have tagLine : ¬ (level < 0 ∧ Tagged (breakLine rest).1) := by rwa [tagged]
    rw [if_neg unseen, if_neg unseen, bodyStart, if_neg tag]
    exact ⟨(if_neg tagLine).symm, rfl, spans.lineEnd enough⟩

/-- One turn of the outer loop, which handles one line. -/
theorem Spans.driveLines (some_ : rest ≠ []) (enough : rest.length < fuel) :
    log.driveLines levels stop (fuel + 1) cur cur level =
      let line := (breakLine rest).1
      let next := u32 (cur + line.length)
      let writes := log.callRange levels (bodyStart level cur rest) next
        (finalLevel levels level line)
      if Ended line then
        (log.driveLines levels stop fuel next next (-1)).map fun more =>
          (writes ++ more.1, more.2)
      else some (writes, lineLevel level line) := by
  have going : cur ≠ stop := fun same => some_ (spans.eq_iff.mp same)
  obtain ⟨fuel, rfl⟩ := Nat.exists_eq_add_one_of_ne_zero (Nat.ne_zero_of_lt enough)
  obtain ⟨known, start, inner⟩ := spans.firstLine level (show rest.length < fuel + 1 + 1 by omega)
  rw [Log.driveLines, if_neg going]
  dsimp only
  rw [known, start, inner, Option.bind_some]
  unfold finalLevel
  by_cases ended : Ended (breakLine rest).1
  · simp [ended]
  · have last : u32 (cur + (breakLine rest).1.length) = stop := by
      rw [(breakLine_rest rest ended).1]
      exact spans.ends.symm
    rw [decide_eq_false ended, if_neg Bool.noConfusion, if_neg ended, if_neg (ended ·.2), last,
      Log.driveLines, if_pos rfl]

/-- The writes of one line show it, unless it is as long as the ring. -/
theorem Spans.shows_line (levels : ConsolePrintk) (level : Int)
    (fine : finalLevel levels level (breakLine rest).1 < levels.consoleLoglevel →
      (lineBody level (breakLine rest).1).length < log.logBufLen ∨
        bodyStart level cur rest % log.logBufLen = 0) :
    log.Shows (log.callRange levels (bodyStart level cur rest)
        (u32 (cur + (breakLine rest).1.length)) (finalLevel levels level (breakLine rest).1))
      (shownLine levels level (breakLine rest).1) := by
  obtain ⟨index, text, next⟩ := spans.body level
  have shorter : (lineBody level (breakLine rest).1).length ≤ log.logBufLen :=
    ((lineBody_length_le level _).trans (breakLine_length_le rest)).trans spans.short
  rw [shownLine_eq]
  split
  · rename_i loud
    rw [next, text]
    exact text ▸ callRange_shows index shorter loud (fine loud)
  · rename_i quiet
    rw [Log.callRange, if_neg fun both => quiet both.1]
    exact Log.Shows.nil

theorem Spans.next : Spans log (u32 (cur + (breakLine rest).1.length)) stop (breakLine rest).2 := by
  have whole := breakLine_append rest
  have dropped := spans.drop (breakLine_length_le rest)
  have tail : rest.drop (breakLine rest).1.length = (breakLine rest).2 := by
    generalize breakLine rest = parts at whole
    rw [← whole]
    exact drop_left
  rwa [tail] at dropped

/-- The walk over the lines of a text shows them. -/
def Log.DrivesLines (log : Log) (levels : ConsolePrintk) (level : Int) (stop fuel cur : Nat)
    (rest : List Byte) : Prop :=
  ∃ writes, log.driveLines levels stop fuel cur cur level =
      some (writes, levelAfter level (splitLines rest)) ∧
    log.Shows writes (consoleText levels level (splitLines rest))

/-- A line and what follows it. -/
theorem Spans.shows_lines (some_ : rest ≠ []) (enough : rest.length < fuel)
    (fine : finalLevel levels level (breakLine rest).1 < levels.consoleLoglevel →
      (lineBody level (breakLine rest).1).length < log.logBufLen ∨
        bodyStart level cur rest % log.logBufLen = 0)
    (later : log.DrivesLines levels (-1) stop fuel (u32 (cur + (breakLine rest).1.length))
      (breakLine rest).2) :
    log.DrivesLines levels level stop (fuel + 1) cur rest := by
  have line := spans.shows_line levels level fine
  unfold Log.DrivesLines
  rw [spans.driveLines some_ enough, splitLines_break rest some_]
  by_cases ended : Ended (breakLine rest).1
  · obtain ⟨more, driven, shown⟩ := later
    rw [if_pos ended, driven]
    refine ⟨_, ?_, line.append shown⟩
    rw [Option.map_some, levelAfter, if_pos ended]
  · rw [if_neg ended, levelAfter, if_neg ended, (breakLine_rest rest ended).2]
    refine ⟨_, rfl, ?_⟩
    simpa [splitLines, consoleText] using line

/-- `call_console_drivers` shows a text shorter than the ring, whatever its lines. -/
theorem Spans.shows_short (levels : ConsolePrintk) (level : Int)
    (enough : rest.length + 1 < fuel) (short : rest.length < log.logBufLen) :
    log.DrivesLines levels level stop fuel cur rest := by
  induction size : rest.length using Nat.strongRecOn generalizing rest cur fuel level with
  | ind total ih =>
    obtain ⟨fuel, rfl⟩ := Nat.exists_eq_add_one_of_ne_zero (Nat.ne_zero_of_lt enough)
    by_cases none : rest = []
    · subst none
      have same := spans.eq_iff.mpr rfl
      refine ⟨[], ?_, Log.Shows.nil⟩
      rw [Log.driveLines, if_pos same, Log.callRange, if_neg (fun both => both.2 same)]
      rfl
    · have shorter := breakLine_rest_lt none
      have body : (lineBody level (breakLine rest).1).length < log.logBufLen :=
        Nat.lt_of_le_of_lt ((lineBody_length_le level _).trans (breakLine_length_le rest)) short
      exact spans.shows_lines none (by omega) (fun _ => .inl body)
        (ih (breakLine rest).2.length (by omega) spans.next (-1) (by omega) (by omega) rfl)

end

/-- The pending text is one line as long as the ring, shown in full, and starts inside
the ring. -/
structure Overlong (log : Log) (levels : ConsolePrintk) : Prop where
  full : log.pending = log.logBufLen
  inside : log.conStart % log.logBufLen ≠ 0
  oneLine : splitLines (log.text log.conStart log.pending) = [log.text log.conStart log.pending]
  shown : shownLine levels log.msgLevel (log.text log.conStart log.pending) =
    log.text log.conStart log.pending

section

variable (spans : Spans log cur stop rest) {fuel : Nat} (enough : rest.length + 1 < fuel)
  (full : rest.length = log.logBufLen)

include spans enough full

/-- A text as long as the ring is shown unless it is one overlong line. -/
theorem Spans.shows_full
    (fine : cur % log.logBufLen = 0 ∨
      ¬ (splitLines rest = [rest] ∧ shownLine levels level rest = rest)) :
    log.DrivesLines levels level stop fuel cur rest := by
  obtain ⟨fuel, rfl⟩ := Nat.exists_eq_add_one_of_ne_zero (Nat.ne_zero_of_lt enough)
  have positive := logBufLen_pos log
  have some_ : rest ≠ [] := ne_nil_of_length_pos (by omega)
  have shorter := breakLine_rest_lt some_
  refine spans.shows_lines some_ (by omega) (fun loud => ?_)
    (spans.next.shows_short _ _ (by omega) (by omega))
  have bodyLe := lineBody_length_le level (breakLine rest).1
  by_cases body : (lineBody level (breakLine rest).1).length < log.logBufLen
  · exact .inl body
  · right
    -- the first line is the whole text, and it has no tag
    have whole := breakLine_append rest
    have noRest : (breakLine rest).2 = [] := by
      have lengths := congrArg List.length whole
      rw [length_append] at lengths
      exact length_eq_zero_iff.mp (by omega)
    have isLine : (breakLine rest).1 = rest := by
      rw [noRest, append_nil] at whole
      exact whole
    rw [isLine] at body loud
    have untagged : ¬ (level < 0 ∧ Tagged rest) := by
      intro tag
      apply body
      rw [lineBody, if_pos tag, length_drop]
      omega
    have start : bodyStart level cur rest = cur := if_neg untagged
    rw [start]
    refine fine.resolve_right fun not => not ⟨?_, ?_⟩
    · rw [splitLines_break rest some_, noRest, isLine]
      rfl
    · rw [shownLine_eq, if_pos loud, lineBody, if_neg untagged]

/-- An overlong line is written past the end of `log_buf`. -/
theorem Spans.overruns (oneLine : splitLines rest = [rest])
    (shown : shownLine levels level rest = rest) :
    ∃ writes, log.driveLines levels stop fuel cur cur level =
      some (writes, levelAfter level (splitLines rest)) ∧
        (cur % log.logBufLen, log.logBufLen) ∈ writes := by
  obtain ⟨fuel, rfl⟩ := Nat.exists_eq_add_one_of_ne_zero (Nat.ne_zero_of_lt enough)
  have positive := logBufLen_pos log
  have some_ : rest ≠ [] := ne_nil_of_length_pos (by omega)
  have parts := splitLines_break rest some_
  rw [oneLine] at parts
  have isLine : (breakLine rest).1 = rest := (List.cons.inj parts).1.symm
  have loud : finalLevel levels level rest < levels.consoleLoglevel := by
    by_contra quiet
    rw [shownLine_eq, if_neg quiet] at shown
    exact some_ shown.symm
  have untagged : ¬ (level < 0 ∧ Tagged rest) := by
    intro tag
    rw [shownLine_eq, if_pos loud, lineBody, if_pos tag] at shown
    have lengths := congrArg List.length shown
    rw [length_drop] at lengths
    omega
  have start : bodyStart level cur rest = cur := if_neg untagged
  have range : log.callRange levels (bodyStart level cur rest)
      (u32 (cur + (breakLine rest).1.length)) (finalLevel levels level (breakLine rest).1) =
        [(cur % log.logBufLen, log.logBufLen)] := by
    rw [isLine, start, full]
    exact callRange_whole spans.index loud
  obtain ⟨more, driven, _⟩ := spans.next.shows_short levels (-1)
    (show (breakLine rest).2.length + 1 < fuel by have := breakLine_rest_lt some_; omega)
    (by have := breakLine_rest_lt some_; omega)
  rw [spans.driveLines some_ (by omega), splitLines_break rest some_, levelAfter]
  dsimp only
  rw [range]
  by_cases ended : Ended (breakLine rest).1
  · rw [if_pos ended, if_pos ended, driven]
    exact ⟨_, rfl, mem_cons_self⟩
  · rw [if_neg ended, if_neg ended]
    exact ⟨_, rfl, mem_cons_self⟩

end

end Lines

section Flush

variable {log : Log}

/-- What every sequence of `emit_log_char` and console flushes keeps. -/
structure Valid (log : Log) : Prop where
  conStart : log.conStart < 2 ^ 32
  logEnd : log.logEnd < 2 ^ 32
  short : log.pending ≤ log.logBufLen

theorem bootLog_valid (shift : Fin 31) : Valid (bootLog shift) := by
  refine ⟨Nat.two_pow_pos 32, Nat.two_pow_pos 32, ?_⟩
  simp [Log.pending, bootLog, sub32]

theorem sub32_sub32 {index count : Nat} (small : index < 2 ^ 32) (fits : count ≤ 2 ^ 30) :
    sub32 index (sub32 index count) = count := by
  unfold sub32
  rcases Nat.lt_or_ge index count <;> omega

section

variable (valid : Valid log)

include valid

theorem Valid.emitLogChar (c : Byte) : Valid (log.emitLogChar c) := by
  have small := logBufLen_le log
  refine ⟨?_, Nat.mod_lt _ (by decide), ?_⟩
  · change (if _ then _ else _) < _
    split
    · exact Nat.mod_lt _ (by decide)
    · exact valid.conStart
  · change sub32 (u32 (log.logEnd + 1)) (if _ then _ else _) ≤ log.logBufLen
    split
    · exact Nat.le_of_eq (sub32_sub32 (Nat.mod_lt _ (by decide)) small)
    · omega

theorem Valid.spans : Spans log log.conStart log.logEnd (log.text log.conStart log.pending) := by
  have length : (log.text log.conStart log.pending).length = log.pending :=
    RingCells.window_length
  have := valid.conStart
  have := valid.logEnd
  refine ⟨valid.conStart, by rw [length], ?_, by rw [length]; exact valid.short⟩
  rw [length]
  unfold Log.pending sub32 u32
  omega

theorem Valid.not_bug : ¬ 0 < MachineInt.s32 ((log.conStart : Int) - log.logEnd) := by
  have small := logBufLen_le log
  have := valid.conStart
  have := valid.logEnd
  have short : (log.logEnd + 2 ^ 32 - log.conStart) % 2 ^ 32 ≤ log.logBufLen := valid.short
  cases Nat.lt_or_ge log.logEnd log.conStart with
  | inl wrapped =>
    have around : (log.conStart : Int) - log.logEnd =
        ((log.conStart : Int) - log.logEnd - 2 ^ 32) + ((2 ^ 32 : Nat) : Int) := by
      omega
    unfold MachineInt.s32
    rw [around, Int.add_bmod_right, ← MachineInt.s32,
      MachineInt.s32_of_range _ (by omega) (by omega)]
    omega
  | inr straight =>
    rw [MachineInt.s32_of_range _ (by omega) (by omega)]
    omega

theorem Valid.flushed (level : Int) :
    Valid { log with conStart := log.logEnd, msgLevel := level } := by
  refine ⟨valid.logEnd, valid.logEnd, ?_⟩
  change sub32 log.logEnd log.logEnd ≤ log.logBufLen
  unfold sub32
  omega

/-- A flush shows what waits, unless that is one overlong line. -/
theorem Valid.flush (levels : ConsolePrintk) :
    ∃ writes after, log.flush levels = some (writes, after) ∧
      Valid after ∧
      after.msgLevel = levelAfter log.msgLevel
        (splitLines (log.text log.conStart log.pending)) ∧
      (log.Shows writes (consoleText levels log.msgLevel
          (splitLines (log.text log.conStart log.pending))) ↔ ¬ Overlong log levels) := by
  have spans := valid.spans
  have length : (log.text log.conStart log.pending).length = log.pending :=
    RingCells.window_length
  by_cases idle : log.conStart = log.logEnd
  · have none := spans.eq_iff.mp idle
    refine ⟨[], log, by rw [Log.flush, if_pos idle], valid, ?_⟩
    rw [none]
    refine ⟨rfl, fun _ overlong => ?_, fun _ => Log.Shows.nil⟩
    have := overlong.full
    have := logBufLen_pos log
    rw [none] at length
    simp only [length_nil] at length
    omega
  · rw [Log.flush, if_neg idle, Log.callConsoleDrivers, if_neg valid.not_bug]
    change ∃ writes after, Option.map _ (log.driveLines _ _ (log.pending + 2) _ _ _) = _ ∧ _
    by_cases overlong : Overlong log levels
    · obtain ⟨writes, driven, beyond⟩ := spans.overruns
        (show _ < log.pending + 2 by omega) (length.trans overlong.full)
        overlong.oneLine overlong.shown
      rw [driven]
      refine ⟨_, _, rfl, valid.flushed _, rfl, fun shows => ?_, absurd overlong⟩
      have bound := shows.1 _ beyond
      have positive := overlong.inside
      omega
    · have shown : log.DrivesLines levels log.msgLevel log.logEnd
          (log.pending + 2) log.conStart (log.text log.conStart log.pending) := by
        cases Nat.lt_or_ge log.pending log.logBufLen with
        | inl shorter => exact spans.shows_short _ _ (by omega) (length.trans_lt shorter)
        | inr whole =>
          have full : log.pending = log.logBufLen := Nat.le_antisymm valid.short whole
          refine spans.shows_full (by omega) (length.trans full) ?_
          by_cases atZero : log.conStart % log.logBufLen = 0
          · exact .inl atZero
          · exact .inr fun line => overlong ⟨full, atZero, line.1, line.2⟩
      obtain ⟨writes, driven, shows⟩ := shown
      rw [driven]
      exact ⟨_, _, rfl, valid.flushed _, rfl, fun _ => overlong, fun _ => shows⟩

end

end Flush

section Carry

/-- What the consoles have of the line that the text to come belongs to. -/
inductive Carry where
  | lineStart
  /-- the tag of the line has been read -/
  | level (digit : Nat)
  /-- the beginning of a line without a tag has been shown -/
  | untagged
deriving DecidableEq

/-- The level of the line, as `msg_level` should have it. -/
def Carry.known : Carry → Int
  | .level digit => digit
  | _ => -1

def Carry.after : Carry → List (List Byte) → Carry
  | carry, [] => carry
  | carry, line :: lines =>
      if Ended line then Carry.after .lineStart lines
      else if carry ≠ .lineStart then carry
      else if Tagged line then .level (line.getD 1 0 - '0'.toNat)
      else .untagged

/-- What the console should show of the lines: the rest of an untagged line has no tag that
could be removed. -/
def expectedText (levels : ConsolePrintk) : Carry → List (List Byte) → List Byte
  | .untagged, line :: lines =>
      let level := if Ended line then levels.defaultMessageLoglevel else -1
      (if level < levels.consoleLoglevel then line else []) ++ consoleText levels (-1) lines
  | carry, lines => consoleText levels carry.known lines

/-- The rest of an untagged line does not begin like a tag. -/
def Carry.Fits (carry : Carry) (lines : List (List Byte)) : Prop :=
  carry = .untagged → ∀ line ∈ lines.head?, ¬ Tagged line

instance (carry : Carry) (lines : List (List Byte)) : Decidable (carry.Fits lines) :=
  inferInstanceAs (Decidable (carry = .untagged → ∀ line ∈ lines.head?, ¬ Tagged line))

variable {carry : Carry} {lines : List (List Byte)} (fits : carry.Fits lines)

include fits

theorem Carry.known_after : levelAfter carry.known lines = (carry.after lines).known := by
  induction lines generalizing carry with
  | nil => rfl
  | cons line lines ih =>
    rw [levelAfter, Carry.after]
    split
    · exact @ih .lineStart nofun
    · cases carry with
      | lineStart =>
        rw [if_neg (not_not.mpr rfl), lineLevel]
        split
        · rename_i tag
          rw [if_pos tag.2]
          obtain ⟨digit, rest, rfl, low, _⟩ := tag.2
          exact (Int.natCast_sub low).symm
        · rename_i other
          rw [if_neg fun tag => other ⟨by decide, tag⟩]
          rfl
      | level digit =>
        have known : ¬ (Carry.level digit).known < 0 := Int.not_lt.mpr (Int.natCast_nonneg digit)
        rw [if_pos nofun, lineLevel, if_neg fun both => known both.1]
      | untagged =>
        rw [if_pos nofun, lineLevel, if_neg fun both => fits rfl line rfl both.2]

theorem Carry.consoleText_eq (levels : ConsolePrintk) :
    consoleText levels carry.known lines = expectedText levels carry lines := by
  cases carry with
  | lineStart | level => rfl
  | untagged =>
    cases lines with
    | nil => rfl
    | cons line lines =>
      have plain : ¬ Tagged line := fits rfl line rfl
      simp [consoleText, expectedText, shownLine, lineLevel, lineBody, Carry.known, plain]

end Carry

/-- The log as the consoles see it: what the last flush has shown, and whether `con_start` was
moved since then because the ring was full. -/
structure Console where
  log : Log
  shown : Carry
  moved : Bool

def bootConsole (logBufShift : Fin 31) : Console := ⟨bootLog logBufShift, .lineStart, false⟩

def Console.lines (console : Console) : List (List Byte) :=
  splitLines (console.log.text console.log.conStart console.log.pending)

/-- Where text is lost the next one is taken for the start of a line. -/
def Console.carry (console : Console) : Carry :=
  if console.moved then .lineStart else console.shown

/-- What can happen to the log: a character, or a flush with the levels of that time. -/
inductive Op where
  | emit (c : Byte)
  | flush (levels : ConsolePrintk)

def step (console : Console) : Op → Option Console
  | .emit c =>
      let log := console.log.emitLogChar c
      some { console with
        log := log
        moved := console.moved || log.conStart != console.log.conStart }
  | .flush levels =>
      (console.log.flush levels).map fun done =>
        ⟨done.2, console.carry.after console.lines, false⟩

/-- At a flush `msg_level` is no level of a line that was lost since, and the rest of an untagged
line does not begin like a tag. -/
def Console.LevelKept (console : Console) : Prop :=
  (console.moved = true → console.log.msgLevel < 0) ∧ console.carry.Fits console.lines

instance (console : Console) : Decidable console.LevelKept :=
  inferInstanceAs (Decidable ((console.moved = true → console.log.msgLevel < 0) ∧
    console.carry.Fits console.lines))

def LevelsKept (console : Console) : Op → Prop
  | .emit _ => True
  | .flush _ => console.LevelKept

instance (console : Console) : (op : Op) → Decidable (LevelsKept console op)
  | .emit _ => isTrue trivial
  | .flush _ => inferInstanceAs (Decidable console.LevelKept)

section Tracks

variable {console : Console}

structure Tracks (console : Console) : Prop where
  valid : Valid console.log
  level : console.log.msgLevel = console.shown.known

theorem Tracks.carry (tracks : Tracks console) (level : console.LevelKept) :
    console.log.msgLevel = console.carry.known := by
  unfold Console.carry
  split
  · rename_i moved
    have unknown := level.1 moved
    rw [tracks.level] at unknown ⊢
    cases shown : console.shown with
    | lineStart | untagged => rfl
    | level digit =>
      rw [shown] at unknown
      exact absurd unknown (Int.not_lt.mpr (Int.natCast_nonneg digit))
  · exact tracks.level

theorem Tracks.flush (tracks : Tracks console) (level : console.LevelKept)
    (levels : ConsolePrintk) :
    ∃ writes after, console.log.flush levels = some (writes, after) ∧
      Tracks ⟨after, console.carry.after console.lines, false⟩ ∧
      (console.log.Shows writes (expectedText levels console.carry console.lines) ↔
        ¬ Overlong console.log levels) := by
  obtain ⟨writes, after, flushed, valid, next, shows⟩ := tracks.valid.flush levels
  rw [tracks.carry level] at next shows
  refine ⟨writes, after, flushed, ⟨valid, next.trans (Carry.known_after level.2)⟩, ?_⟩
  rw [← Carry.consoleText_eq level.2]
  exact shows

theorem Tracks.step (console : Console) (op : Op) (tracks : Tracks console)
    (level : LevelsKept console op) : ∃ next, Printk.step console op = some next ∧ Tracks next := by
  cases op with
  | emit c => exact ⟨_, rfl, tracks.valid.emitLogChar c, tracks.level⟩
  | flush levels =>
    obtain ⟨writes, after, flushed, next, _⟩ := tracks.flush level levels
    exact ⟨_, by rw [Printk.step, flushed]; rfl, next⟩

end Tracks

/-- After any characters and flushes at which the level is that of the line, the next such flush
writes inside `log_buf` and shows the pending text, exactly if that is not one line as long as the
ring. -/
theorem flush_shows_iff (logBufShift : Fin 31) (ops : List Op)
    (kept : Runs.Along step LevelsKept (bootConsole logBufShift) ops) (levels : ConsolePrintk) :
    ∃ console, Runs.run step (bootConsole logBufShift) ops = some console ∧
      (console.LevelKept → ∃ writes after, console.log.flush levels = some (writes, after) ∧
        (console.log.Shows writes (expectedText levels console.carry console.lines) ↔
          ¬ Overlong console.log levels)) := by
  obtain ⟨console, executed, tracks⟩ := Runs.run_total Tracks.step ops (bootConsole logBufShift)
    ⟨bootLog_valid logBufShift, rfl⟩ kept
  refine ⟨console, executed, fun level => ?_⟩
  obtain ⟨writes, after, flushed, _, shows⟩ := tracks.flush level levels
  exact ⟨writes, after, flushed, shows⟩

/-- A line is shown in part and ended, and another one follows it in the ring. -/
def carriedLevel : List Op :=
  ("<5>ab".toList.map fun c => .emit c.toNat) ++ .flush ⟨7, 4⟩ ::
    "c\n<1>e\n".toList.map fun c => .emit c.toNat

theorem flush_shows_iff_carriedLevel :
    ∃ console writes after, Runs.run step (bootConsole 3) carriedLevel = some console ∧
      console.log.flush ⟨5, 4⟩ = some (writes, after) ∧
        console.log.Shows writes ("e\n".toList.map Char.toNat) := by
  obtain ⟨console, executed, shows⟩ := flush_shows_iff 3 carriedLevel (by decide +kernel) ⟨5, 4⟩
  cases executed
  obtain ⟨writes, after, flushed, shown⟩ := shows (by decide +kernel)
  exact ⟨_, writes, after, rfl, flushed, shown.mpr fun overlong => absurd overlong.full (by decide)⟩

/-- Three characters without a newline in a ring of two: the pending text starts at
offset 1 and is written as two characters from there. -/
theorem unbrokenLine_overruns :
    ∃ console writes after,
      Runs.run step (bootConsole 1) [.emit 97, .emit 98, .emit 99] = some console ∧
        console.log.flush ⟨7, 4⟩ = some (writes, after) ∧ console.log.logBufLen = 2 ∧
        writes = [(1, 2)] ∧
        ¬ console.log.Shows writes (expectedText ⟨7, 4⟩ console.carry console.lines) := by
  refine ⟨_, _, _, rfl, rfl, rfl, rfl, fun shows => ?_⟩
  have inside := shows.1 (1, 2) mem_cons_self
  exact absurd inside (by decide)

end MagxKernel.Printk
