import Mathlib.Data.List.TakeWhile
import MagxKernel.Printk.Console
import MagxKernel.Vsprintf.Output

namespace MagxKernel.Printk

open List Option

/-- A number in decimal, filled up to the field width. -/
def number (fill : Byte) (width value : Nat) : List Byte :=
  let digits := (Nat.toDigits 10 value).map Char.toNat
  List.replicate (width - digits.length) fill ++ digits

/-- What `snprintf` leaves in a buffer of that size, and the length it returns. -/
def snprintf (size : Nat) (formatted : List Byte) : List Byte × Nat :=
  (Vsprintf.cut size formatted ++ [0], formatted.length)

/-- The same on a buffer with older contents. The length returned is that of the text in
the buffer. -/
def vscnprintf (buf : Nat → Byte) (size : Nat) (formatted : List Byte) : (Nat → Byte) × Nat :=
  let (cells, i) := snprintf size formatted
  (fun at_ => cells[at_]?.getD (buf at_), if size ≤ i then size - 1 else i)

/-- One call of `vprintk`: the text its format and arguments give, the settings of the
time, and what the clock reads at each line start of the call. -/
structure Call where
  text : List Byte
  printkTime : Bool
  defaultMessageLoglevel : Int
  clock : Nat → Nat

/-- The log with the static variables of `vprintk`. -/
structure State where
  log : Log
  printkBuf : Nat → Byte
  logLevelUnknown : Bool

/-- The state at boot. -/
def bootState (logBufShift : Fin 31) : State := ⟨bootLog logBufShift, fun _ => 0, true⟩

def printkBufSize : Nat := 1024

def tbufLen : Nat := 19

/-- `default_message_loglevel + '0'` as a character. -/
def Call.defaultChar (call : Call) : Byte :=
  ((call.defaultMessageLoglevel + '0'.toNat) % 256).toNat

/-- `[%5lu.%06lu] ` with the seconds and microseconds of a time in nanoseconds. -/
def timeStamp (t : Nat) : List Byte :=
  '['.toNat :: number ' '.toNat 5 (u32 (t / 1000000000)) ++
    '.'.toNat :: number '0'.toNat 6 (t % 1000000000 / 1000) ++ [']'.toNat, ' '.toNat]

def levelTag (loglevChar : Byte) : List Byte := ['<'.toNat, loglevChar, '>'.toNat]

/-- The characters from `tbuf` to `tbuf + tlen`, if `tbuf` has so many. -/
def stampChars (loglevChar : Byte) (t : Nat) : Option (List Byte) :=
  let (tbuf, tlen) := snprintf tbufLen (levelTag loglevChar ++ timeStamp t)
  if tlen ≤ tbuf.length then some (tbuf.take tlen) else none

def emitAll (log : Log) (chars : List Byte) : Log := chars.foldl Log.emitLogChar log

namespace State

def read (state : State) (p : Nat) : Option Byte :=
  if p < printkBufSize then some (state.printkBuf p) else none

/-- The test for a level tag at `p`. -/
def tagAt (state : State) (p : Nat) : Option Bool :=
  (state.read p).bind fun first =>
    if first ≠ '<'.toNat then some false
    else (state.read (p + 1)).bind fun level =>
      if level < '0'.toNat ∨ '7'.toNat < level then some false
      else (state.read (p + 2)).map fun last => decide (last = '>'.toNat)

/-- The body of `if (log_level_unknown)`: tag and time of a new line. -/
def startLine (state : State) (call : Call) (lines p : Nat) : Option (State × Nat) :=
  if state.logLevelUnknown = false then some (state, p)
  else
    (state.tagAt p).bind fun tagged =>
      if call.printkTime then
        let loglevChar := if tagged then state.printkBuf (p + 1) else call.defaultChar
        (stampChars loglevChar (call.clock lines)).map fun chars =>
          ({ state with log := emitAll state.log chars, logLevelUnknown := false },
            if tagged then p + 3 else p)
      else
        let chars := if tagged then [] else levelTag call.defaultChar
        some ({ state with log := emitAll state.log chars, logLevelUnknown := false }, p)

/-- The loop over `printk_buf`; `lines` counts the line starts of the call. -/
def copy (call : Call) : Nat → Nat → Nat → State → Option State
  | 0, _, _, _ => none
  | fuel + 1, lines, p, state =>
      (state.read p).bind fun c =>
        if c = 0 then some state
        else
          (state.startLine call lines p).bind fun (next, p) =>
            (next.read p).bind fun c =>
              copy call fuel (if state.logLevelUnknown then lines + 1 else lines) (p + 1)
                { next with
                  log := next.log.emitLogChar c
                  logLevelUnknown := if c = newline then true else next.logLevelUnknown }

/-- `vprintk` up to the console, with the length it returns. -/
def vprintk (state : State) (call : Call) : Option (State × Nat) :=
  let (printkBuf, printedLen) := vscnprintf state.printkBuf printkBufSize call.text
  (copy call (printkBufSize + 1) 0 0 { state with printkBuf := printkBuf }).map
    fun next => (next, printedLen)

def call (state : State) (call : Call) : Option State := (state.vprintk call).map Prod.fst

end State

/-- The formatted text as a string of at most 1023 characters. -/
def Call.string (call : Call) : List Byte := (call.text.take 1023).takeWhile (· ≠ 0)

/-- The lines that start in a text. Its first line does only where a line can start. -/
def lineStarts (unknown : Bool) (text : List Byte) : List (List Byte) :=
  if unknown then splitLines text else splitLines (breakLine text).2

/-- A line with its level tag, the caller's or the default, and its time stamp. -/
def logLine (call : Call) (index : Nat) (line : List Byte) : List Byte :=
  levelTag (if Tagged line then line.getD 1 0 else call.defaultChar) ++
    (if call.printkTime then timeStamp (call.clock index) else []) ++ lineBody (-1) line

def logLines (call : Call) : Nat → List (List Byte) → List Byte
  | _, [] => []
  | index, line :: lines => logLine call index line ++ logLines call (index + 1) lines

/-- The text for the log. -/
def logText (call : Call) (unknown : Bool) (index : Nat) (text : List Byte) : List Byte :=
  (if unknown then [] else (breakLine text).1) ++ logLines call index (lineStarts unknown text)

/-- A line starts after the text. -/
def unknownAfter : Bool → List Byte → Bool
  | unknown, [] => unknown
  | _, c :: rest => unknownAfter (decide (c = newline)) rest

/-- The texts of several calls. -/
def logTexts : Bool → List Call → List Byte
  | _, [] => []
  | unknown, call :: calls =>
      logText call unknown 0 call.string ++ logTexts (unknownAfter unknown call.string) calls

/-- The header of the line fits the buffers. With time stamps that is a time below 100000
seconds, and a tag that is not the end of the text. -/
structure LineFine (call : Call) (index : Nat) (line : List Byte) : Prop where
  level : ¬ Tagged line → call.defaultChar ≠ 0
  time : call.printkTime = true → u32 (call.clock index / 1000000000) < 100000
  body : call.printkTime = true → Tagged line → 3 < line.length

def LinesFine (call : Call) : Nat → List (List Byte) → Prop
  | _, [] => True
  | index, line :: lines => LineFine call index line ∧ LinesFine call (index + 1) lines

instance (call : Call) (index : Nat) (line : List Byte) : Decidable (LineFine call index line) :=
  decidable_of_iff ((¬ Tagged line → call.defaultChar ≠ 0) ∧
      (call.printkTime = true → u32 (call.clock index / 1000000000) < 100000) ∧
      (call.printkTime = true → Tagged line → 3 < line.length))
    ⟨fun facts => ⟨facts.1, facts.2.1, facts.2.2⟩, fun fine => ⟨fine.level, fine.time, fine.body⟩⟩

instance decidableLinesFine (call : Call) :
    (index : Nat) → (lines : List (List Byte)) → Decidable (LinesFine call index lines)
  | _, [] => isTrue trivial
  | index, line :: lines =>
      have : Decidable (LinesFine call (index + 1) lines) :=
        decidableLinesFine call (index + 1) lines
      inferInstanceAs (Decidable (LineFine call index line ∧ LinesFine call (index + 1) lines))

/-- The condition on a call, in the state before it. -/
def State.Fine (state : State) (call : Call) : Prop :=
  LinesFine call 0 (lineStarts state.logLevelUnknown call.string)

instance (state : State) (call : Call) : Decidable (state.Fine call) :=
  inferInstanceAs (Decidable (LinesFine call 0 _))

variable {text : List Byte}

section Text

theorem lineBody_tag {level : Byte} (low : '0'.toNat ≤ level) (high : level ≤ '7'.toNat)
    (rest : List Byte) : lineBody (-1) ('<'.toNat :: level :: '>'.toNat :: rest) = rest :=
  if_pos ⟨by decide, level, rest, rfl, low, high⟩

theorem lineBody_untagged (tag : ¬ Tagged text) : lineBody (-1) text = text :=
  if_neg fun both => tag both.2

theorem breakLine_lineBody (text : List Byte) :
    breakLine (lineBody (-1) text) = (lineBody (-1) (breakLine text).1, (breakLine text).2) := by
  by_cases tag : Tagged text
  · obtain ⟨level, rest, rfl, low, high⟩ := tag
    rw [breakLine_tag low, lineBody_tag low high, lineBody_tag low high]
  · have line : ¬ Tagged (breakLine text).1 := fun tagged => tag ((tagged_break text).mp tagged)
    rw [lineBody_untagged tag, lineBody_untagged line]

theorem lineStarts_cons (c : Byte) (rest : List Byte) :
    lineStarts false (c :: rest) = lineStarts (decide (c = newline)) rest := by
  by_cases here : c = newline <;> simp [lineStarts, breakLine, here]

theorem lineStarts_start (some_ : text ≠ []) :
    lineStarts true text = (breakLine text).1 :: lineStarts false (lineBody (-1) text) := by
  unfold lineStarts
  rw [if_pos rfl, if_neg Bool.false_ne_true, breakLine_lineBody, splitLines_break text some_]

theorem logText_nil (call : Call) (unknown : Bool) (index : Nat) :
    logText call unknown index [] = [] := by
  cases unknown with
  | false | true => rfl

theorem logText_cons (call : Call) (index : Nat) (c : Byte) (rest : List Byte) :
    logText call false index (c :: rest) =
      c :: logText call (decide (c = newline)) index rest := by
  unfold logText
  rw [lineStarts_cons]
  by_cases here : c = newline <;> simp [breakLine, here]

theorem logText_start (call : Call) (index : Nat) (some_ : text ≠ []) :
    logText call true index text =
      levelTag (if Tagged text then text.getD 1 0 else call.defaultChar) ++
        (if call.printkTime then timeStamp (call.clock index) else []) ++
          logText call false (index + 1) (lineBody (-1) text) := by
  have level : (if Tagged (breakLine text).1 then (breakLine text).1.getD 1 0
      else call.defaultChar) = if Tagged text then text.getD 1 0 else call.defaultChar := by
    by_cases tag : Tagged text
    · rw [if_pos tag, if_pos ((tagged_break text).mpr tag)]
      obtain ⟨level, rest, rfl, low, high⟩ := tag
      rw [breakLine_tag low]
      rfl
    · rw [if_neg tag, if_neg fun line => tag ((tagged_break text).mp line)]
  unfold logText
  rw [lineStarts_start some_, logLines, logLine, level, breakLine_lineBody]
  simp

end Text

section Stamp

theorem number_length {fill : Byte} {width value : Nat} (positive : 0 < width)
    (small : value < 10 ^ width) : (number fill width value).length = width := by
  have short : (Nat.toDigits 10 value).length ≤ width :=
    (Nat.length_toDigits_le_iff (by decide) positive).mpr small
  unfold number
  rw [length_append, length_replicate, length_map]
  omega

theorem timeStamp_length {t : Nat} (short : u32 (t / 1000000000) < 100000) :
    (timeStamp t).length = 15 := by
  have micro : t % 1000000000 / 1000 < 10 ^ 6 := by omega
  unfold timeStamp
  simp [number_length (by decide) (show u32 (t / 1000000000) < 10 ^ 5 from short),
    number_length (by decide) micro]

theorem stampChars_eq (loglevChar : Byte) {t : Nat} (short : u32 (t / 1000000000) < 100000) :
    stampChars loglevChar t = some (levelTag loglevChar ++ timeStamp t) := by
  have length : (levelTag loglevChar ++ timeStamp t).length = 18 := by
    rw [length_append, timeStamp_length short]
    rfl
  unfold stampChars snprintf Vsprintf.cut
  dsimp only
  rw [take_of_length_le (show _ ≤ tbufLen - 1 from Nat.le_of_eq length), if_pos (by simp),
    take_left' rfl]

theorem number_nonzero {fill : Byte} (visible : fill ≠ 0) (width value : Nat) :
    0 ∉ number fill width value := by
  unfold number
  rw [mem_append, not_or]
  constructor
  · intro inside
    exact visible (eq_of_mem_replicate inside).symm
  · intro inside
    obtain ⟨digit, found, zero⟩ := mem_map.mp inside
    have isDigit := Nat.isDigit_of_mem_toDigits (by decide) (by decide) found
    have large : 48 ≤ digit.toNat := by
      simp only [Char.isDigit, Bool.and_eq_true, decide_eq_true_eq] at isDigit
      exact isDigit.1
    rw [zero] at large
    exact absurd large (by decide)

theorem timeStamp_nonzero (t : Nat) : 0 ∉ timeStamp t := by
  have seconds := number_nonzero (show ' '.toNat ≠ 0 by decide) 5 (u32 (t / 1000000000))
  have micro := number_nonzero (show '0'.toNat ≠ 0 by decide) 6 (t % 1000000000 / 1000)
  unfold timeStamp
  simp only [cons_append, mem_cons, mem_append, seconds, micro, not_mem_nil,
    or_false, false_or]
  decide

end Stamp

section Copy

/-- The string at `p` of the buffer, with its NUL. -/
structure Holds (state : State) (p : Nat) (rest : List Byte) : Prop where
  fits : p + rest.length < printkBufSize
  text : ∀ i c, rest[i]? = some c → state.printkBuf (p + i) = c
  ends : state.printkBuf (p + rest.length) = 0
  nonzero : 0 ∉ rest

variable {state : State} {call : Call} {p lines : Nat} {rest : List Byte}

theorem Holds.read (holds : Holds state p rest) {i : Nat} {c : Byte}
    (here : (rest ++ [0])[i]? = some c) : state.read (p + i) = some c := by
  have inside : i < rest.length + 1 := by
    have := (List.getElem?_eq_some_iff.mp here).1
    rwa [List.length_append] at this
  have within := holds.fits
  unfold State.read
  rw [if_pos (by omega), Option.some.injEq]
  cases Nat.lt_or_ge i rest.length with
  | inl before =>
    rw [getElem?_append_left before] at here
    exact holds.text i c here
  | inr last =>
    obtain rfl : i = rest.length := by omega
    rw [getElem?_concat_length, Option.some.injEq] at here
    rw [holds.ends, here]

theorem Holds.drop (holds : Holds state p rest) {count : Nat} (within : count ≤ rest.length) :
    Holds state (p + count) (rest.drop count) := by
  have length := length_drop (i := count) (l := rest)
  refine ⟨?_, fun i c here => ?_, ?_, fun zero => holds.nonzero (mem_of_mem_drop zero)⟩
  · have := holds.fits
    omega
  · rw [getElem?_drop] at here
    rw [Nat.add_assoc]
    exact holds.text _ c here
  · rw [length, show p + count + (rest.length - count) = p + rest.length by omega]
    exact holds.ends

theorem Holds.tagAt (holds : Holds state p rest) : state.tagAt p = some (decide (Tagged rest)) := by
  unfold State.tagAt
  cases rest with
  | nil =>
    rw [show state.read p = some 0 from holds.read (i := 0) rfl]
    rfl
  | cons first rest =>
    rw [show state.read p = some first from holds.read (i := 0) rfl, bind_some]
    split
    next other =>
      rw [decide_eq_false]
      rintro ⟨level, more, same, _⟩
      exact other (List.cons.inj same).1
    next isOpen =>
      obtain rfl : first = '<'.toNat := Classical.not_not.mp isOpen
      cases rest with
      | nil =>
        rw [show state.read (p + 1) = some 0 from holds.read rfl]
        rfl
      | cons level rest =>
        rw [show state.read (p + 1) = some level from holds.read rfl, bind_some]
        split
        next outside =>
          rw [decide_eq_false]
          rintro ⟨digit, more, same, low, high⟩
          obtain rfl : level = digit := (List.cons.inj (List.cons.inj same).2).1
          exact outside.elim (Nat.not_lt.mpr low) (Nat.not_lt.mpr high)
        next inside =>
          cases rest with
          | nil =>
            rw [show state.read (p + 2) = some 0 from holds.read rfl]
            rw [decide_eq_false (fun tagged => ?_)]
            · rfl
            · obtain ⟨digit, more, same, _⟩ := tagged
              simp at same
          | cons last rest =>
            rw [show state.read (p + 2) = some last from holds.read rfl, map_some]
            congr 1
            rw [decide_eq_decide]
            constructor
            · rintro rfl
              obtain ⟨low, high⟩ := not_or.mp inside
              exact ⟨level, rest, rfl, Nat.not_lt.mp low, Nat.not_lt.mp high⟩
            · rintro ⟨digit, more, same, _⟩
              exact (List.cons.inj (List.cons.inj (List.cons.inj same).2).2).1

theorem lineStarts_body (text : List Byte) :
    lineStarts false (lineBody (-1) text) = lineStarts false text := by
  simp [lineStarts, breakLine_lineBody]

/-- Without time stamps the caller's tag is copied as text. -/
theorem logText_tagged (index : Nat) (tag : Tagged text) :
    levelTag (text.getD 1 0) ++ logText call false index (lineBody (-1) text) =
      logText call false index text := by
  obtain ⟨level, rest, rfl, low, high⟩ := tag
  unfold logText
  rw [lineStarts_body, lineBody_tag low high, breakLine_tag low]
  rfl

theorem unknownAfter_drop {count : Nat} (some_ : text.drop count ≠ []) (unknown : Bool) :
    unknownAfter unknown (text.drop count) = unknownAfter unknown text := by
  induction text generalizing count unknown with
  | nil => simp at some_
  | cons c rest ih =>
    cases count with
    | zero => rfl
    | succ count =>
      rw [drop_succ_cons] at some_ ⊢
      rw [unknownAfter, ← ih some_]
      cases left : rest.drop count with
      | nil => exact absurd left some_
      | cons d more => rfl

/-- The header of a line and the place where the copy goes on. -/
theorem Holds.startLine (holds : Holds state p rest) (some_ : rest ≠ [])
    (fine : LinesFine call lines (lineStarts state.logLevelUnknown rest)) :
    ∃ header body q, state.startLine call lines p =
        some ({ state with log := emitAll state.log header, logLevelUnknown := false }, q) ∧
      Holds state q body ∧ body ≠ [] ∧ body.length ≤ rest.length ∧
      header ++ logText call false (if state.logLevelUnknown then lines + 1 else lines) body =
        logText call state.logLevelUnknown lines rest ∧
      LinesFine call (if state.logLevelUnknown then lines + 1 else lines)
        (lineStarts false body) ∧
      ∀ unknown, unknownAfter unknown body = unknownAfter unknown rest := by
  obtain ⟨log, printkBuf, unknown⟩ := state
  unfold State.startLine
  cases unknown with
  | false =>
    exact ⟨[], rest, p, rfl, holds, some_, Nat.le_refl _, rfl, fine, fun _ => rfl⟩
  | true =>
    dsimp only at fine ⊢
    rw [lineStarts_start some_] at fine
    obtain ⟨first, later⟩ := fine
    rw [if_neg (by decide), holds.tagAt, bind_some, logText_start call lines some_]
    by_cases timed : call.printkTime = true
    · rw [if_pos timed, stampChars_eq _ (first.time timed), map_some, if_pos timed]
      by_cases tag : Tagged rest
      · have long : 3 < (breakLine rest).1.length :=
          first.body timed ((tagged_break rest).mpr tag)
        have length := breakLine_length_le rest
        have dropped : lineBody (-1) rest = rest.drop 3 := if_pos ⟨by decide, tag⟩
        have more : rest.drop 3 ≠ [] := by
          intro none
          have := congrArg List.length none
          rw [length_drop, length_nil] at this
          omega
        rw [dropped] at later ⊢
        refine ⟨_, rest.drop 3, p + 3, by rw [decide_eq_true tag]; rfl, holds.drop (by omega), more,
          by rw [length_drop]; omega, ?_, later, unknownAfter_drop more⟩
        have level : printkBuf (p + 1) = rest.getD 1 0 := by
          obtain ⟨level, rest, rfl, _⟩ := tag
          exact holds.text 1 level rfl
        rw [if_pos tag, ← level]
        rfl
      · rw [lineBody_untagged tag] at later ⊢
        refine ⟨_, rest, p, by rw [decide_eq_false tag]; rfl, holds, some_, Nat.le_refl _, ?_,
          later, fun _ => rfl⟩
        rw [if_neg tag]
        rfl
    · rw [if_neg timed, if_neg timed, append_nil]
      rw [lineStarts_body] at later
      refine ⟨_, rest, p, rfl, holds, some_, Nat.le_refl _, ?_, later, fun _ => rfl⟩
      by_cases tag : Tagged rest
      · rw [if_pos tag, logText_tagged _ tag, decide_eq_true tag]
        rfl
      · rw [if_neg tag, lineBody_untagged tag, decide_eq_false tag]
        rfl

/-- The loop appends the text that belongs to the log. -/
theorem Holds.copy (fuel : Nat) (holds : Holds state p rest) (enough : rest.length < fuel)
    (fine : LinesFine call lines (lineStarts state.logLevelUnknown rest)) :
    State.copy call fuel lines p state =
      some { state with
        log := emitAll state.log (logText call state.logLevelUnknown lines rest)
        logLevelUnknown := unknownAfter state.logLevelUnknown rest } := by
  induction fuel generalizing state p rest lines with
  | zero => exact absurd enough (Nat.not_lt_zero _)
  | succ fuel ih =>
    unfold State.copy
    by_cases none : rest = []
    · subst none
      rw [show state.read p = some 0 from
        holds.read (i := 0) rfl, bind_some, if_pos rfl, logText_nil]
      rfl
    · obtain ⟨header, body, q, started, next, more, shorter, text, later, after⟩ :=
        holds.startLine none fine
      obtain ⟨c, rest, rfl⟩ := exists_cons_of_ne_nil none
      obtain ⟨d, body, rfl⟩ := exists_cons_of_ne_nil more
      have visible : c ≠ 0 := fun zero => holds.nonzero (zero ▸ mem_cons_self)
      rw [show state.read p = some c from
        holds.read (i := 0) rfl, bind_some, if_neg visible, started,
        bind_some]
      dsimp only
      have here : State.read ⟨emitAll state.log header, state.printkBuf, false⟩ q = some d :=
        next.read (i := 0) rfl
      rw [here, bind_some]
      have onward := next.drop (show 1 ≤ (d :: body).length by simp)
      rw [lineStarts_cons] at later
      rw [logText_cons] at text
      have flag : (if d = newline then true else false) = decide (d = newline) := by
        by_cases here : d = newline <;> simp [here]
      rw [flag, @ih { state with
          log := (emitAll state.log header).emitLogChar d
          logLevelUnknown := decide (d = newline) } (q + 1) _ body
        { onward with }
        (by simp only [length_cons] at shorter enough; omega) later]
      rw [← text, ← after, unknownAfter]
      unfold emitAll
      rw [foldl_append, foldl_cons]

end Copy

section Calls

variable {call : Call}

theorem Holds.formatted (state : State) (call : Call) :
    Holds { state with printkBuf := (vscnprintf state.printkBuf printkBufSize call.text).1 } 0
      call.string := by
  have parts := takeWhile_append_dropWhile (p := (· ≠ 0)) (l := call.text.take 1023)
  have short : call.string.length ≤ (call.text.take 1023).length :=
    (takeWhile_sublist _).length_le
  have limit : (call.text.take 1023).length ≤ 1023 := length_take_le ..
  change call.string ++ _ = _ at parts
  refine ⟨?_, fun i c here => ?_, ?_, fun zero => ?_⟩
  · have : printkBufSize = 1024 := rfl
    omega
  · have inside := (List.getElem?_eq_some_iff.mp here).1
    change (call.text.take 1023 ++ [0])[0 + i]?.getD _ = c
    rw [Nat.zero_add, ← parts, List.append_assoc, List.getElem?_append_left inside, here]
    rfl
  · change (call.text.take 1023 ++ [0])[0 + call.string.length]?.getD _ = 0
    rw [Nat.zero_add, ← parts, append_assoc, getElem?_append_right (Nat.le_refl _),
      Nat.sub_self]
    cases left : List.dropWhile (fun c => decide (c ≠ 0)) (call.text.take 1023) with
    | nil => rfl
    | cons c rest =>
      have stop := head_dropWhile_not (fun c => decide (c ≠ 0)) (l := call.text.take 1023)
        (by rw [left]; exact cons_ne_nil c rest)
      simp only [left, head_cons] at stop
      simpa using stop
  · have visible := mem_takeWhile_imp zero
    exact absurd rfl (of_decide_eq_true visible)

theorem splitLines_flatten (text : List Byte) : (splitLines text).flatten = text := by
  induction text with
  | nil => rfl
  | cons c rest ih =>
    rw [splitLines]
    split
    · rw [flatten_cons, ih]
      rfl
    · split
      next none =>
        rw [none] at ih
        rw [← ih]
        rfl
      next line lines found =>
        rw [found] at ih
        rw [flatten_cons, cons_append, ← flatten_cons, ih]

theorem logLine_nonzero {index : Nat} {line : List Byte} (fine : LineFine call index line)
    (visible : 0 ∉ line) : 0 ∉ logLine call index line := by
  have level : (if Tagged line then line.getD 1 0 else call.defaultChar) ≠ 0 := by
    split
    · rename_i tag
      obtain ⟨level, rest, rfl, low, _⟩ := tag
      exact Nat.ne_of_gt (Nat.lt_of_lt_of_le (by decide) low)
    · rename_i tag
      exact fine.level tag
  have body : 0 ∉ lineBody (-1) line := by
    unfold lineBody
    split
    · exact fun zero => visible (mem_of_mem_drop zero)
    · exact visible
  have stamp : 0 ∉ (if call.printkTime then timeStamp (call.clock index) else []) := by
    split
    · exact timeStamp_nonzero _
    · exact not_mem_nil
  unfold logLine levelTag
  rw [mem_append, mem_append, not_or, not_or]
  refine ⟨⟨?_, stamp⟩, body⟩
  simp only [mem_cons, not_mem_nil, or_false, not_or]
  exact ⟨by decide, level.symm, by decide⟩

theorem logLines_nonzero {lines : List (List Byte)} {index : Nat}
    (fine : LinesFine call index lines) (visible : 0 ∉ lines.flatten) :
    0 ∉ logLines call index lines := by
  induction lines generalizing index with
  | nil => exact not_mem_nil
  | cons line lines ih =>
    rw [flatten_cons, mem_append, not_or] at visible
    rw [logLines, mem_append, not_or]
    exact ⟨logLine_nonzero fine.1 visible.1, ih fine.2 visible.2⟩

theorem logText_nonzero {unknown : Bool} {index : Nat} (visible : 0 ∉ text)
    (fine : LinesFine call index (lineStarts unknown text)) :
    0 ∉ logText call unknown index text := by
  cases unknown with
  | true =>
    refine logLines_nonzero fine ?_
    rw [show lineStarts true text = splitLines text from rfl, splitLines_flatten]
    exact visible
  | false =>
    rw [← breakLine_append text, mem_append, not_or] at visible
    change 0 ∉ (breakLine text).1 ++ logLines call index (lineStarts false text)
    rw [mem_append, not_or]
    refine ⟨visible.1, logLines_nonzero fine ?_⟩
    rw [show lineStarts false text = splitLines (breakLine text).2 from rfl, splitLines_flatten]
    exact visible.2

/-- What one call does to the log. -/
theorem State.Fine.appends {state : State} (fine : state.Fine call) :
    ∃ next, state.call call = some next ∧
      next.log = emitAll state.log (logText call state.logLevelUnknown 0 call.string) ∧
      next.logLevelUnknown = unknownAfter state.logLevelUnknown call.string := by
  have holds := Holds.formatted state call
  have copied := holds.copy (printkBufSize + 1) (by have := holds.fits; omega) fine
  unfold State.call State.vprintk
  dsimp only
  rw [copied]
  exact ⟨_, rfl, rfl, rfl⟩

end Calls

/-- In every run of calls whose line headers fit, the log receives exactly the texts with
a tag, and with its time stamp, at every line start. -/
theorem calls_append_texts (state : State) (calls : List Call)
    (fine : Runs.Along State.call State.Fine state calls) :
    ∃ final, Runs.run State.call state calls = some final ∧
      final.log = emitAll state.log (logTexts state.logLevelUnknown calls) ∧
      0 ∉ logTexts state.logLevelUnknown calls := by
  induction calls generalizing state with
  | nil => exact ⟨state, rfl, rfl, not_mem_nil⟩
  | cons call calls ih =>
    obtain ⟨next, called, appended, flag⟩ := State.Fine.appends fine.1
    obtain ⟨final, executed, text, visible⟩ := ih next (fine.2 next called)
    rw [flag] at text visible
    refine ⟨final, by rw [Runs.run_cons, called]; exact executed, ?_, ?_⟩
    · rw [text, appended, logTexts]
      exact (foldl_append ..).symm
    · rw [logTexts, mem_append, not_or]
      exact ⟨logText_nonzero (Holds.formatted state call).nonzero fine.1, visible⟩

/-- A call with time stamps, at a time in seconds. -/
def stampedCall (text : List Char) (seconds : Nat) : Call :=
  ⟨text.map Char.toNat, true, 4, fun _ => seconds * 1000000000⟩

/-- A whole line with a tag, and a line in two parts without one. -/
def hello : List Call :=
  [stampedCall ['<', '6', '>', 'h', 'i', '\n'] 12, stampedCall ['y', 'o'] 99999,
    stampedCall ['u', '\n'] 99999]

theorem calls_append_texts_hello :
    Runs.Along State.call State.Fine (bootState 7) hello ∧
      ∃ final, Runs.run State.call (bootState 7) hello = some final ∧
        final.log = emitAll (bootLog 7) (List.map Char.toNat
          ['<', '6', '>', '[', ' ', ' ', ' ', '1', '2', '.', '0', '0', '0', '0', '0', '0', ']', ' ',
            'h', 'i', '\n', '<', '4', '>', '[', '9', '9', '9', '9', '9', '.', '0', '0', '0', '0',
            '0', '0', ']', ' ', 'y', 'o', 'u', '\n']) := by
  have fine : Runs.Along State.call State.Fine (bootState 7) hello := by decide
  obtain ⟨final, executed, text, _⟩ := calls_append_texts _ _ fine
  exact ⟨fine, final, executed, text⟩

/-- A line, and a message that is only a tag. -/
def bareTag : List Call :=
  [stampedCall ['a', 'b', 'c', 'd', '\n'] 0, stampedCall ['<', '4', '>'] 0]

/-- The copy of a bare tag steps over the NUL, emits it and goes on with the message before;
and a stamp of 100000 seconds has a NUL in the place of its last character. -/
theorem unfit_headers_emit_nul :
    (∃ final, Runs.run State.call (bootState 7) bareTag = some final ∧
      (logTexts true bareTag).length = 41 ∧ final.log.logEnd = 43 ∧
      final.log.text 41 2 = [0, newline]) ∧
    ∃ final, Runs.run State.call (bootState 7) [stampedCall ['a'] 100000] = some final ∧
      final.log.text 16 4 = ['0'.toNat, ']'.toNat, 0, 'a'.toNat] :=
  ⟨⟨_, rfl, rfl, rfl, rfl⟩, _, rfl, rfl⟩

end MagxKernel.Printk
