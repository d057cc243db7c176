import Mathlib.Data.Nat.Digits.Defs
import MagxKernel.Vsprintf.Output

namespace MagxKernel.Vsprintf

open MachineInt (s32)

/-- The byte of a character constant. -/
def ch (c : Char) : UInt8 := UInt8.ofNat c.toNat

structure Flags where
  zeropad : Bool := false
  sign : Bool := false
  plus : Bool := false
  space : Bool := false
  left : Bool := false
  special : Bool := false
  large : Bool := false
deriving DecidableEq

inductive Qualifier where
  | none | h | l | L | Z
deriving DecidableEq

/-- What `va_arg` reads. A directive that asks for an argument of another type, or for one more
than there are, is not supported: the result is then `none`. -/
inductive Arg where
  /-- An `int`, a `long`, a `size_t` or a pointer that is only printed. -/
  | word (value : BitVec 32)
  | longLong (value : BitVec 64)
  /-- A `char *` and the bytes behind it, `none` for a pointer below `PAGE_SIZE`. -/
  | string (bytes : Option (List UInt8))
  /-- The place a `%n` stores to. -/
  | counter

/-- `digits[i]` of `small_digits` or `large_digits`. -/
def digit (large : Bool) (i : Nat) : UInt8 :=
  if i < 10 then UInt8.ofNat (0x30 + i)
  else if large then UInt8.ofNat (0x41 + (i - 10))
  else UInt8.ofNat (0x61 + (i - 10))

/-- The `sign` character of `number`, the magnitude, and what is left of the field. -/
def numberSign (num : BitVec 64) (size : Int) (type : Flags) : Option UInt8 × BitVec 64 × Int :=
  if type.sign then
    if num.toInt < 0 then (some (ch '-'), -num, s32 (size - 1))
    else if type.plus then (some (ch '+'), num, s32 (size - 1))
    else if type.space then (some (ch ' '), num, s32 (size - 1))
    else (none, num, size)
  else (none, num, size)

/-- The room that the prefix of `SPECIAL` takes. -/
def numberSpecial (base : Nat) (size : Int) (type : Flags) : Int :=
  if type.special then
    if base = 16 then s32 (size - 2) else if base = 8 then s32 (size - 1) else size
  else size

/-- `tmp`: the digits from the lowest on. -/
def numberTmp (num : BitVec 64) (base : Nat) (type : Flags) : List UInt8 :=
  if num = 0 then [ch '0'] else (Nat.digits base num.toNat).map (digit type.large)

def numberPrefix (base : Nat) (type : Flags) (out : Out) : Out :=
  if type.special then
    if base = 8 then out.put (ch '0')
    else if base = 16 then (out.put (ch '0')).put (digit type.large 33)
    else out
  else out

/-- The end of `number`: the zeros of the precision, the digits and the spaces behind them. -/
def numberDigits (tmp : List UInt8) (precision size : Int) (out : Out) : Out :=
  let out := (whileAbove (ch '0') tmp.length precision out).2
  let out := out.puts tmp.reverse
  (whileAbove (ch ' ') 0 size out).2

/-- `number` behind its leading spaces. -/
def numberBody (sign : Option UInt8) (tmp : List UInt8) (base : Nat) (type : Flags)
    (precision size : Int) (out : Out) : Out :=
  let c := if type.zeropad then ch '0' else ch ' '
  let out := sign.elim out out.put
  let out := numberPrefix base type out
  let filled := if !type.left then whileAbove c 0 size out else (size, out)
  numberDigits tmp precision filled.1 filled.2

def number (out : Out) (num : BitVec 64) (base : Nat) (size precision : Int) (type : Flags) :
    Out :=
  let type := if type.left then { type with zeropad := false } else type
  let signed := numberSign num size type
  let size := numberSpecial base signed.2.2 type
  let tmp := numberTmp signed.2.1 base type
  let precision := if tmp.length > precision then (tmp.length : Int) else precision
  let size := s32 (size - precision)
  let padded := if !type.zeropad && !type.left then whileAbove (ch ' ') 0 size out else (size, out)
  numberBody signed.1 tmp base type precision padded.1 padded.2

def isdigit (c : UInt8) : Bool := 0x30 ≤ c && c ≤ 0x39

def skipAtoi : Int → List UInt8 → Int × List UInt8
  | i, [] => (i, [])
  | i, c :: fmt => if isdigit c then skipAtoi (s32 (i * 10 + c.toNat - 0x30)) fmt else (i, c :: fmt)

/-- The `repeat` loop over `-`, `+`, space, `#` and `0`. -/
def processFlags : Flags → List UInt8 → Flags × List UInt8
  | flags, [] => (flags, [])
  | flags, c :: fmt =>
    if c = ch '-' then processFlags { flags with left := true } fmt
    else if c = ch '+' then processFlags { flags with plus := true } fmt
    else if c = ch ' ' then processFlags { flags with space := true } fmt
    else if c = ch '#' then processFlags { flags with special := true } fmt
    else if c = ch '0' then processFlags { flags with zeropad := true } fmt
    else (flags, c :: fmt)

/-- What is left of the format and of the arguments. -/
structure Rest where
  fmt : List UInt8
  args : List Arg

def nextWord : List Arg → Option (BitVec 32 × List Arg)
  | .word value :: args => some (value, args)
  | _ => none

def nextLongLong : List Arg → Option (BitVec 64 × List Arg)
  | .longLong value :: args => some (value, args)
  | _ => none

def nextString : List Arg → Option (Option (List UInt8) × List Arg)
  | .string bytes :: args => some (bytes, args)
  | _ => none

def nextCounter : List Arg → Option (List Arg)
  | .counter :: args => some args
  | _ => none

def getFieldWidth (flags : Flags) (rest : Rest) : Option (Int × Flags × Rest) :=
  match rest.fmt with
  | [] => some (-1, flags, rest)
  | c :: fmt =>
    if isdigit c then
      let width := skipAtoi 0 (c :: fmt)
      some (width.1, flags, ⟨width.2, rest.args⟩)
    else if c = ch '*' then
      (nextWord rest.args).map fun arg =>
        if arg.1.toInt < 0 then (s32 (-arg.1.toInt), { flags with left := true }, ⟨fmt, arg.2⟩)
        else (arg.1.toInt, flags, ⟨fmt, arg.2⟩)
    else some (-1, flags, rest)

/-- The part of a precision behind its dot. -/
def getDotted (rest : Rest) : Option (Int × Rest) :=
  match rest.fmt with
  | [] => some (-1, rest)
  | c :: fmt =>
    if isdigit c then
      let width := skipAtoi 0 (c :: fmt)
      some (width.1, ⟨width.2, rest.args⟩)
    else if c = ch '*' then (nextWord rest.args).map fun arg => (arg.1.toInt, ⟨fmt, arg.2⟩)
    else some (-1, rest)

def getPrecision (rest : Rest) : Option (Int × Rest) :=
  match rest.fmt with
  | [] => some (-1, rest)
  | c :: fmt =>
    if c = ch '.' then
      (getDotted ⟨fmt, rest.args⟩).map fun dotted =>
        (if dotted.1 < 0 then 0 else dotted.1, dotted.2)
    else some (-1, rest)

def getQualifier : List UInt8 → Qualifier × List UInt8
  | [] => (.none, [])
  | c :: fmt =>
    if c = ch 'h' then (.h, fmt)
    else if c = ch 'l' then
      match fmt with
      | [] => (.l, [])
      | d :: fmt' => if d = ch 'l' then (.L, fmt') else (.l, d :: fmt')
    else if c = ch 'L' then (.L, fmt)
    else if c = ch 'Z' ∨ c = ch 'z' then (.Z, fmt)
    else (.none, c :: fmt)

/-- The value that an integer conversion reads, as the `unsigned long long` given to `number`. -/
def getNum (qualifier : Qualifier) (sign : Bool) (args : List Arg) :
    Option (BitVec 64 × List Arg) :=
  match qualifier with
  | .L => nextLongLong args
  | .l => (nextWord args).map fun arg =>
      (if sign then arg.1.signExtend 64 else arg.1.setWidth 64, arg.2)
  | .Z => (nextWord args).map fun arg => (arg.1.setWidth 64, arg.2)
  | .h => (nextWord args).map fun arg =>
      let short := arg.1.setWidth 16
      (if sign then short.signExtend 64 else short.setWidth 64, arg.2)
  | .none => (nextWord args).map fun arg =>
      (if sign then arg.1.signExtend 64 else arg.1.setWidth 64, arg.2)

/-- What one turn of the loop over the format puts out. -/
inductive Piece where
  | chars (text : List UInt8)
  | char (flags : Flags) (fieldWidth : Int) (c : UInt8)
  | string (flags : Flags) (fieldWidth precision : Int) (bytes : List UInt8)
  | number (num : BitVec 64) (base : Nat) (fieldWidth precision : Int) (flags : Flags)
  /-- `%n`: nothing is put, the distance from `buf` is stored. -/
  | count

def getNumber (base : Nat) (fieldWidth precision : Int) (flags : Flags) (qualifier : Qualifier)
    (rest : Rest) : Option (Piece × Rest) :=
  (getNum qualifier flags.sign rest.args).map fun num =>
    (.number num.1 base fieldWidth precision flags, ⟨rest.fmt, num.2⟩)

/-- `"<NULL>"` -/
def nullString : List UInt8 := [ch '<', ch 'N', ch 'U', ch 'L', ch 'L', ch '>']

/-- The `switch` over the conversion character. -/
def getConversion (flags : Flags) (fieldWidth precision : Int) (qualifier : Qualifier)
    (rest : Rest) : Option (Piece × Rest) :=
  match rest.fmt with
  | [] => some (.chars [ch '%'], rest)
  | c :: fmt =>
    let next : Rest := ⟨fmt, rest.args⟩
    if c = ch 'c' then
      (nextWord rest.args).map fun arg =>
        (.char flags fieldWidth (UInt8.ofNat arg.1.toNat), ⟨fmt, arg.2⟩)
    else if c = ch 's' then
      (nextString rest.args).map fun arg =>
        (.string flags fieldWidth precision (arg.1.getD nullString), ⟨fmt, arg.2⟩)
    else if c = ch 'p' then
      let width := if fieldWidth = -1 then 8 else fieldWidth
      let flags := if fieldWidth = -1 then { flags with zeropad := true } else flags
      (nextWord rest.args).map fun arg =>
        (.number (arg.1.setWidth 64) 16 width precision flags, ⟨fmt, arg.2⟩)
    else if c = ch 'n' then (nextCounter rest.args).map fun args => (.count, ⟨fmt, args⟩)
    else if c = ch '%' then some (.chars [ch '%'], next)
    else if c = ch 'o' then getNumber 8 fieldWidth precision flags qualifier next
    else if c = ch 'X' then
      getNumber 16 fieldWidth precision { flags with large := true } qualifier next
    else if c = ch 'x' then getNumber 16 fieldWidth precision flags qualifier next
    else if c = ch 'd' ∨ c = ch 'i' then
      getNumber 10 fieldWidth precision { flags with sign := true } qualifier next
    else if c = ch 'u' then getNumber 10 fieldWidth precision flags qualifier next
    -- a NUL behind the `%` is left for the loop to see
    else if c = 0 then some (.chars [ch '%'], rest)
    else some (.chars [ch '%', c], next)

/-- One turn of `for (; *fmt ; ++fmt)`, from a first byte that is not NUL. -/
def getPiece (c : UInt8) (rest : Rest) : Option (Piece × Rest) :=
  if c = ch '%' then
    let flags := processFlags {} rest.fmt
    (getFieldWidth flags.1 ⟨flags.2, rest.args⟩).bind fun width =>
      (getPrecision width.2.2).bind fun precision =>
        let qualifier := getQualifier precision.2.fmt
        getConversion width.2.1 width.1 precision.1 qualifier.1
          ⟨qualifier.2, precision.2.args⟩
  else some (.chars [c], rest)

/-- `case 'c'` -/
def putChar (out : Out) (flags : Flags) (fieldWidth : Int) (c : UInt8) : Out :=
  let padded := if flags.left then (fieldWidth, out) else whilePositive (ch ' ') fieldWidth out
  (whilePositive (ch ' ') padded.1 (padded.2.put c)).2

def strnlen (bytes : List UInt8) (count : Nat) : Nat :=
  ((bytes.take count).takeWhile (· ≠ 0)).length

/-- `case 's'`: the precision is a `size_t` to `strnlen`, and none is the greatest one. -/
def putString (out : Out) (flags : Flags) (fieldWidth precision : Int) (bytes : List UInt8) :
    Out :=
  let len := s32 (strnlen bytes (precision % 2 ^ 32).toNat)
  let padded := if flags.left then (fieldWidth, out) else whileAbove (ch ' ') len fieldWidth out
  (whileAbove (ch ' ') len padded.1 (padded.2.puts (bytes.take len.toNat))).2

def Piece.perform (out : Out) : Piece → Out
  | .chars text => out.puts text
  | .char flags fieldWidth c => putChar out flags fieldWidth c
  | .string flags fieldWidth precision bytes => putString out flags fieldWidth precision bytes
  | .number num base fieldWidth precision flags =>
    Vsprintf.number out num base fieldWidth precision flags
  | .count => out

/-- `str - buf` as an `int`. -/
def distance (buf str : Nat) : Int := s32 ((str : Int) - buf)

def Piece.stores (buf : Nat) (out : Out) : Piece → List Int
  | .count => [distance buf out.str]
  | _ => []

/-- The loop, with the values that `%n` stored. -/
def formatLoop (buf : Nat) : Nat → Rest → Out → List Int → Option (Out × List Int)
  | 0, _, _, _ => none
  | fuel + 1, rest, out, stores =>
    match rest.fmt with
    | [] => some (out, stores)
    | c :: fmt =>
      if c = 0 then some (out, stores)
      else
        (getPiece c ⟨fmt, rest.args⟩).bind fun piece =>
          formatLoop buf fuel piece.2 (piece.1.perform out)
            (stores ++ piece.1.stores buf out)

structure Result where
  value : Int
  mem : Nat → UInt8
  stores : List Int

/-- `end` and `size`, after `if (end < buf - 1)`. -/
def bounds (buf size : Nat) : Nat × Nat :=
  let last := (buf + size + (2 ^ 32 - 1)) % 2 ^ 32
  if last < (buf + (2 ^ 32 - 1)) % 2 ^ 32 then (2 ^ 32 - 1, (2 ^ 32 - buf) % 2 ^ 32)
  else (last, size)

/-- The trailing null byte. -/
def terminate (out : Out) (size : Nat) : Nat → UInt8 :=
  if out.str ≤ out.last then Function.update out.mem out.str 0
  else if 0 < size then Function.update out.mem out.last 0
  else out.mem

def vsnprintf (mem : Nat → UInt8) (buf size : Nat) (fmt : List UInt8) (args : List Arg) :
    Option Result :=
  -- `(int) size < 0`
  if 2 ^ 31 ≤ size then some ⟨0, mem, []⟩
  else
    let range := bounds buf size
    (formatLoop buf (fmt.length + 1) ⟨fmt, args⟩ ⟨buf, range.1, mem, []⟩ []).map fun done =>
      ⟨distance buf done.1.str, terminate done.1 range.2, done.2⟩

/-- `(i >= size) ? (size - 1) : i`, an unsigned comparison. -/
def clamp (i : Int) (size : Nat) : Int :=
  if (size : Int) ≤ i % 2 ^ 32 then s32 ((size : Int) - 1) else i

def vscnprintf (mem : Nat → UInt8) (buf size : Nat) (fmt : List UInt8) (args : List Arg) :
    Option Result :=
  (vsnprintf mem buf size fmt args).map fun done =>
    { done with value := clamp done.value size }

def scnprintf (mem : Nat → UInt8) (buf size : Nat) (fmt : List UInt8) (args : List Arg) :
    Option Result :=
  (vsnprintf mem buf size fmt args).map fun done =>
    { done with value := clamp done.value size }

/-- Everything the format and its arguments put out, whatever the buffer. -/
def fullOutput (fmt : List UInt8) (args : List Arg) : Option (List UInt8) :=
  (formatLoop 0 (fmt.length + 1) ⟨fmt, args⟩ ⟨0, 0, fun _ => 0, []⟩ []).map (·.1.emitted)

end MagxKernel.Vsprintf
