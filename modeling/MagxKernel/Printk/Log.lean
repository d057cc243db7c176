import MagxKernel.Lib.RingCells
import MagxKernel.Lib.MachineInt

namespace MagxKernel.Printk

open MachineInt (s32)

/-- The code of a character. -/
abbrev Byte := Nat

def newline : Byte := 10

/-- An unsigned long of 32 bits. -/
def u32 (value : Nat) : Nat := value % 2 ^ 32

/-- `left - right` in unsigned longs. -/
def sub32 (left right : Nat) : Nat := (left + 2 ^ 32 - right) % 2 ^ 32

/-- The log ring. `log_buf_len` is a power of two in an `int`; the indices run freely
and are masked when they are used. `msgLevel` is the static variable of
`call_console_drivers`. -/
structure Log where
  logBufShift : Fin 31
  logBuf : Nat → Byte
  logStart : Nat
  conStart : Nat
  logEnd : Nat
  loggedChars : Nat
  msgLevel : Int

def Log.logBufLen (log : Log) : Nat := 2 ^ log.logBufShift.val

/-- The log at boot. -/
def bootLog (logBufShift : Fin 31) : Log := ⟨logBufShift, fun _ => 0, 0, 0, 0, 0, -1⟩

/-- `console_printk`: the level for the consoles and that of messages without one. -/
structure ConsolePrintk where
  consoleLoglevel : Int
  defaultMessageLoglevel : Int

namespace Log

def at_ (log : Log) (index : Nat) : Byte := log.logBuf (index % log.logBufLen)

/-- The characters from one index on. -/
def text (log : Log) (start count : Nat) : List Byte :=
  RingCells.window log.logBuf log.logBufLen start count

/-- How much waits for the console. -/
def pending (log : Log) : Nat := sub32 log.logEnd log.conStart

def emitLogChar (log : Log) (c : Byte) : Log :=
  let logEnd := u32 (log.logEnd + 1)
  { log with
    logBuf := Function.update log.logBuf (log.logEnd % log.logBufLen) c
    logEnd := logEnd
    logStart :=
      if log.logBufLen < sub32 logEnd log.logStart then sub32 logEnd log.logBufLen
      else log.logStart
    conStart :=
      if log.logBufLen < sub32 logEnd log.conStart then sub32 logEnd log.logBufLen
      else log.conStart
    loggedChars := if log.loggedChars < log.logBufLen then log.loggedChars + 1
      else log.loggedChars }

/-- The write to each console driver: where in `log_buf` it starts and its count. -/
abbrev Write := Nat × Nat

/-- `_call_console_drivers` with a console present: the writes of the calls of
`__call_console_drivers`. -/
def callRange (log : Log) (levels : ConsolePrintk) (start stop : Nat) (msgLogLevel : Int) :
    List Write :=
  if msgLogLevel < levels.consoleLoglevel ∧ start ≠ stop then
    if stop % log.logBufLen < start % log.logBufLen then
      -- wrapped write
      [(start % log.logBufLen, log.logBufLen - start % log.logBufLen),
        (0, stop % log.logBufLen)]
    else [(start % log.logBufLen, sub32 stop start)]
  else []

/-- The level tag at an index of the ring, if there is one before `stop`. -/
def tagAt (log : Log) (cur stop : Nat) : Bool :=
  decide (2 < sub32 stop cur ∧ log.at_ cur = '<'.toNat ∧ '0'.toNat ≤ log.at_ (cur + 1) ∧
    log.at_ (cur + 1) ≤ '7'.toNat ∧ log.at_ (cur + 2) = '>'.toNat)

/-- The inner loop of `call_console_drivers`: past the next newline, or to the end. -/
def lineEnd (log : Log) (stop : Nat) : Nat → Nat → Option (Nat × Bool)
  | 0, _ => none
  | fuel + 1, cur =>
      if cur = stop then some (cur, false)
      else if log.at_ cur = newline then some (u32 (cur + 1), true)
      else log.lineEnd stop fuel (u32 (cur + 1))

/-- The outer loop of `call_console_drivers`: the writes and the level it ends with. -/
def driveLines (log : Log) (levels : ConsolePrintk) (stop : Nat) :
    Nat → Nat → Nat → Int → Option (List Write × Int)
  | 0, _, _, _ => none
  | fuel + 1, cur, startPrint, msgLevel =>
      if cur = stop then
        some (log.callRange levels startPrint stop msgLevel, msgLevel)
      else
        let tagged := msgLevel < 0 ∧ log.tagAt cur stop = true
        let msgLevel := if tagged then (log.at_ (cur + 1) : Int) - '0'.toNat else msgLevel
        let startPrint := if tagged then u32 (cur + 3) else startPrint
        let cur := if tagged then u32 (cur + 3) else cur
        (log.lineEnd stop (fuel + 1) cur).bind fun (next, ended) =>
          if ended then
            let lineLevel := if msgLevel < 0 then levels.defaultMessageLoglevel else msgLevel
            (log.driveLines levels stop fuel next next (-1)).map fun (writes, level) =>
              (log.callRange levels startPrint next lineLevel ++ writes, level)
          else log.driveLines levels stop fuel next startPrint msgLevel

/-- `call_console_drivers`; `BUG()` when the span is negative. -/
def callConsoleDrivers (log : Log) (levels : ConsolePrintk) (start stop : Nat) :
    Option (List Write × Int) :=
  if 0 < s32 ((start : Int) - stop) then none
  else log.driveLines levels stop (sub32 stop start + 2) start start log.msgLevel

/-- One turn of `release_console_sem` with something to print. -/
def flush (log : Log) (levels : ConsolePrintk) : Option (List Write × Log) :=
  if log.conStart = log.logEnd then some ([], log)
  else
    (log.callConsoleDrivers levels log.conStart log.logEnd).map fun (writes, level) =>
      (writes, { log with conStart := log.logEnd, msgLevel := level })

end Log

end MagxKernel.Printk
