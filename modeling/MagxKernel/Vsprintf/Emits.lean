import MagxKernel.Vsprintf.Format

namespace MagxKernel.Vsprintf

open Option
open MachineInt (s32)

/-- A step of the formatter is the put of fixed characters. -/
def Emits (step : Out → Out) : Prop := ∃ text, ∀ out, step out = out.puts text

/-- The same for a padding loop, which also leaves a fixed count. -/
def EmitsCount (step : Out → Int × Out) : Prop :=
  ∃ count text, ∀ out, step out = (count, out.puts text)

theorem Emits.id : Emits (fun out => out) := ⟨[], fun _ => rfl⟩

theorem Emits.put (c : UInt8) : Emits (fun out => out.put c) := ⟨[c], fun _ => rfl⟩

theorem Emits.puts (text : List UInt8) : Emits (fun out => out.puts text) := ⟨text, fun _ => rfl⟩

theorem Emits.comp {first second : Out → Out} (before : Emits first) (after : Emits second) :
    Emits (fun out => second (first out)) := by
  obtain ⟨text, same⟩ := before
  obtain ⟨more, agree⟩ := after
  refine ⟨text ++ more, fun out => ?_⟩
  simp [same, agree, Out.puts_append]

theorem EmitsCount.pure (count : Int) : EmitsCount (fun out => (count, out)) :=
  ⟨count, [], fun _ => rfl⟩

theorem EmitsCount.whileAbove (c : UInt8) (bound count : Int) :
    EmitsCount (whileAbove c bound count) :=
  ⟨_, _, whileAbove_spec c bound count⟩

theorem EmitsCount.whilePositive (c : UInt8) (count : Int) :
    EmitsCount (whilePositive c count) :=
  ⟨_, _, whilePositive_spec c count⟩

theorem EmitsCount.ite {first second : Out → Int × Out} (chosen : Bool)
    (yes : EmitsCount first) (no : EmitsCount second) :
    EmitsCount (fun out => if chosen then first out else second out) := by
  cases chosen with
  | true => exact yes
  | false => exact no

/-- Going on from a padding loop with its count. -/
theorem EmitsCount.bind {first : Out → Int × Out} {second : Int → Out → Out}
    (before : EmitsCount first) (after : ∀ count, Emits (second count)) :
    Emits (fun out => second (first out).1 (first out).2) := by
  obtain ⟨count, text, same⟩ := before
  have next : Emits (fun out => second count (out.puts text)) :=
    (Emits.puts text).comp (after count)
  simpa only [same] using next

theorem EmitsCount.comp {first : Out → Out} {second : Out → Int × Out} (before : Emits first)
    (after : EmitsCount second) : EmitsCount (fun out => second (first out)) := by
  obtain ⟨text, same⟩ := before
  obtain ⟨count, more, agree⟩ := after
  refine ⟨count, text ++ more, fun out => ?_⟩
  simp [same, agree, Out.puts_append]

theorem EmitsCount.out {step : Out → Int × Out} (emits : EmitsCount step) :
    Emits (fun out => (step out).2) := by
  obtain ⟨count, text, same⟩ := emits
  exact ⟨text, fun out => by simp only [same]⟩

variable (flags : Flags)

theorem putChar_emits (fieldWidth : Int) (c : UInt8) :
    Emits (fun out => putChar out flags fieldWidth c) := by
  have pad := EmitsCount.ite flags.left (EmitsCount.pure fieldWidth)
    (EmitsCount.whilePositive (ch ' ') fieldWidth)
  exact pad.bind fun width =>
    (EmitsCount.comp (Emits.put c) (EmitsCount.whilePositive (ch ' ') width)).out

theorem putString_emits (fieldWidth precision : Int) (bytes : List UInt8) :
    Emits (fun out => putString out flags fieldWidth precision bytes) := by
  unfold putString
  generalize s32 (strnlen bytes (precision % 2 ^ 32).toNat) = len
  have pad := EmitsCount.ite flags.left (EmitsCount.pure fieldWidth)
    (EmitsCount.whileAbove (ch ' ') len fieldWidth)
  exact pad.bind fun width =>
    (EmitsCount.comp (Emits.puts _) (EmitsCount.whileAbove (ch ' ') len width)).out

theorem numberPrefix_emits (base : Nat) (type : Flags) : Emits (numberPrefix base type) := by
  unfold numberPrefix
  cases type.special with
  | false => exact Emits.id
  | true =>
    simp only [if_true]
    by_cases octal : base = 8
    · simpa only [octal, if_true] using Emits.put (ch '0')
    · simp only [octal, if_false]
      by_cases hex : base = 16
      · simpa only [hex, if_true] using
          (Emits.put (ch '0')).comp (Emits.put (digit type.large 33))
      · simpa only [hex, if_false] using Emits.id

theorem sign_emits (sign : Option UInt8) : Emits (fun out => sign.elim out out.put) := by
  cases sign with
  | none => exact Emits.id
  | some c => exact Emits.put c

theorem numberDigits_emits (tmp : List UInt8) (precision size : Int) :
    Emits (numberDigits tmp precision size) := by
  have zeros := (EmitsCount.whileAbove (ch '0') tmp.length precision).out
  have digits := zeros.comp (Emits.puts tmp.reverse)
  exact digits.comp (EmitsCount.whileAbove (ch ' ') 0 size).out

theorem numberBody_emits (sign : Option UInt8) (tmp : List UInt8) (base : Nat) (type : Flags)
    (precision size : Int) : Emits (numberBody sign tmp base type precision size) := by
  have head := (sign_emits sign).comp (numberPrefix_emits base type)
  have fill := EmitsCount.ite (!type.left)
    (EmitsCount.whileAbove (if type.zeropad then ch '0' else ch ' ') 0 size)
    (EmitsCount.pure size)
  exact (EmitsCount.comp head fill).bind (numberDigits_emits tmp precision)

theorem number_emits (num : BitVec 64) (base : Nat) (size precision : Int) (type : Flags) :
    Emits (fun out => number out num base size precision type) := by
  unfold number
  generalize (if type.left then { type with zeropad := false } else type) = type
  have pad (room : Int) := EmitsCount.ite (!type.zeropad && !type.left)
    (EmitsCount.whileAbove (ch ' ') 0 room) (EmitsCount.pure room)
  exact (pad _).bind (numberBody_emits _ _ base type _)

theorem Piece.perform_emits (piece : Piece) : Emits (piece.perform) := by
  cases piece with
  | chars text => exact Emits.puts text
  | char flags fieldWidth c => exact putChar_emits flags fieldWidth c
  | string flags fieldWidth precision bytes =>
    exact putString_emits flags fieldWidth precision bytes
  | number num base fieldWidth precision flags =>
    exact number_emits num base fieldWidth precision flags
  | count => exact Emits.id

/-- The loop either refuses its arguments or puts out fixed characters. -/
theorem formatLoop_emits (fuel : Nat) (rest : Rest) :
    (∀ buf out stores, formatLoop buf fuel rest out stores = none) ∨
      ∃ text, ∀ buf out stores, ∃ stores',
        formatLoop buf fuel rest out stores = some (out.puts text, stores') := by
  induction fuel generalizing rest with
  | zero => exact .inl fun _ _ _ => rfl
  | succ fuel ih =>
    simp only [formatLoop]
    cases rest.fmt with
    | nil => exact .inr ⟨[], fun _ _ stores => ⟨stores, rfl⟩⟩
    | cons c fmt =>
      by_cases nul : c = 0
      · simp only [nul, if_true]
        exact .inr ⟨[], fun _ _ stores => ⟨stores, rfl⟩⟩
      · simp only [nul, if_false]
        cases getPiece c ⟨fmt, rest.args⟩ with
        | none => exact .inl fun _ _ _ => rfl
        | some piece =>
          obtain ⟨text, performed⟩ := piece.1.perform_emits
          rcases ih piece.2 with refused | ⟨more, returned⟩
          · exact .inl fun _ _ _ => refused _ _ _
          · refine .inr ⟨text ++ more, fun buf out stores => ?_⟩
            obtain ⟨stores', same⟩ :=
              returned buf (piece.1.perform out) (stores ++ piece.1.stores buf out)
            refine ⟨stores', ?_⟩
            rw [Out.puts_append, ← performed]
            exact same

theorem formatLoop_output {fmt s : List UInt8} {args : List Arg}
    (output : fullOutput fmt args = some s) (buf : Nat) (out : Out) (stores : List Int) :
    ∃ stores', formatLoop buf (fmt.length + 1) ⟨fmt, args⟩ out stores =
      some (out.puts s, stores') := by
  unfold fullOutput at output
  rcases formatLoop_emits (fmt.length + 1) ⟨fmt, args⟩ with refused | ⟨text, returned⟩
  · rw [refused] at output
    cases output
  · obtain ⟨_, blank⟩ := returned 0 ⟨0, 0, fun _ => 0, []⟩ []
    rw [blank, map_some, Out.puts_emitted, List.nil_append] at output
    cases output
    exact returned buf out stores

end MagxKernel.Vsprintf
