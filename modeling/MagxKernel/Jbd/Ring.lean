import MagxKernel.Jbd.Reads
import MagxKernel.Lib.Walks

namespace MagxKernel.Jbd

open Option
open Walks (walk)

section Headers

variable {journal : Journal} {log : Nat → Block} {transaction : BitVec 32} {position : Nat}

end Headers

section Passes

variable {journal : Journal} {pass : PassType} {stop : BitVec 32}

variable {dev : Nat → Block} {fs : BitVec 32 → Block}

end Passes

/-- The pass ends; a later one is told to stop where the first one ended. -/
def Ends (journal : Journal) (dev : Nat → Block) (fs : BitVec 32 → Block) (pass : PassType) :
    Prop :=
  ∀ stop revoke,
    (pass ≠ .scan → ∃ revoke turns state,
      doOnePass journal .scan 0 dev revoke fs turns = .returned 0 stop state) →
        ∃ turns, doOnePass journal pass stop dev revoke fs turns ≠ .running

end MagxKernel.Jbd
