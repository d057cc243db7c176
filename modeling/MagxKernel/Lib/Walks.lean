import Mathlib.Data.Fintype.Pigeonhole

namespace MagxKernel.Walks

open Function

variable {α : Type} {next : α → Option α} {start : α}

/-- Follow a partial successor function for a number of steps. -/
def walk (next : α → Option α) (count : Nat) (start : α) : Option α :=
  (fun place => place.bind next)^[count] (some start)

end MagxKernel.Walks
