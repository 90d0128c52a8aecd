import ProcessForge.Failure
import ProcessForge.Notice

/-! Work that reports and may stop. Reports made before a failure are kept. -/

namespace ProcessForge

/-- A computation on a state that may stop; the state survives a failure. -/
abbrev WorkOn (σ α : Type) := ExceptT Failure (StateM σ) α

abbrev Work (α : Type) := WorkOn (List Notice) α

namespace Work

def note (notice : Notice) : Work Unit := modify (· ++ [notice])

def ofExcept {σ α : Type} (result : Except Failure α) : WorkOn σ α :=
  match result with
  | .ok value => pure value
  | .error failure => throw failure

/-- Runs a computation: its result and its reports. -/
def run {α : Type} (work : Work α) : Except Failure α × List Notice := Id.run (StateT.run (ExceptT.run work) [])

end Work

end ProcessForge
