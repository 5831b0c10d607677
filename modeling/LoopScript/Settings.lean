/-! Settings of a run and of the log. -/

namespace LoopScript

/-- How programs are run: whether labels are checked first, and how often a loop may repeat. -/
structure RunSettings where
  checkLabels : Bool := true
  maxLoopIterations : Option Nat := none
deriving DecidableEq

structure LogSettings where
  filter : String := "warn"
deriving DecidableEq

structure Settings where
  run : RunSettings := {}
  log : LogSettings := {}
deriving DecidableEq

end LoopScript
