/-!
# Configurations
-/

namespace Clausify

/-- How encodings are run and solved. -/
structure Config where
  /-- Whether the invariants are checked at each clause and at the end of a run. -/
  checkInvariants : Bool := true
  solverName : String := "minisat22"
  /-- How many solutions to look for at most. -/
  maxSolutions : Option Int := none
  /-- Whether contexts are recorded as events. -/
  traceContexts : Bool := true
deriving DecidableEq

end Clausify
