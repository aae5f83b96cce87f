/-
# Endpoints

The two ends of a call chain, in order: distances are asked for and memoised
by such a pair.
-/

namespace TaintGraph

/-- Where a chain starts and where it ends. -/
structure Endpoints where
  /-- The ID at which the chain starts. -/
  source : String
  /-- The ID at which the chain ends. -/
  target : String
  deriving DecidableEq, Repr

/-- The pair as shown in reports. -/
def Endpoints.label (e : Endpoints) : String :=
  e.source ++ ":" ++ e.target

end TaintGraph
