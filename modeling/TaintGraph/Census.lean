/-
# The census of a scan

Counts over the graph and over the memo of distances, taken at one moment.
-/
import TaintGraph.Single

namespace TaintGraph

/-- Counts over a scan. -/
structure Census where
  /-- Known callables. -/
  callables : Nat := 0
  /-- Recorded calls. -/
  calls : Nat := 0
  /-- Entry points. -/
  entryPoints : Nat := 0
  /-- Sources. -/
  sources : Nat := 0
  /-- Sinks. -/
  sinks : Nat := 0
  /-- Callables with a distance from an entry point. -/
  reachable : Nat := 0
  /-- Memoised distances. -/
  cached : Nat := 0
  /-- Look-ups that the memo answered. -/
  hits : Nat := 0
  /-- Look-ups that it could not answer. -/
  misses : Nat := 0
  deriving DecidableEq, Repr

/-- The share of look-ups that the memo answered; zero before the first. -/
def Census.hitRate (c : Census) : Single :=
  if c.hits + c.misses = 0 then 0
  else Single.ofNat c.hits / Single.ofNat (c.hits + c.misses)

end TaintGraph
