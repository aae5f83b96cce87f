/-
# Questions about chains

The distance between two IDs is memoised; chains are enumerated afresh each
time, up to the limits of the scan.

A question for a distance uses the memo once or twice: it looks the pair up, and on
a miss it fills the distance in. The memo is free between the two uses, so another
question may come in there.

Key definitions: `Scan.lookUp`, `Scan.fill`, `Scan.distance`, `Scan.chainsToSinks`.
-/
import TaintGraph.CallTable.Chains
import TaintGraph.Scan.Basic

namespace TaintGraph
namespace Scan

/-- Enter the graph and look a pair up in the memo. -/
def lookUp (pair : Endpoints) (s : Scan) : Option (Option Nat) × Scan :=
  let s := s.enter
  let (found, memo) := s.memo.find pair
  (found, { s with memo })

/-- Compute the distance of a pair and write it to the memo. -/
def fill (pair : Endpoints) (s : Scan) : Option Nat × Scan :=
  let d := s.table.distance? pair.source pair.target
  let (memo, events) := s.memo.write pair d
  (d, { s with memo }.report events)

/-- The hops of a shortest chain from `source` to `target`, through the memo.
Every ID is no hop away from itself, known or not, and that is not memoised. -/
def distance (source target : String) (s : Scan) : Option Nat × Scan :=
  if source = target then (some 0, s)
  else
    match s.lookUp { source, target } with
    | (some d, s) => (d, s)
    | (none, s) => s.fill { source, target }

/-- The simple chains from `source` to a sink with at most `maxDepth` hops. It
is reported when there are as many as the limits allow. -/
def chainsToSinks (source : String) (maxDepth : Nat) (s : Scan) :
    List (List Callable) × Scan :=
  let s := s.enter
  let chains := s.table.chainsToSinks maxDepth s.limits.maxPaths source
  (chains.map s.table.resolve,
    if s.table.contains source ∧ s.limits.maxPaths ≤ chains.length then
      s.report [.enumerationStopped source s.limits.maxPaths]
    else s)

end Scan
end TaintGraph
