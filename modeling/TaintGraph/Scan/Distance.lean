/-
# Passes over a scan

A pass measures one distance of every callable afresh: the hops from the nearest
entry point, or the hops to the nearest sink. Callables that are not reached
lose the distance they had.

Key definitions: `Scan.pass`, `Scan.entryPass`, `Scan.sinkPass`, `Scan.failingEntryPass`.
-/
import TaintGraph.CallTable.Chains
import TaintGraph.Scan.Basic

namespace TaintGraph
namespace Scan

/-- Measure how far every callable is in a direction. Returns how many are
reached, the seeds included. -/
def pass (d : Direction) (s : Scan) : Nat × Scan :=
  let s := s.enter
  let found := s.table.reachAll d
  let reached := found.visits.size
  (reached,
    { s with table := s.table.withDistances d found }.report
      [.pass d (s.table.seeds d).size reached s.table.live])

/-- Measure how far every callable is from the entry points. -/
def entryPass (s : Scan) : Nat × Scan :=
  s.pass .fromEntry

/-- Measure how far every callable is from a sink. -/
def sinkPass (s : Scan) : Nat × Scan :=
  s.pass .toSink

/-- The pass from the entry points by a writer that fails at its end: all
distances are stored by then, and the scan is poisoned. -/
def failingEntryPass (s : Scan) : Scan :=
  { s.entryPass.2 with poisoned := true }

end Scan
end TaintGraph
