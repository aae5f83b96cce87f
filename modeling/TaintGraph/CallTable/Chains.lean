/-
# Chains of calls through a table

What can be asked about chains of calls between known callables: how far each
callable is from the entry points and from the sinks, the shortest chain between
two IDs, the sinks that can be reached, and all simple chains to sinks.

All but the last are read off a breadth-first search, the last off a walk. A
search finds known callables only, so it has no more levels than the table has
rows.

Key definitions: `CallTable.reachFrom`, `CallTable.reachAll`,
`CallTable.shortestChain?`, `CallTable.distance?`, `CallTable.sinksFrom`,
`CallTable.chainsToSinks`.
-/
import TaintGraph.CallTable
import TaintGraph.Search
import TaintGraph.Walk

namespace TaintGraph

open Std (TreeSet)

namespace CallTable

/-- The search from known IDs along `next`. -/
def reach (t : CallTable) (next : String → List String) (seeds : List String) : Search :=
  Search.run next t.rows.size (Search.start (seeds.filter t.contains))

/-- The IDs that are no hop away in a direction. -/
def seeds (t : CallTable) (d : Direction) : TreeSet String :=
  match d with
  | .fromEntry => t.entryPoints
  | .toSink => t.sinks

/-- The IDs one hop further than an ID: those it calls when the hops are counted
from the entry points, and those that call it when they are counted to the
sinks. -/
def further (t : CallTable) (d : Direction) : String → List String :=
  match d with
  | .fromEntry => t.successors
  | .toSink => t.predecessors

/-- The search from all seeds of a direction. -/
def reachAll (t : CallTable) (d : Direction) : Search :=
  t.reach (t.further d) (t.seeds d).toList

/-- The search from one ID along the calls; it is empty when the ID is not
known. -/
def reachFrom (t : CallTable) (source : String) : Search :=
  t.reach t.successors [source]

/-- A chain of fewest hops from `source` to `target`, both included. Among those
of equal length the one whose calls were recorded first. -/
def shortestChain? (t : CallTable) (source target : String) : Option (List String) :=
  (t.reachFrom source).chainTo? target

/-- The hops of a shortest chain. -/
def distance? (t : CallTable) (source target : String) : Option Nat :=
  (t.shortestChain? source target).map fun chain => chain.length - 1

/-- The sinks that some chain from `source` reaches, by ID; never `source`
itself. -/
def sinksFrom (t : CallTable) (source : String) : List String :=
  (t.reachFrom source).visits.keys.filter fun id => id ≠ source ∧ t.isSink id

/-- The simple chains from `source` to a sink with at most `maxDepth` hops, in
the order of their calls, and at most `maxPaths` of them. -/
def chainsToSinks (t : CallTable) (maxDepth maxPaths : Nat) (source : String) :
    List (List String) :=
  if t.contains source then Walk.chains t.successors t.isSink maxDepth maxPaths source else []

/-- The callables with the given IDs. -/
def resolve (t : CallTable) (ids : List String) : List Callable :=
  ids.filterMap t.callable?

/-- The table with every distance in a direction as the search gives it. -/
def withDistances (d : Direction) (s : Search) (t : CallTable) : CallTable :=
  t.mapCallables fun id c => c.setHops d ((s.visits[id]?).map Visit.depth)

end CallTable
end TaintGraph
