/-
# Requests to a scan

Everything that can be asked of a scan, as data, and what it answers. A run is a
list of requests performed in order; the states a scan can be in are those that
runs lead to.

Key definitions: `Request`, `Reply`, `Scan.perform`, `Scan.run`.
-/
import TaintGraph.Ingest
import TaintGraph.Scan.Chains
import TaintGraph.Scan.Distance
import TaintGraph.Score

namespace TaintGraph

/-- Something asked of a scan. -/
inductive Request where
  /-- Add a callable or replace the one with its ID. -/
  | add (c : Callable)
  /-- Add a callable unless its ID is known. -/
  | addIfAbsent (c : Callable)
  /-- Record a call. -/
  | addCall (c : Call)
  /-- Add a free function found in a file. -/
  | declareFunction (f : SourceFile) (name : String) (line : UInt32) (role : Role)
  /-- Add a method found in a file. -/
  | declareMethod (f : SourceFile) (cls name : String) (line : UInt32) (role : Role)
  /-- Record a call found in a file. -/
  | recordCall (k : SinkRegistry) (f : SourceFile) (caller : String) (t : Target) (site : Site)
  /-- Measure the distances from the entry points. -/
  | entryPass
  /-- Measure the distances to the sinks. -/
  | sinkPass
  /-- Measure the distances from the entry points and fail at the end. -/
  | failingEntryPass
  /-- The callable with an ID. -/
  | callable (id : String)
  /-- Whether an ID is known. -/
  | contains (id : String)
  /-- The callables that an ID calls. -/
  | callees (id : String)
  /-- The callables that call an ID. -/
  | callers (id : String)
  /-- The calls out of an ID. -/
  | outgoing (id : String)
  /-- The calls into an ID. -/
  | incoming (id : String)
  /-- All entry points. -/
  | entryPoints
  /-- All sources. -/
  | sources
  /-- All sinks. -/
  | sinks
  /-- How many callables are known. -/
  | callableCount
  /-- How many calls are recorded. -/
  | callCount
  /-- The limits of the scan. -/
  | limits
  /-- The counts over the scan. -/
  | census
  /-- The hops of a shortest chain. -/
  | distance (source target : String)
  /-- A shortest chain. -/
  | shortestChain (source target : String)
  /-- The sinks that chains from an ID reach. -/
  | sinksFrom (source : String)
  /-- The simple chains to sinks, of at most the given number of hops or, when
  there is none, of what the limits allow. -/
  | chainsToSinks (source : String) (maxDepth : Option Nat)
  /-- The score of an ID. -/
  | score (id : String)
  /-- The callables with the highest scores. -/
  | ranking (limit : Nat)

/-- What a scan answers. -/
inductive Reply where
  /-- Done. -/
  | done
  /-- Yes or no. -/
  | truth (b : Bool)
  /-- A number. -/
  | count (n : Nat)
  /-- A callable, if there is one. -/
  | callable (c : Option Callable)
  /-- Callables, in order. -/
  | callables (cs : List Callable)
  /-- Calls, in order. -/
  | calls (cs : List Call)
  /-- The limits. -/
  | limits (l : Limits)
  /-- The counts. -/
  | census (c : Census)
  /-- A distance, if there is one. -/
  | distance (d : Option Nat)
  /-- A chain, if there is one. -/
  | chain (cs : Option (List Callable))
  /-- Chains, in order. -/
  | chains (cs : List (List Callable))
  /-- A score. -/
  | score (s : Single)
  /-- Callables with their scores, in order. -/
  | ranking (ps : List (Callable × Single))

namespace Scan

/-- Answer from the table as it is. -/
def ask (s : Scan) (answer : CallTable → Reply) : Reply × Scan :=
  (answer s.table, s.enter)

/-- Answer a request. -/
def perform (s : Scan) : Request → Reply × Scan
  | .add c => (.done, s.add c)
  | .addIfAbsent c => let (added, s) := s.addIfAbsent c; (.truth added, s)
  | .addCall c => (.done, s.addCall c)
  | .declareFunction f name line role => (.done, f.declareFunction name line role s)
  | .declareMethod f cls name line role => (.done, f.declareMethod cls name line role s)
  | .recordCall k f caller t site => (.done, SourceFile.recordCall k f caller t site s)
  | .entryPass => let (n, s) := s.entryPass; (.count n, s)
  | .sinkPass => let (n, s) := s.sinkPass; (.count n, s)
  | .failingEntryPass => (.done, s.failingEntryPass)
  | .callable id => s.ask fun t => .callable (t.callable? id)
  | .contains id => s.ask fun t => .truth (t.contains id)
  | .callees id => s.ask fun t => .callables (t.callees id)
  | .callers id => s.ask fun t => .callables (t.callers id)
  | .outgoing id => s.ask fun t => .calls (t.outgoing id)
  | .incoming id => s.ask fun t => .calls (t.incoming id)
  | .entryPoints => s.ask fun t => .callables (t.listed t.entryPoints)
  | .sources => s.ask fun t => .callables (t.listed t.sources)
  | .sinks => s.ask fun t => .callables (t.listed t.sinks)
  | .callableCount => s.ask fun t => .count t.live
  | .callCount => s.ask fun t => .count t.calls
  | .limits => (.limits s.limits, s)
  | .census => (.census s.census, s.enter)
  | .distance source target => let (d, s) := s.distance source target; (.distance d, s)
  | .shortestChain source target =>
    s.ask fun t => .chain ((t.shortestChain? source target).map t.resolve)
  | .sinksFrom source => s.ask fun t => .callables (t.resolve (t.sinksFrom source))
  | .chainsToSinks source maxDepth =>
    let (cs, s) := s.chainsToSinks source (maxDepth.getD s.limits.maxPathLength)
    (.chains cs, s)
  | .score id => s.ask fun t => .score ((t.callable? id).elim 0 Callable.score)
  | .ranking limit => s.ask fun t => .ranking (TaintGraph.ranking limit t.callables)

/-- The scan after a list of requests, performed in order. -/
def run (s : Scan) (requests : List Request) : Scan :=
  requests.foldl (fun s r => (s.perform r).2) s

end Scan
end TaintGraph
