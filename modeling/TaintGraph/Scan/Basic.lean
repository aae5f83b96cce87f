/-
# Scans

A scan is a table of callables and calls that grows while files are read, the
memo of the distances asked for, and the journal of what happened. This module
holds the growth of a scan; `TaintGraph.Scan.Distance` and
`TaintGraph.Scan.Chains` hold what is computed from it.

The memo stays bounded by dropping only what a change is close to: a new call
drops the distances from its two ends, a callable that becomes known drops the
distances from its callers and from itself.

A writer that fails in the middle of an operation leaves the scan *poisoned*.
Every later operation that enters the graph reports this and then works on the
state it finds.

Key definitions: `Scan`, `Scan.ofLimits`, `Scan.setUp`, `Scan.enter`, `Scan.add`,
`Scan.addIfAbsent`, `Scan.addCall`, `Scan.census`.
-/
import TaintGraph.CallTable
import TaintGraph.Census
import TaintGraph.Limits
import TaintGraph.Memo

namespace TaintGraph

/-- The state of a scan. -/
structure Scan where
  /-- What the scan may cost. -/
  limits : Limits
  /-- The callables and calls found so far. -/
  table : CallTable := {}
  /-- The distances computed so far, as far as they are kept. -/
  memo : Memo
  /-- A writer has failed. -/
  poisoned : Bool := false
  /-- What has been reported, oldest first. -/
  journal : Array Event := #[]

/-- Why no scan is set up. -/
inductive SetUpError where
  /-- The limits are refused. -/
  | refused (e : LimitsError)
  /-- There is no storage for a memo of this capacity. -/
  | noRoom (capacity : Nat)
  deriving DecidableEq, Repr

namespace Scan

/-- An empty scan under the given limits, when there is storage for its memo. -/
def ofLimits (limits : Limits) : Except LimitsError Scan := do
  let limits ← limits.check
  if h : 0 < limits.maxDistances then
    return { limits, memo := Memo.empty limits.maxDistances h }
  else
    throw (.zero .distances)

/-- Set up an empty scan. Its memo takes the storage for all entries at once, and
`room` says for how many entries there is storage. That depends on the machine, so
the check of the limits does not look at it. -/
def setUp (room : Nat → Bool) (limits : Limits) : Except SetUpError Scan :=
  match ofLimits limits with
  | .error e => .error (.refused e)
  | .ok s => if room s.memo.capacity then .ok s else .error (.noRoom s.memo.capacity)

/-- An empty scan under the default limits. -/
def new : Scan :=
  { limits := {}, memo := Memo.empty 10000 (by decide) }

/-- Add events at the end of the journal. -/
def report (events : List Event) (s : Scan) : Scan :=
  { s with journal := s.journal ++ events }

/-- Enter the graph. On a poisoned scan this is reported. -/
def enter (s : Scan) : Scan :=
  if s.poisoned then s.report [.recovered] else s

/-- Drop the memoised distances from `source`. -/
def forget (source : String) (s : Scan) : Scan :=
  let (_, memo, events) := s.memo.dropFrom source
  { s with memo }.report events

/-- Drop the memoised distances from each of the given IDs in turn. -/
def forgetAll (sources : List String) (s : Scan) : Scan :=
  sources.foldl (fun s source => s.forget source) s

/-- Put a callable into the table. When its ID was not known before, chains
through it begin to count: the distances from its callers and from itself are
dropped. -/
def put (c : Callable) (s : Scan) : Scan :=
  let stale := if s.table.contains c.id then []
    else (s.table.incoming c.id).map Call.caller ++ [c.id]
  { s with table := s.table.insert c }.forgetAll stale

/-- Add a callable or replace the one with its ID. -/
def add (c : Callable) (s : Scan) : Scan :=
  s.enter.put c

/-- Add a callable unless its ID is known; also returns whether it was added. -/
def addIfAbsent (c : Callable) (s : Scan) : Bool × Scan :=
  if s.table.contains c.id then (false, s.enter) else (true, s.enter.put c)

/-- Record a call. The distances from both ends are dropped. -/
def addCall (c : Call) (s : Scan) : Scan :=
  let s := s.enter
  { s with table := s.table.record c }.forgetAll
    (if c.callee = c.caller then [c.caller] else [c.caller, c.callee])

/-- Counts over the table and the memo. -/
def census (s : Scan) : Census where
  callables := s.table.live
  calls := s.table.calls
  entryPoints := s.table.entryPoints.size
  sources := s.table.sources.size
  sinks := s.table.sinks.size
  reachable := s.table.callables.countP fun c => c.fromEntry.isSome
  cached := s.memo.size
  hits := s.memo.hits
  misses := s.memo.misses

/-- Take the events out of the journal. -/
def takeJournal (s : Scan) : List Event × Scan :=
  (s.journal.toList, { s with journal := #[] })

end Scan
end TaintGraph
