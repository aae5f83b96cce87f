/-
# The table of callables and calls

One row for every ID that has been named, as a callable or as an end of a
call. A row holds the callable once it is known, and the calls out of and into
its ID in the order they were recorded. A call may name an ID that has no
callable: its row waits, and the call counts as soon as the callable arrives.

The table also counts its callables and its calls, and keeps the IDs of each
special role in order.

Key definitions: `Row`, `CallTable`, `CallTable.insert`, `CallTable.record`,
`CallTable.successors`, `CallTable.predecessors`.
-/
import Std.Data.TreeMap
import Std.Data.TreeSet
import TaintGraph.Call
import TaintGraph.Callable

namespace TaintGraph

open Std (TreeMap TreeSet)

/-- What is known about one ID. -/
structure Row where
  /-- The callable, once it has been added. -/
  callable : Option Callable := none
  /-- The calls it makes, in the order they were recorded. -/
  outgoing : Array Call := #[]
  /-- The calls made to it, in the order they were recorded. -/
  incoming : Array Call := #[]
  deriving Inhabited

namespace Row

/-- The row with one more call made. -/
def pushOutgoing (c : Call) (r : Row) : Row :=
  { r with outgoing := r.outgoing.push c }

/-- The row with one more call received. -/
def pushIncoming (c : Call) (r : Row) : Row :=
  { r with incoming := r.incoming.push c }

end Row

/-- Callables and the calls between them. -/
structure CallTable where
  /-- A row for every ID named so far. -/
  rows : TreeMap String Row := ∅
  /-- How many rows hold a callable. -/
  live : Nat := 0
  /-- How many calls have been recorded. -/
  calls : Nat := 0
  /-- The IDs of the entry points. -/
  entryPoints : TreeSet String := ∅
  /-- The IDs of the sources. -/
  sources : TreeSet String := ∅
  /-- The IDs of the sinks. -/
  sinks : TreeSet String := ∅

namespace CallTable

/-- The row of an ID; an ID never named has an empty one. -/
def row (t : CallTable) (id : String) : Row :=
  t.rows.getD id {}

/-- The callable with this ID. -/
def callable? (t : CallTable) (id : String) : Option Callable :=
  (t.row id).callable

/-- Whether a callable has this ID. -/
def contains (t : CallTable) (id : String) : Bool :=
  (t.callable? id).isSome

/-- Whether the callable with this ID is a sink. -/
def isSink (t : CallTable) (id : String) : Bool :=
  (t.callable? id).any Callable.isSink

/-- All callables, by ID. -/
def callables (t : CallTable) : List Callable :=
  t.rows.values.filterMap Row.callable

/-- The calls out of an ID, in the order they were recorded. -/
def outgoing (t : CallTable) (id : String) : List Call :=
  (t.row id).outgoing.toList

/-- The calls into an ID, in the order they were recorded. -/
def incoming (t : CallTable) (id : String) : List Call :=
  (t.row id).incoming.toList

/-- The IDs called from an ID, one for each call whose callee is known. -/
def successors (t : CallTable) (id : String) : List String :=
  ((t.outgoing id).map Call.callee).filter t.contains

/-- The IDs that call an ID, one for each call whose caller is known. -/
def predecessors (t : CallTable) (id : String) : List String :=
  ((t.incoming id).map Call.caller).filter t.contains

/-- The callables with the given IDs, each once, in the order of their first
mention. -/
def distinct (t : CallTable) (ids : List String) : List Callable :=
  ids.eraseDups.filterMap t.callable?

/-- The callables that an ID calls, in the order of their first call. -/
def callees (t : CallTable) (id : String) : List Callable :=
  t.distinct (t.successors id)

/-- The callables that call an ID, in the order of their first call. -/
def callers (t : CallTable) (id : String) : List Callable :=
  t.distinct (t.predecessors id)

/-- The callables with the IDs of a role's list, by ID. -/
def listed (t : CallTable) (ids : TreeSet String) : List Callable :=
  ids.toList.filterMap t.callable?

/-- Put the ID on the list of its role. -/
def enlist (role : Role) (id : String) (t : CallTable) : CallTable :=
  match role with
  | .regular => t
  | .entryPoint => { t with entryPoints := t.entryPoints.insert id }
  | .source => { t with sources := t.sources.insert id }
  | .sink => { t with sinks := t.sinks.insert id }

/-- Take the ID off the list of a role. -/
def delist (role : Role) (id : String) (t : CallTable) : CallTable :=
  match role with
  | .regular => t
  | .entryPoint => { t with entryPoints := t.entryPoints.erase id }
  | .source => { t with sources := t.sources.erase id }
  | .sink => { t with sinks := t.sinks.erase id }

/-- Make room for a callable: a new one is counted, one that changes its role
leaves the list of the old role. -/
def makeRoom (c : Callable) (t : CallTable) : CallTable :=
  match t.callable? c.id with
  | none => { t with live := t.live + 1 }
  | some old => if old.role = c.role then t else t.delist old.role c.id

/-- Add a callable, or replace the one with its ID. Its distances become those
that its role alone gives; the calls of its row stay. -/
def insert (c : Callable) (t : CallTable) : CallTable :=
  let t' := (t.makeRoom c).enlist c.role c.id
  { t' with rows := t'.rows.insert c.id { t.row c.id with callable := some c.reset } }

/-- Record a call. Neither end needs to be known. -/
def record (c : Call) (t : CallTable) : CallTable :=
  { t with
    rows := (t.rows.alter c.caller fun r => some (Row.pushOutgoing c (r.getD {}))).alter c.callee
      fun r => some (Row.pushIncoming c (r.getD {}))
    calls := t.calls + 1 }

/-- Change every callable by a function of its ID. -/
def mapCallables (f : String → Callable → Callable) (t : CallTable) : CallTable :=
  { t with rows := t.rows.map fun id r => { r with callable := r.callable.map (f id) } }

end CallTable

end TaintGraph
