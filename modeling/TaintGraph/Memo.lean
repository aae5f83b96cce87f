/-
# The memo of distances

A bounded memo of distances, with least-recently-used eviction. The entries
stand in the order of their last use, the latest first; a look-up that hits
and a write both move their entry to the front, and a write that finds the
memo full drops the last entry. An entry may hold `none`: that there is no
chain is worth remembering too.

Beside the entries the memo keeps, for each source, the set of targets it holds
distances to, so that all distances from one ID can be dropped at once.

Key definitions: `Memo.find`, `Memo.write`, `Memo.dropFrom`, `Memo.clear`.
-/
import Std.Data.TreeMap
import Std.Data.TreeSet
import TaintGraph.Event

namespace TaintGraph

open Std (TreeMap TreeSet)

/-- A bounded memo of distances. -/
structure Memo where
  /-- How many entries it may hold. -/
  capacity : Nat
  /-- It may hold at least one. -/
  capacity_pos : 0 < capacity
  /-- The entries, the most recently used first. -/
  entries : List (Endpoints × Option Nat) := []
  /-- The targets held for each source. -/
  targets : TreeMap String (TreeSet String) := ∅
  /-- Look-ups that found an entry. -/
  hits : Nat := 0
  /-- Look-ups that found none. -/
  misses : Nat := 0

namespace Memo

/-- The memo without entries, where there is storage for `capacity` of them. -/
def empty (capacity : Nat) (h : 0 < capacity) : Memo :=
  { capacity, capacity_pos := h }

/-- How many entries the memo holds. -/
def size (m : Memo) : Nat :=
  m.entries.length

/-- What the memo holds for a pair, without counting as a use. -/
def peek? (m : Memo) (pair : Endpoints) : Option (Option Nat) :=
  m.entries.lookup pair

/-- The entries other than that of a pair. -/
def others (m : Memo) (pair : Endpoints) : List (Endpoints × Option Nat) :=
  m.entries.filter fun e => e.1 ≠ pair

/-- Look a pair up. A hit moves its entry to the front; hits and misses are
counted. -/
def find (pair : Endpoints) (m : Memo) : Option (Option Nat) × Memo :=
  match m.peek? pair with
  | some d => (some d, { m with entries := (pair, d) :: m.others pair, hits := m.hits + 1 })
  | none => (none, { m with misses := m.misses + 1 })

/-- Add the pair to the targets of its source. -/
def enter (pair : Endpoints) (targets : TreeMap String (TreeSet String)) :
    TreeMap String (TreeSet String) :=
  targets.insert pair.source ((targets.getD pair.source ∅).insert pair.target)

/-- Remove the pair from the targets of its source; a source without targets
is not kept. -/
def leave (pair : Endpoints) (targets : TreeMap String (TreeSet String)) :
    TreeMap String (TreeSet String) :=
  match targets[pair.source]? with
  | none => targets
  | some held =>
    let rest := held.erase pair.target
    if rest.isEmpty then targets.erase pair.source else targets.insert pair.source rest

/-- Write the distance of a pair and move its entry to the front. Of the other
entries as many stay as there is room for, the most recently used: a new pair
that finds the memo full pushes the last one out. -/
def write (pair : Endpoints) (distance : Option Nat) (m : Memo) : Memo × List Event :=
  let kept := (m.others pair).take (m.capacity - 1)
  let evicted := ((m.others pair).drop (m.capacity - 1)).map Prod.fst
  ({ m with
      entries := (pair, distance) :: kept
      targets := enter pair (evicted.foldl (fun targets old => leave old targets) m.targets) },
    evicted.map .evicted)

/-- Drop every distance from `source`; also returns how many there were. -/
def dropFrom (source : String) (m : Memo) : Nat × Memo × List Event :=
  match m.targets[source]? with
  | none => (0, m, [])
  | some held =>
    let kept := m.entries.filter fun e =>
      !(e.1.source == source && held.contains e.1.target)
    let count := m.entries.length - kept.length
    (count, { m with entries := kept, targets := m.targets.erase source },
      if 0 < count then [.invalidated count source] else [])

/-- Drop everything but the counts of hits and misses. -/
def clear (m : Memo) : Memo :=
  { m with entries := [], targets := ∅ }

end Memo

end TaintGraph
