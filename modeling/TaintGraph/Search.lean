/-
# Breadth-first search

A search visits IDs level by level. Every visit keeps its depth and the ID it
was reached from, so the visits form a tree that hangs on the seeds: following
parents from any visited ID leads back to a seed in as many steps as its depth.

The IDs of one level are expanded in the order they were found, and the
neighbours of each in the order that `next` gives them. Hence among chains of
equal length the tree holds the one whose calls come first.

Key definitions: `Search.start`, `Search.advance`, `Search.run`,
`Search.chainTo?`.
-/
import Std.Data.TreeMap

namespace TaintGraph

open Std (TreeMap)

/-- How an ID was reached. -/
structure Visit where
  /-- Hops from the nearest seed. -/
  depth : Nat
  /-- The ID it was reached from; `none` for a seed. -/
  parent : Option String
  deriving DecidableEq, Repr

/-- A search after some whole levels and a part of the next one. -/
structure Search where
  /-- All IDs reached so far. -/
  visits : TreeMap String Visit := ∅
  /-- The depth at which IDs are being found. -/
  depth : Nat := 0
  /-- The IDs found at that depth, the latest first. -/
  fresh : List String := []

namespace Search

/-- Visit an ID, unless it has been visited before. -/
def discover (parent : Option String) (s : Search) (id : String) : Search :=
  if id ∈ s.visits then s
  else { s with visits := s.visits.insert id { depth := s.depth, parent }, fresh := id :: s.fresh }

/-- The search that has visited the seeds only. -/
def start (seeds : List String) : Search :=
  seeds.foldl (discover none) {}

/-- Visit the neighbours of an ID. -/
def expand (next : String → List String) (s : Search) (id : String) : Search :=
  (next id).foldl (discover (some id)) s

/-- Visit the next level: the neighbours of all IDs of the level before, in
the order those were found. -/
def advance (next : String → List String) (s : Search) : Search :=
  s.fresh.reverse.foldl (expand next) { s with depth := s.depth + 1, fresh := [] }

/-- Visit at most `levels` more levels; a level that finds nothing ends the
search. Each level finds an ID that was not visited before, so as many levels
as there are IDs always suffice. -/
def run (next : String → List String) : (levels : Nat) → Search → Search
  | 0, s => s
  | levels + 1, s => if s.fresh.isEmpty then s else run next levels (s.advance next)

/-- The parent of a visited ID. -/
def parent? (s : Search) (id : String) : Option String :=
  (s.visits[id]?).bind Visit.parent

/-- Follow at most `steps` parents up from `id`, and put what is passed in
front of `tail`. -/
def climb (s : Search) : (steps : Nat) → (id : String) → (tail : List String) → List String
  | 0, id, tail => id :: tail
  | steps + 1, id, tail =>
    match s.parent? id with
    | some up => s.climb steps up (id :: tail)
    | none => id :: tail

/-- The chain of the search tree from a seed down to `id`. -/
def chainTo? (s : Search) (id : String) : Option (List String) :=
  (s.visits[id]?).map fun v => s.climb v.depth id []

end Search

end TaintGraph
