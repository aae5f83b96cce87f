/-
# Scores and ranking

A callable is the more worth a look the closer it is to an entry point on one
side and to a sink on the other. Its score is the inverse product of the two
distances, each plus one, computed in single precision; it is zero when either
distance is unknown.

Key definitions: `Callable.score`, `ranking`.
-/
import TaintGraph.Callable
import TaintGraph.Single

namespace TaintGraph

/-- The score of a callable `fromEntry` hops from an entry point and `toSink`
hops from a sink. -/
def scoreOf (fromEntry toSink : Nat) : Single :=
  1 / ((Single.ofNat fromEntry + 1) * (Single.ofNat toSink + 1))

/-- How much a callable is worth a look. -/
def Callable.score (c : Callable) : Single :=
  match c.fromEntry, c.toSink with
  | some d, some e => scoreOf d e
  | _, _ => 0

/-- Whether the first of two scored callables may stand before the second: it
has the higher score or, at equal scores, not the greater ID. -/
def ranksBefore (a b : Callable × Single) : Bool :=
  decide (b.2 < a.2) || (decide (a.2 = b.2) && decide (a.1.id ≤ b.1.id))

/-- The callables with a positive score, the highest first, at most `limit` of
them; equal scores stand by ID. -/
def ranking (limit : Nat) (callables : List Callable) : List (Callable × Single) :=
  (((callables.map fun c => (c, c.score)).filter fun p => decide (0 < p.2)).mergeSort
    ranksBefore).take limit

end TaintGraph
