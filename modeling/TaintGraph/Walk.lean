/-
# Enumerating chains to sinks

A walk tries every simple chain that starts at one ID, depth first and in the
order of the calls, and keeps those that end at a sink. A chain ends at the
first sink it meets after its start and has at most `maxDepth` hops.

The walk is a machine: a stack with one frame for each ID of the current chain,
which holds the callees of that ID still to be tried, and the chains found so
far. `Walk.step` tries the next callee of the top frame or, when there is none,
leaves it. The machine runs until its stack is empty or it has found as many
chains as it may (`Walk.run`). The number of steps is not bounded by the size of
the graph, but every step goes down in the order of `TaintGraph.Walk.Order`.

Key definitions: `Frame`, `Walk`, `Walk.enter`, `Walk.step`, `Walk.run`,
`Walk.chains`.
Key theorems: `Walk.step_below`.
-/
import Std.Data.TreeSet
import TaintGraph.Walk.Order

namespace TaintGraph

open Std (TreeSet)

/-- An ID of the current chain and the callees of it still to be tried. -/
structure Frame where
  /-- The ID. -/
  id : String
  /-- The callees to try, in order. -/
  pending : List String
  deriving DecidableEq, Repr

/-- A walk over chains of at most `maxDepth` hops. -/
structure Walk (maxDepth : Nat) where
  /-- The frames of the current chain, its last ID on top. -/
  frames : List Frame := []
  /-- How many frames there are. -/
  height : Nat := 0
  /-- The IDs of the current chain. -/
  onPath : TreeSet String := ∅
  /-- The chains found, in the order they were found. -/
  found : Array (List String) := #[]
  /-- The height is that of the stack. -/
  height_eq : height = frames.length
  /-- A chain of `maxDepth` hops has one ID more than hops. -/
  height_le : height ≤ maxDepth + 1
  /-- Only a chain that may grow has callees to try at its end. -/
  room : ∀ f below, frames = f :: below → f.pending ≠ [] → height ≤ maxDepth

namespace Walk

variable {maxDepth : Nat}

/-- The current chain, from its start. -/
def path (w : Walk maxDepth) : List String :=
  (w.frames.map Frame.id).reverse

/-- The callees still to be tried at each ID of the current chain, from its
start. -/
def pending (w : Walk maxDepth) : List (List String) :=
  (w.frames.map Frame.pending).reverse

/-- How many callees are still to be tried at each ID of the current chain,
from its start. -/
def lengths (w : Walk maxDepth) : List Nat :=
  (w.frames.map fun f => f.pending.length).reverse

/-- The walk that has not started. -/
def idle : Walk maxDepth where
  height_eq := rfl
  height_le := Nat.zero_le _
  room := fun _ _ h => absurd h (by simp)

variable (next : String → List String) (isSink : String → Bool)

/-- Extend the current chain by `id`. A sink other than the start completes a
chain, and nothing is tried beyond it; nor beyond the last hop. -/
def enter (id : String) (w : Walk maxDepth) (h : w.height ≤ maxDepth) : Walk maxDepth where
  frames :=
    { id
      pending :=
        if 0 < w.height ∧ isSink id then []
        else if w.height < maxDepth then next id else [] } :: w.frames
  height := w.height + 1
  onPath := w.onPath.insert id
  found := if 0 < w.height ∧ isSink id then w.found.push (w.path ++ [id]) else w.found
  height_eq := congrArg (· + 1) w.height_eq
  height_le := Nat.succ_le_succ h
  room := by
    rintro f below ⟨rfl, rfl⟩ hf
    split at hf
    · exact absurd rfl hf
    · split at hf
      · assumption
      · exact absurd rfl hf

/-- Leave the last ID of the current chain. -/
def leave (id : String) (below : List Frame) (w : Walk maxDepth) {f : Frame}
    (h : w.frames = f :: below) : Walk maxDepth where
  frames := below
  height := w.height - 1
  onPath := w.onPath.erase id
  found := w.found
  height_eq := by
    have := w.height_eq
    rw [h, List.length_cons] at this
    omega
  height_le := by
    have := w.height_le
    omega
  room := by
    rintro g rest rfl _
    have := w.height_le
    omega

/-- Take the next callee of the last ID off its list. -/
def take (id : String) (rest : List String) (below : List Frame) (w : Walk maxDepth) {c : String}
    (h : w.frames = ⟨id, c :: rest⟩ :: below) : Walk maxDepth where
  frames := ⟨id, rest⟩ :: below
  height := w.height
  onPath := w.onPath
  found := w.found
  height_eq := by
    have := w.height_eq
    rwa [h] at this
  height_le := w.height_le
  room := fun _ _ _ _ => w.room _ _ h (List.cons_ne_nil _ _)

/-- Try the next callee of the last ID; go back when there is none. A callee
that the chain holds already is passed over. -/
def step (w : Walk maxDepth) : Walk maxDepth :=
  match h : w.frames with
  | [] => w
  | ⟨id, []⟩ :: below => w.leave id below h
  | ⟨id, c :: rest⟩ :: below =>
    if c ∈ w.onPath then w.take id rest below h
    else (w.take id rest below h).enter next isSink c
      (w.room _ _ h (List.cons_ne_nil _ _))

theorem lengths_length_le (w : Walk maxDepth) : w.lengths.length ≤ maxDepth + 1 := by
  simpa [lengths, w.height_eq] using w.height_le

/-- Every step of an unfinished walk goes down. -/
theorem step_below (w : Walk maxDepth) (hw : w.frames ≠ []) :
    Stack.Below (⟨(w.step next isSink).lengths⟩ : Stack (maxDepth + 1)) ⟨w.lengths⟩ := by
  have height := (w.step next isSink).lengths_length_le
  revert height
  unfold step
  split
  next h => exact absurd h hw
  next id below h =>
    intro height
    have hw' : w.lengths = (w.leave id below h).lengths ++ [0] := by simp [lengths, leave, h]
    exact hw' ▸ Stack.below_pop _ height
  next id c rest below h =>
    have hw' : w.lengths = (below.map fun f => f.pending.length).reverse ++ [rest.length + 1] := by
      simp [lengths, h]
    split
    next =>
      intro height
      have htake : (w.take id rest below h).lengths =
          (below.map fun f => f.pending.length).reverse ++ [rest.length] := by
        simp [lengths, take]
      rw [htake] at height ⊢
      exact hw' ▸ Stack.below_push _ [] height
    next =>
      intro height
      rw [hw']
      simp only [lengths, enter, take, List.map_cons, List.reverse_cons, List.append_assoc,
        List.singleton_append] at height ⊢
      exact Stack.below_push _ [_] height

/-- Run the walk until its chain is empty or `maxPaths` chains are found. -/
def run (maxPaths : Nat) (w : Walk maxDepth) : Walk maxDepth :=
  if w.found.size < maxPaths then
    if _h : w.frames = [] then w else run maxPaths (w.step next isSink)
  else w
termination_by (⟨w.lengths⟩ : Stack (maxDepth + 1))
decreasing_by exact step_below next isSink w ‹_›

/-- The walk at its start: the chain holds `id` alone. -/
def start (id : String) : Walk maxDepth :=
  idle.enter next isSink id (Nat.zero_le _)

/-- The chains from `id` to a sink with at most `maxDepth` hops, in the order a
walk finds them, and at most `maxPaths` of them. -/
def chains (maxDepth maxPaths : Nat) (id : String) : List (List String) :=
  ((start next isSink id : Walk maxDepth).run next isSink maxPaths).found.toList

end Walk

end TaintGraph
