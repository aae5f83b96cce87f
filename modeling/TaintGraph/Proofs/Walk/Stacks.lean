/-
# A walk with its stacks apart

A walk keeps one list of frames, so its chain and the lists of pending callees cannot get out of
step. The loop it stands for has no frames: it pushes to and pops from a chain, a stack of lists
of callees and a set of IDs, each by itself. This module has that loop (`Stacks`), where nothing
ties the three together, and shows that it goes through the same states (`Walk.apart_step`,
`Walk.apart_iterate`). What holds of the frames so becomes a fact about the stacks.

Key definitions: `Stacks`, `Stacks.step`, `Walk.apart`.
Key theorems: `Walk.apart_enter`, `Walk.apart_step`, `Walk.apart_iterate`.
-/
import Mathlib.Logic.Function.Iterate
import TaintGraph.Proofs.Walk.Enumeration

namespace TaintGraph

open Std (TreeSet)

/-- What a walk keeps, in stacks that know nothing of each other. Their tops are at the end. -/
structure Stacks where
  /-- The current chain. -/
  path : List String := []
  /-- The callees still to be tried. -/
  pending : List (List String) := []
  /-- The IDs of the current chain. -/
  onPath : TreeSet String := ∅
  /-- The chains found. -/
  found : Array (List String) := #[]

namespace Stacks

variable (next : String → List String) (isSink : String → Bool) (maxDepth : ℕ)

/-- Push an ID to the chain and its callees to the pending ones: none beyond a sink other than the
start, which completes a chain, and none beyond the last hop. -/
def enter (id : String) (k : Stacks) : Stacks :=
  let path := k.path ++ [id]
  let hops := path.length - 1
  { path
    pending := k.pending ++
      [if 0 < hops ∧ isSink id then [] else if hops < maxDepth then next id else []]
    onPath := k.onPath.insert id
    found := if 0 < hops ∧ isSink id then k.found.push path else k.found }

/-- Try the next of the callees on top, if there is one, and pop all stacks if there is none. -/
def step (k : Stacks) : Stacks :=
  match k.pending.getLast? with
  | none => k
  | some [] =>
    { k with
      path := k.path.dropLast
      pending := k.pending.dropLast
      onPath := k.path.getLast?.elim k.onPath k.onPath.erase }
  | some (c :: rest) =>
    let k := { k with pending := k.pending.dropLast ++ [rest] }
    if c ∈ k.onPath then k else k.enter next isSink maxDepth c

end Stacks

namespace Walk

variable {next : String → List String} {isSink : String → Bool} {maxDepth : ℕ} {w : Walk maxDepth}

/-- The walk with its stacks apart. -/
def apart (w : Walk maxDepth) : Stacks :=
  ⟨w.path, w.pending, w.onPath, w.found⟩

theorem length_path (w : Walk maxDepth) : w.path.length = w.height := by
  rw [path, List.length_reverse, List.length_map, w.height_eq]

theorem step_of_frames_nil (h : w.frames = []) : w.step next isSink = w := by
  unfold step
  split
  next => rfl
  next hf => rw [h] at hf; cases hf
  next hf => rw [h] at hf; cases hf

theorem apart_enter (id : String) (h : w.height ≤ maxDepth) :
    (w.enter next isSink id h).apart = w.apart.enter next isSink maxDepth id := by
  have hhops : (w.path ++ [id]).length - 1 = w.height := by simp [length_path]
  simp only [apart, Stacks.enter, hhops]
  simp [enter, path, Walk.pending]

/-- What both stacks hold when the frames do not run out. -/
theorem apart_of_frames {f : Frame} {below : List Frame} (h : w.frames = f :: below) :
    w.apart = ⟨(below.map Frame.id).reverse ++ [f.id],
      (below.map Frame.pending).reverse ++ [f.pending], w.onPath, w.found⟩ := by
  simp [apart, path, Walk.pending, h]

/-- **The stacks run in step with the walk.** -/
theorem apart_step (next : String → List String) (isSink : String → Bool) (w : Walk maxDepth) :
    (w.step next isSink).apart = w.apart.step next isSink maxDepth := by
  by_cases hw : w.frames = []
  · have hpending : w.apart.pending = [] := by simp [apart, Walk.pending, hw]
    rw [step_of_frames_nil hw, Stacks.step, hpending]
    rfl
  rcases step_cases next isSink hw with
    ⟨id, below, hf, hs⟩ | ⟨id, c, rest, below, hf, hc, hs⟩ | ⟨id, c, rest, below, hf, hroom, hc, hs⟩
  · rw [hs, apart_of_frames hf]
    simp [Stacks.step, apart, leave, path, Walk.pending]
  · rw [hs, apart_of_frames hf]
    simp [Stacks.step, apart, take, path, Walk.pending, hc]
  · rw [hs, apart_enter, apart_of_frames hf]
    simp [Stacks.step, apart, take, path, Walk.pending, hc]

theorem apart_iterate (next : String → List String) (isSink : String → Bool) (n : ℕ)
    (w : Walk maxDepth) :
    ((step next isSink)^[n] w).apart = (Stacks.step next isSink maxDepth)^[n] w.apart :=
  Function.Semiconj.iterate_right (f := apart) (apart_step next isSink) n w

end Walk
end TaintGraph
