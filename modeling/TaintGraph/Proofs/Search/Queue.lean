/-
# The search by a queue

`Search.run` visits whole levels. The same search can be told by a queue: take the ID that has
waited longest, try its neighbours one by one, and put the new ones at the end. A `Sweep` is
that search between two of its smallest steps, so it knows a moment for everything that happens
on the way: a neighbour is tried, or an ID is taken off the queue.

The level that is being expanded and the part of the next one that has been found stand in the
queue one after the other (`Sweep.Follows`). Hence a level is a number of steps
(`Sweep.Follows.advance`), and a sweep ends with the visits of the search
(`Sweep.exists_finished`). A visit is never changed, so what a sweep has visited at some moment
the search has visited in the same way (`Sweep.visits_after`); and an ID is only visited from
one that was visited before (`Sweep.exists_earlier`).

Key definitions: `Sweep`, `Sweep.step`, `Sweep.after`, `Sweep.Finished`, `Sweep.Follows`.
Key theorems: `Sweep.step_cases`, `Sweep.Follows.advance`, `Sweep.exists_finished`,
`Sweep.visits_after`, `Sweep.exists_earlier`.
-/
import Mathlib.Logic.Function.Iterate
import TaintGraph.Proofs.Search.Levels

namespace TaintGraph

open Std (TreeMap)

/-- A search by a queue, between two of its steps. -/
structure Sweep where
  /-- All IDs reached so far. -/
  visits : TreeMap String Visit := ∅
  /-- The IDs reached but not yet expanded, each with its depth, the earliest first. -/
  queue : List (String × ℕ) := []
  /-- The ID being expanded, with its depth; `none` while the seeds are put in. -/
  origin : Option (String × ℕ) := none
  /-- The IDs it leads to that are still to be tried. -/
  ahead : List String

namespace Sweep

/-- How an ID is reached that is new now: as a seed, or one hop from the ID being expanded. -/
def visit (w : Sweep) : Visit :=
  w.origin.elim ⟨0, none⟩ fun p => ⟨p.2 + 1, some p.1⟩

/-- Visit an ID and let it wait. -/
def enqueue (id : String) (w : Sweep) : Sweep :=
  { w with visits := w.visits.insert id w.visit, queue := w.queue ++ [(id, w.visit.depth)] }

/-- Try the next ID ahead; when there is none, expand the ID that has waited longest. -/
def step (next : String → List String) (w : Sweep) : Sweep :=
  match w.ahead with
  | id :: ahead => if id ∈ w.visits then { w with ahead } else { w.enqueue id with ahead }
  | [] =>
    match w.queue with
    | p :: queue => { w with origin := some p, ahead := next p.1, queue }
    | [] => w

/-- The sweep at its start: the seeds are to be tried. -/
def start (seeds : List String) : Sweep :=
  { ahead := seeds }

/-- The sweep after `n` steps. -/
def after (next : String → List String) (seeds : List String) (n : ℕ) : Sweep :=
  (step next)^[n] (start seeds)

/-- There is nothing left to try and nothing waits. -/
structure Finished (w : Sweep) : Prop where
  ahead : w.ahead = []
  queue : w.queue = []

/-- The tree of the visits so far. -/
def tree (w : Sweep) : Search :=
  { visits := w.visits }

variable {next : String → List String} {seeds : List String} {w : Sweep} {id : String} {v : Visit}

theorem mem_visits_iff : id ∈ w.visits ↔ ∃ v, w.visits[id]? = some v :=
  Search.mem_visits_iff (s := w.tree)

/-! ### One step -/

/-- **The steps of a sweep**: none when it is finished, expand an ID, pass over one that was
visited, or visit a new one. -/
theorem step_cases (next : String → List String) (w : Sweep) :
    (w.Finished ∧ w.step next = w) ∨
    (∃ p queue, w.ahead = [] ∧ w.queue = p :: queue ∧
      w.step next = { w with origin := some p, ahead := next p.1, queue }) ∨
    (∃ id ahead, w.ahead = id :: ahead ∧ id ∈ w.visits ∧ w.step next = { w with ahead }) ∨
    ∃ id ahead, w.ahead = id :: ahead ∧ id ∉ w.visits ∧
      w.step next = { w.enqueue id with ahead } := by
  unfold step
  split
  next id ahead hahead =>
    split
    next hid => exact Or.inr (Or.inr (Or.inl ⟨id, ahead, hahead, hid, rfl⟩))
    next hid => exact Or.inr (Or.inr (Or.inr ⟨id, ahead, hahead, hid, rfl⟩))
  next hahead =>
    split
    next p queue hqueue => exact Or.inr (Or.inl ⟨p, queue, hahead, hqueue, rfl⟩)
    next hqueue => exact Or.inl ⟨⟨hahead, hqueue⟩, rfl⟩

theorem visits_enqueue (a : String) (w : Sweep) (id : String) :
    (w.enqueue a).visits[id]? = if a = id then some w.visit else w.visits[id]? := by
  simp [enqueue, TreeMap.getElem?_insert]

/-- A visit is never changed. -/
theorem visits_step (hv : w.visits[id]? = some v) : (w.step next).visits[id]? = some v := by
  rcases step_cases next w with ⟨-, hs⟩ | ⟨p, queue, -, -, hs⟩ | ⟨a, ahead, -, -, hs⟩ |
    ⟨a, ahead, -, ha, hs⟩
  · rwa [hs]
  · rwa [hs]
  · rwa [hs]
  · have hne : a ≠ id := fun he => ha (mem_visits_iff.2 ⟨v, he ▸ hv⟩)
    rw [hs]
    exact (visits_enqueue a w id).trans (by rwa [if_neg hne])

/-- A step visits no ID but the first one ahead, and that only when it is new. -/
theorem visits_step_cases (hv : (w.step next).visits[id]? = some v) :
    w.visits[id]? = some v ∨ (id ∉ w.visits ∧ v = w.visit) := by
  rcases step_cases next w with ⟨-, hs⟩ | ⟨p, queue, -, -, hs⟩ | ⟨a, ahead, -, -, hs⟩ |
    ⟨a, ahead, -, ha, hs⟩
  · exact Or.inl (by rwa [hs] at hv)
  · exact Or.inl (by rwa [hs] at hv)
  · exact Or.inl (by rwa [hs] at hv)
  · rw [hs] at hv
    have hv' := (visits_enqueue a w id).symm.trans hv
    split_ifs at hv' with hid
    · exact Or.inr ⟨hid ▸ ha, (Option.some.inj hv').symm⟩
    · exact Or.inl hv'

/-- What waits and what is being expanded has been visited at the depth it stands with. -/
def Tracked (w : Sweep) : Prop :=
  ∀ p, p ∈ w.queue ∨ w.origin = some p → ∃ v, w.visits[p.1]? = some v ∧ v.depth = p.2

theorem Tracked.step (h : w.Tracked) : (w.step next).Tracked := by
  intro p hp
  have hold : p ∈ w.queue ∨ w.origin = some p →
      ∃ v, (w.step next).visits[p.1]? = some v ∧ v.depth = p.2 := by
    intro hp
    obtain ⟨v, hv, hd⟩ := h p hp
    exact ⟨v, visits_step hv, hd⟩
  rcases step_cases next w with ⟨-, hs⟩ | ⟨q, queue, -, hq, hs⟩ | ⟨a, ahead, -, -, hs⟩ |
    ⟨a, ahead, -, ha, hs⟩
  · rw [hs] at hp
    exact hold hp
  · rw [hs] at hp
    -- The ID that is expanded now waited before.
    refine hold (Or.inl ?_)
    rw [hq, List.mem_cons]
    rcases hp with hp | hp
    · exact Or.inr hp
    · exact Or.inl (Option.some.inj hp).symm
  · rw [hs] at hp
    exact hold hp
  · rw [hs] at hp
    rcases hp with hp | hp
    · rcases List.mem_append.1 hp with hp | hp
      · exact hold (Or.inl hp)
      · obtain rfl := List.mem_singleton.1 hp
        refine ⟨w.visit, ?_, rfl⟩
        rw [hs]
        exact (visits_enqueue a w a).trans (if_pos rfl)
    · exact hold (Or.inr hp)

/-! ### Any number of steps -/

theorem after_succ (next : String → List String) (seeds : List String) (n : ℕ) :
    after next seeds (n + 1) = (after next seeds n).step next :=
  Function.iterate_succ_apply' _ _ _

theorem after_add (next : String → List String) (seeds : List String) (m n : ℕ) :
    after next seeds (m + n) = (step next)^[m] (after next seeds n) :=
  Function.iterate_add_apply _ _ _ _

theorem tracked_after (next : String → List String) (seeds : List String) (n : ℕ) :
    (after next seeds n).Tracked := by
  induction n with
  | zero =>
    rintro p (hp | hp)
    · cases hp
    · cases hp
  | succ n ih =>
    rw [after_succ]
    exact ih.step

theorem visits_iterate (next : String → List String) (n : ℕ) (hv : w.visits[id]? = some v) :
    ((step next)^[n] w).visits[id]? = some v := by
  induction n with
  | zero => exact hv
  | succ n ih =>
    rw [Function.iterate_succ_apply']
    exact visits_step ih

theorem Finished.step_eq (h : w.Finished) : w.step next = w := by
  simp [step, h.ahead, h.queue]

theorem Finished.iterate_eq (h : w.Finished) (next : String → List String) (n : ℕ) :
    (step next)^[n] w = w :=
  Function.iterate_fixed h.step_eq n

/-- An ID other than a seed is visited from one that was visited before, when it was not yet
visited itself. -/
theorem exists_earlier {n : ℕ} {p : String} (hv : (after next seeds n).visits[id]? = some v)
    (hp : v.parent = some p) :
    ∃ m < n, p ∈ (after next seeds m).visits ∧ id ∉ (after next seeds m).visits := by
  induction n with
  | zero => simp [after, start] at hv
  | succ n ih =>
    rw [after_succ] at hv
    rcases visits_step_cases hv with hold | ⟨hnew, rfl⟩
    · obtain ⟨m, hm, hearlier⟩ := ih hold
      exact ⟨m, Nat.lt_succ_of_lt hm, hearlier⟩
    · refine ⟨n, Nat.lt_succ_self n, ?_, hnew⟩
      -- The parent is the ID that is being expanded.
      cases horigin : (after next seeds n).origin with
      | none => simp [visit, horigin] at hp
      | some q =>
        obtain rfl : q.1 = p := by simpa [visit, horigin] using hp
        obtain ⟨u, hu, -⟩ := tracked_after next seeds n q (Or.inr horigin)
        exact mem_visits_iff.2 ⟨u, hu⟩

/-! ### Levels as steps -/

/-- The sweep has visited what the search has; `base` waits, and behind it what the search has
found of its level. -/
structure Follows (base : List (String × ℕ)) (s : Search) (w : Sweep) : Prop where
  visits : w.visits = s.visits
  queue : w.queue = base ++ s.fresh.reverse.map fun id => (id, s.depth)

namespace Follows

variable {base : List (String × ℕ)} {s : Search} {parent : Option String} {ahead : List String}

/-- A single ID is tried in one step. -/
theorem tryOne (h : Follows base s w) (next : String → List String)
    (hahead : w.ahead = id :: ahead) (hvisit : w.visit = ⟨s.depth, parent⟩) :
    Follows base (s.discover parent id) (w.step next) ∧ (w.step next).ahead = ahead ∧
      (w.step next).visit = w.visit := by
  by_cases hid : id ∈ s.visits
  · have hs : w.step next = { w with ahead } := by simp [Sweep.step, hahead, h.visits, hid]
    have hsame : s.discover parent id = s := by simp [Search.discover, hid]
    rw [hs, hsame]
    exact ⟨⟨h.visits, h.queue⟩, rfl, rfl⟩
  · have hs : w.step next = { w.enqueue id with ahead } := by
      simp [Sweep.step, hahead, h.visits, hid]
    rw [hs]
    refine ⟨⟨?_, ?_⟩, rfl, rfl⟩
    · simp [enqueue, Search.discover, hid, h.visits, hvisit]
    · simp [enqueue, Search.discover, hid, h.queue, hvisit]

/-- All IDs ahead are tried in as many steps. -/
theorem tryAll (h : Follows base s w) (next : String → List String)
    (hvisit : w.visit = ⟨s.depth, parent⟩) :
    ∃ n, Follows base (w.ahead.foldl (Search.discover parent) s) ((step next)^[n] w) ∧
      ((step next)^[n] w).ahead = [] := by
  generalize hids : w.ahead = ids
  induction ids generalizing w s with
  | nil => exact ⟨0, h, hids⟩
  | cons id ids ih =>
    obtain ⟨hone, hahead, hkept⟩ := h.tryOne next hids hvisit
    obtain ⟨n, hall⟩ := ih hone (by rw [hkept, hvisit, Search.discover_depth]) hahead
    exact ⟨n + 1, hall⟩

/-- What waits of a level is expanded. -/
theorem expandAll {level : List String} {d : ℕ}
    (h : Follows (level.map fun id => (id, d)) s w) (next : String → List String)
    (hahead : w.ahead = []) (hdepth : s.depth = d + 1) :
    ∃ n, Follows [] (level.foldl (Search.expand next) s) ((step next)^[n] w) ∧
      ((step next)^[n] w).ahead = [] := by
  induction level generalizing w s with
  | nil => exact ⟨0, h, hahead⟩
  | cons p level ih =>
    have hs : w.step next = { w with
        origin := some (p, d)
        ahead := next p
        queue := (level.map fun id => (id, d)) ++ s.fresh.reverse.map fun id => (id, s.depth) } := by
      simp [Sweep.step, hahead, h.queue]
    have htaken : Follows (level.map fun id => (id, d)) s (w.step next) := by
      rw [hs]
      exact ⟨h.visits, rfl⟩
    have hvisit : (w.step next).visit = ⟨s.depth, some p⟩ := by
      rw [hs, hdepth]
      rfl
    have hneighbours : (w.step next).ahead = next p := by rw [hs]
    obtain ⟨m, hm, hm'⟩ := htaken.tryAll next hvisit
    rw [hneighbours] at hm
    obtain ⟨n, hn⟩ := ih hm hm' (by rw [Search.discoverAll_depth, hdepth])
    refine ⟨n + m + 1, ?_⟩
    rw [Function.iterate_succ_apply, Function.iterate_add_apply]
    exact hn

/-- **A level is a number of steps.** -/
theorem advance (h : Follows [] s w) (next : String → List String) (hahead : w.ahead = []) :
    ∃ n, Follows [] (s.advance next) ((step next)^[n] w) ∧ ((step next)^[n] w).ahead = [] := by
  -- The level found last is what waits, and of the next one nothing is found yet.
  have hlevel : Follows (s.fresh.reverse.map fun id => (id, s.depth))
      { s with depth := s.depth + 1, fresh := [] } w :=
    ⟨h.visits, by simpa using h.queue⟩
  exact hlevel.expandAll next hahead rfl

theorem run (h : Follows [] s w) (next : String → List String) (hahead : w.ahead = [])
    (levels : ℕ) :
    ∃ n, Follows [] (s.run next levels) ((step next)^[n] w) ∧ ((step next)^[n] w).ahead = [] := by
  induction levels generalizing s w with
  | zero => exact ⟨0, h, hahead⟩
  | succ levels ih =>
    rw [Search.run]
    split_ifs
    · exact ⟨0, h, hahead⟩
    · obtain ⟨m, hm, hm'⟩ := h.advance next hahead
      obtain ⟨n, hn⟩ := ih hm hm'
      refine ⟨n + m, ?_⟩
      rw [Function.iterate_add_apply]
      exact hn

end Follows

variable {levels : ℕ}

/-- **A sweep ends as the search does.** When the search is closed, some number of steps finishes
the sweep, and it has made the same visits. -/
theorem exists_finished (hclosed : ((Search.start seeds).run next levels).fresh = []) :
    ∃ n, (after next seeds n).Finished ∧
      (after next seeds n).visits = ((Search.start seeds).run next levels).visits := by
  have hempty : Follows [] {} (start seeds) := ⟨rfl, rfl⟩
  have hseed : (start seeds).visit = ⟨0, none⟩ := rfl
  obtain ⟨m, hm, hm'⟩ := hempty.tryAll next hseed
  obtain ⟨n, hn, hn'⟩ := hm.run next hm' levels
  have hadd : (step next)^[n] ((step next)^[m] (start seeds)) = after next seeds (n + m) :=
    (after_add next seeds n m).symm
  rw [hadd] at hn hn'
  have hqueue := hn.queue
  have hrun : ((start seeds).ahead.foldl (Search.discover none) {}).run next levels =
      (Search.start seeds).run next levels := rfl
  rw [hrun, hclosed] at hqueue
  exact ⟨n + m, ⟨hn', hqueue⟩, hn.visits⟩

/-- What a sweep has visited at some moment the closed search has visited in the same way. -/
theorem visits_after (hclosed : ((Search.start seeds).run next levels).fresh = []) {n : ℕ}
    (hv : (after next seeds n).visits[id]? = some v) :
    ((Search.start seeds).run next levels).visits[id]? = some v := by
  obtain ⟨last, hfinished, hvisits⟩ := exists_finished hclosed
  have hlater := visits_iterate next last hv
  rw [← hvisits, ← hfinished.iterate_eq next n, ← after_add, Nat.add_comm, after_add]
  exact hlater

end Sweep
end TaintGraph
