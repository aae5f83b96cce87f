/-
# Depths stay below the number of callables

A search that finds an ID at depth `d` has found `d + 1` different IDs on the way to it, all of
them known, so `d` is below the number of callables (`CallTable.depth_lt_known`). This is what
keeps depths within 32 bits: the hop from one ID to the next can be counted as long as the IDs
themselves can.

The bound holds of every depth that waits in the queue of a pass and of every depth that is about
to be put there (`Sweep.Fits`), and it does not get lost afterwards. The distances that a pass
has written, and those that the memo holds, may be out of date, but they were below the number of
callables when they were computed, and that number only grows (`CallTable.Shallow.edit`,
`Scan.Reachable.distance_lt_live`).

Key definitions: `CallTable.Shallow`, `Sweep.Fits`, `CallTable.sweepAll`.
Key theorems: `CallTable.depth_lt_known`, `CallTable.callable?_edit_cases`,
`CallTable.Shallow.edit`, `Scan.depths_below_callables`.
-/
import TaintGraph.Proofs.Scan.Staleness
import TaintGraph.Proofs.Table.ParentTree

namespace TaintGraph

theorem Callable.eq_zero_of_reset {c : Callable} {d : Direction} {n : ℕ}
    (hn : c.reset.hops d = some n) : n = 0 := by
  rw [hops_reset] at hn
  split_ifs at hn
  exact (Option.some.inj hn).symm

namespace CallTable

variable {t t' : CallTable} {next : String → List String} {seeds : List String} {id : String}
  {v : Visit}

/-! ### What a search finds -/

/-- **A depth is below the number of known IDs.** Climbing to the seed passes one ID more than
the depth says, none of them twice, and all are known. -/
theorem depth_lt_known (hnext : ∀ {a b}, b ∈ next a → t.contains b = true)
    (hv : (t.reach next seeds).visits[id]? = some v) : v.depth < t.known.length := by
  have hlevels := t.reach_levelled next seeds
  have hknown : ∀ {n x}, Search.Hops next (seeds.filter t.contains) n x →
      t.contains x = true := by
    rintro n x (hx | ⟨-, hx⟩)
    · exact (List.mem_filter.1 hx).2
    · exact hnext hx
  have hbottom : ∀ y ∈ [id], t.contains y = true := by simpa using hknown (hlevels.hops hv)
  obtain ⟨seed, -, rest, heq, hall⟩ := hlevels.climb_induction
    (P := fun _ x rest => ∀ y ∈ x :: rest, t.contains y = true)
    (fun hp _ hrest => List.forall_mem_cons.2 ⟨hknown hp, hrest⟩) hv rfl hbottom
  have hsub : (t.reach next seeds).climb v.depth id [] ⊆ t.known := by
    intro y hy
    rw [heq] at hy
    exact mem_known.2 (hall y hy)
  have hle := (hlevels.nodup_climb hv rfl).length_le_of_subset hsub
  rw [hlevels.length_climb hv rfl] at hle
  exact Nat.lt_of_succ_le hle

theorem reachAll_lt_known {d : Direction} {n : ℕ}
    (hn : ((t.reachAll d).visits[id]?).map Visit.depth = some n) : n < t.known.length := by
  obtain ⟨v, hv, rfl⟩ := Option.map_eq_some_iff.1 hn
  exact depth_lt_known contains_of_mem_further hv

theorem distance?_lt_known {source target : String} {d : ℕ}
    (hd : t.distance? source target = some d) : d < t.known.length := by
  rw [distance?_eq] at hd
  obtain ⟨v, hv, rfl⟩ := Option.map_eq_some_iff.1 hd
  exact depth_lt_known contains_of_mem_successors hv

/-! ### What a table keeps -/

theorem Grows.known_length_le (h : Grows t t') : t.known.length ≤ t'.known.length :=
  (nodup_known t).length_le_of_subset fun id hid => mem_known.2 (h.contains id (mem_known.1 hid))

/-- **What an edit can make of a callable**: the distances of its role alone, what it was before,
or that with one distance as a search gives it. -/
theorem callable?_edit_cases {e : Edit} {c : Callable} (hc : (e.table t).callable? id = some c) :
    (∃ new : Callable, c = new.reset) ∨ t.callable? id = some c ∨
    ∃ d old, t.callable? id = some old ∧
      c = old.setHops d (((t.reachAll d).visits[id]?).map Visit.depth) := by
  have hinsert : ∀ new : Callable, (t.insert new).callable? id = some c →
      (∃ new : Callable, c = new.reset) ∨ t.callable? id = some c := by
    intro new hnew
    rw [callable?_insert] at hnew
    split_ifs at hnew
    · exact Or.inl ⟨new, (Option.some.inj hnew).symm⟩
    · exact Or.inr hnew
  cases e with
  | enter e =>
    rw [← or_assoc]
    refine Or.inl ?_
    cases e with
    | add new => exact hinsert new hc
    | offer new =>
      rw [Edit.table, Entry.enter] at hc
      split_ifs at hc
      · exact Or.inr hc
      · exact hinsert new hc
    | call call => exact Or.inr ((callable?_record call t id).symm.trans hc)
  | measure d =>
    rw [Edit.table, callable?_withDistances] at hc
    obtain ⟨old, hold, rfl⟩ := Option.map_eq_some_iff.1 hc
    exact Or.inr (Or.inr ⟨d, old, hold, rfl⟩)
  | ask source target => exact Or.inr (Or.inl hc)

/-- All distances of the callables are below their number. -/
def Shallow (t : CallTable) : Prop :=
  ∀ id c, t.callable? id = some c → ∀ d n, c.hops d = some n → n < t.known.length

theorem Shallow.edit (h : t.Shallow) (e : Edit) : (e.table t).Shallow := by
  intro id c hc d n hn
  have hgrown := (Grows.edit e t).known_length_le
  rcases callable?_edit_cases hc with ⟨new, rfl⟩ | hold | ⟨d', old, hold, rfl⟩
  · rw [Callable.eq_zero_of_reset hn]
    exact List.length_pos_of_mem (mem_known.2 (contains_iff.2 ⟨_, hc⟩))
  · exact Nat.lt_of_lt_of_le (h id c hold d n hn) hgrown
  · rw [Callable.hops_setHops] at hn
    split_ifs at hn
    · exact Nat.lt_of_lt_of_le (reachAll_lt_known hn) hgrown
    · exact Nat.lt_of_lt_of_le (h id old hold d n hn) hgrown

/-! ### Inside a pass -/

/-- The pass in a direction by a queue, after `n` steps. -/
def sweepAll (t : CallTable) (d : Direction) (n : ℕ) : Sweep :=
  t.sweep (t.further d) (t.seeds d).toList n

end CallTable

/-- Every depth that waits is below `bound`; and when the next ID ahead is new, the step puts it
into the queue with a depth below `bound` that is one more than the depth of the ID it is reached
from, counted within 32 bits. -/
structure Sweep.Fits (next : String → List String) (bound : ℕ) (w : Sweep) : Prop where
  waiting : ∀ p ∈ w.queue, p.2 < bound
  found : ∀ id ahead p, w.ahead = id :: ahead → id ∉ w.visits → w.origin = some p →
    (w.step next).queue = w.queue ++ [(id, p.2 + 1)] ∧ p.2 + 1 < bound ∧ p.2 + 1 < UInt32.size

theorem Sweep.queue_step_of_new (next : String → List String) {w : Sweep} {id : String}
    {ahead : List String} {p : String × ℕ} (hahead : w.ahead = id :: ahead)
    (hnew : id ∉ w.visits) (horigin : w.origin = some p) :
    (w.step next).queue = w.queue ++ [(id, p.2 + 1)] := by
  simp [step, hahead, hnew, enqueue, visit, horigin]

namespace CallTable

variable {t : CallTable} {next : String → List String} {seeds : List String}

theorem sweep_waiting (hnext : ∀ {a b}, b ∈ next a → t.contains b = true) {n : ℕ}
    {p : String × ℕ} (hp : p ∈ (t.sweep next seeds n).queue) : p.2 < t.known.length := by
  obtain ⟨v, hv, hd⟩ := Sweep.tracked_after next (seeds.filter t.contains) n p (Or.inl hp)
  rw [← hd]
  exact depth_lt_known hnext ((subtree_sweep hnext seeds n).visits hv)

/-- The depths of a pass fit at every moment. -/
theorem fits_sweep (hnext : ∀ {a b}, b ∈ next a → t.contains b = true) {bound : ℕ}
    (hbound : bound = t.known.length) (hsize : bound ≤ UInt32.size) (n : ℕ) :
    (t.sweep next seeds n).Fits next bound where
  waiting := fun _ hp => hbound ▸ sweep_waiting hnext hp
  found := fun id ahead p hahead hnew horigin => by
    have hqueue := Sweep.queue_step_of_new next hahead hnew horigin
    -- After the step the new depth waits in the queue.
    have hlt : p.2 + 1 < bound := by
      have hmem : (id, p.2 + 1) ∈ (t.sweep next seeds (n + 1)).queue := by
        rw [sweep, Sweep.after_succ]
        exact hqueue ▸ List.mem_append_right _ List.mem_cons_self
      exact hbound ▸ sweep_waiting hnext hmem
    exact ⟨hqueue, hlt, Nat.lt_of_lt_of_le hlt hsize⟩

end CallTable

/-! ### Every reachable scan -/

namespace Scan

variable {s : Scan}

theorem Reachable.shallow (h : s.Reachable) : s.table.Shallow :=
  h.induction (P := fun k => k.table.Shallow) (fun _ _ id c hc => by
    simp [CallTable.callable?, CallTable.row] at hc) fun _ e hk => hk.edit e

/-- An answer was computed on a table that was no larger. -/
theorem Reachable.distance_lt_live (h : s.Reachable) {source target : String}
    (hne : source ≠ target) {d : ℕ} (hd : (s.distance source target).1 = some d) :
    d < s.table.live := by
  rw [h.wellFormed.live_eq]
  obtain ⟨limits, start, requests, hstart, rfl⟩ := h
  obtain ⟨origin, horigin, hanswer⟩ := exists_origin hstart requests hne
  have hlt := CallTable.distance?_lt_known (hanswer.symm.trans hd)
  exact Nat.lt_of_lt_of_le hlt (start.grows_of_earlier horigin.le).known_length_le

/-- **Depths stay below the number of callables.** In every reachable scan with at most as many
callables as 32 bits can count, every distance that a callable carries and every answered
distance between two different IDs is below the number of callables. Both passes end, with the
visits that distances are taken from, and at every moment of them every depth in the queue is
below that number, so the depth of an ID that is discovered can be counted within 32 bits. -/
theorem depths_below_callables (h : s.Reachable) (hsize : s.table.live ≤ UInt32.size) :
    (∀ id c, s.table.callable? id = some c → ∀ d, c.fromEntry = some d ∨ c.toSink = some d →
      d < s.table.live) ∧
    (∀ source target, source ≠ target → ∀ d,
      (s.perform (.distance source target)).1 = .distance (some d) → d < s.table.live) ∧
    ∀ way : Direction,
      (∃ last, (s.table.sweepAll way last).Finished ∧
        (s.table.sweepAll way last).visits = (s.table.reachAll way).visits) ∧
      ∀ n, (s.table.sweepAll way n).Fits (s.table.further way) s.table.live := by
  have hlive := h.wellFormed.live_eq
  refine ⟨fun id c hc d hd => ?_, fun source target hne d hd => ?_, fun way => ⟨?_, fun n => ?_⟩⟩
  · rw [hlive]
    rcases hd with hd | hd
    · exact h.shallow id c hc .fromEntry d hd
    · exact h.shallow id c hc .toSink d hd
  · exact h.distance_lt_live hne (Reply.distance.inj hd)
  · exact CallTable.exists_sweep_finished CallTable.contains_of_mem_further _
  · exact CallTable.fits_sweep CallTable.contains_of_mem_further hlive hsize n

/-- A chain through all callables, from an entry point to a sink, that is measured and asked for,
and then a shortcut that does not touch its start. -/
def measured : List Request :=
  [.add { id := "a", name := "a", role := .entryPoint }, .add { id := "b", name := "b" },
    .add { id := "c", name := "c" }, .add { id := "d", name := "d", role := .sink },
    .addCall { caller := "a", callee := "b" }, .addCall { caller := "b", callee := "c" },
    .addCall { caller := "c", callee := "d" }, .entryPass, .sinkPass, .distance "a" "d",
    .addCall { caller := "b", callee := "d" }]

/-- What was measured and what is remembered is the most that four callables allow. A new pass is
about to find the sink one hop from an ID at depth one. -/
theorem depths_below_callables_measured :
    (new.run measured).Reachable ∧ (new.run measured).table.live = 4 ∧ 4 ≤ UInt32.size ∧
    (∃ c, (new.run measured).table.callable? "d" = some c ∧ c.fromEntry = some 3 ∧
      3 < (new.run measured).table.live) ∧
    ((new.run measured).perform (.distance "a" "d")).1 = .distance (some 3) ∧
    3 < (new.run measured).table.live ∧
    ((new.run measured).table.sweepAll .fromEntry 5).ahead = ["d"] ∧
    ((new.run measured).table.sweepAll .fromEntry 5).origin = some ("b", 1) ∧
    1 + 1 < (new.run measured).table.live ∧ 1 + 1 < UInt32.size ∧
    ∃ last, ((new.run measured).table.sweepAll .toSink last).visits =
      ((new.run measured).table.reachAll .toSink).visits := by
  have hreach : (new.run measured).Reachable := ⟨{}, new, measured, rfl, rfl⟩
  have hlive : (new.run measured).table.live = 4 := by decide +kernel
  have hsize : 4 ≤ UInt32.size := by decide
  have hfield : (new.run measured).table.callable? "d" = some
      { id := "d", name := "d", role := .sink, fromEntry := some 3, toSink := some 0 } := by
    decide +kernel
  have hdistance : ((new.run measured).distance "a" "d").1 = some 3 := by decide +kernel
  have hanswer : ((new.run measured).perform (.distance "a" "d")).1 = .distance (some 3) := by
    rw [perform_distance_fst, hdistance]
  have hahead : ((new.run measured).table.sweepAll .fromEntry 5).ahead = ["d"] := by
    decide +kernel
  have horigin : ((new.run measured).table.sweepAll .fromEntry 5).origin = some ("b", 1) := by
    decide +kernel
  have hnew : "d" ∉ ((new.run measured).table.sweepAll .fromEntry 5).visits := by
    decide +kernel
  obtain ⟨hfields, hanswers, hways⟩ := depths_below_callables hreach (hlive ▸ hsize)
  obtain ⟨last, -, hlast⟩ := (hways .toSink).1
  obtain ⟨-, hlt, hfits⟩ :=
    ((hways .fromEntry).2 5).found "d" [] ("b", 1) hahead hnew horigin
  exact ⟨hreach, hlive, hsize, ⟨_, hfield, rfl, hfields "d" _ hfield 3 (Or.inl rfl)⟩, hanswer,
    hanswers "a" "d" (by decide) 3 hanswer, hahead, horigin, hlt, hfits, last, hlast⟩

end Scan
end TaintGraph
