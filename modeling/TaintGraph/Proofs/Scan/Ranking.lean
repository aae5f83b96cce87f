/-
# The ranking is one list, cut at the limit

A limit only cuts the list of all ranked callables. On a reachable scan that list holds every
callable with a positive score once, beside the score that is given for its ID, and reading
the same entries in another order changes nothing of it (`Scan.ranking_exact`).

Key definitions: `Scan.SameEntries`.
Key theorems: `Scan.SameEntries.reordered`, `Scan.ranking_exact`.
-/
import TaintGraph.Proofs.Scan.CallOrder

namespace TaintGraph

namespace Scan

/-- Both scans have read the same entries, maybe in different orders, but with the callables
of each ID in the same order, and have then done the same passes and answered the same
questions. -/
def SameEntries (s s' : Scan) : Prop :=
  ∃ (limits : Limits) (start : Scan) (log log' : List Entry) (reads : List Request),
    ofLimits limits = .ok start ∧ log.Perm log' ∧
    (∀ id, log.filter (Entry.brings id) = log'.filter (Entry.brings id)) ∧
    (∀ r ∈ reads, r.enters = false) ∧
    s = (start.run (log.map Entry.request)).run reads ∧
    s' = (start.run (log'.map Entry.request)).run reads

theorem SameEntries.reachable {s s' : Scan} (h : s.SameEntries s') : s.Reachable := by
  obtain ⟨limits, start, log, log', reads, hstart, -, -, -, rfl, -⟩ := h
  exact ⟨limits, start, log.map Entry.request ++ reads, hstart, (run_append _ _ _).symm⟩

theorem SameEntries.reordered {s s' : Scan} (h : s.SameEntries s') : s.core.Reordered s'.core := by
  obtain ⟨limits, start, log, log', reads, hstart, hperm, hbrings, hreads, rfl, rfl⟩ := h
  obtain ⟨hpos, rfl⟩ := ofLimits_eq_ok hstart
  refine Core.Reordered.run ?_ hreads
  rw [run_entries rfl rfl, run_entries rfl rfl]
  exact ⟨CallTable.reordered_of_logs hperm hbrings, .run log, .run log', rfl⟩

/-- **The ranking is one list, cut at the limit.** On a reachable scan there is one list of
which every ranking is a beginning, and all of it once the limit is the number of callables.
It holds the callables with a positive score, each once and beside the score given for its
ID, the higher score first and equal scores by ID. The order in which the callables come has
no part in it, and neither has the order in which the entries were read. -/
theorem ranking_exact {s : Scan} (h : s.Reachable) :
    ∃ all : List (Callable × Single),
      (∀ limit, (s.perform (.ranking limit)).1 = .ranking (all.take limit)) ∧
      (∀ limit, s.table.live ≤ limit → (s.perform (.ranking limit)).1 = .ranking all) ∧
      (∀ c x, (c, x) ∈ all ↔ s.table.callable? c.id = some c ∧ x = c.score ∧ 0 < x) ∧
      (∀ p ∈ all, (s.perform (.score p.1.id)).1 = .score p.2) ∧
      (all.map fun p => p.1.id).Nodup ∧ all.Pairwise Outranks ∧
      (∀ cs limit, cs.Perm s.table.callables → ranking limit cs = all.take limit) ∧
      ∀ s' : Scan, s.SameEntries s' → ∀ limit,
        (s'.perform (.ranking limit)).1 = .ranking (all.take limit) := by
  have hwf := h.wellFormed
  have hnodup := hwf.nodup_map_id
  refine ⟨ranked s.table.callables, fun limit => rfl, fun limit hlimit => ?_, fun c x => ?_,
    fun p hp => ?_, nodup_ranked hnodup, pairwise_ranked hnodup, fun cs limit hperm => ?_,
    fun s' hsame limit => ?_⟩
  · have hle : (ranked s.table.callables).length ≤ limit :=
      (length_ranked_le _).trans (hwf.length_callables ▸ hlimit)
    show Reply.ranking ((ranked s.table.callables).take limit) = _
    rw [List.take_of_length_le hle]
  · rw [mem_ranked, hwf.mem_callables]
  · obtain ⟨hmem, hscore, -⟩ := mem_ranked.1 hp
    show Reply.score ((s.table.callable? p.1.id).elim 0 Callable.score) = _
    rw [hwf.mem_callables.1 hmem, Option.elim_some, hscore]
  · exact hwf.ranking_perm hperm (.refl _) limit
  · have htable : s.table.Reordered s'.table := hsame.reordered.table
    show Reply.ranking ((ranked s'.table.callables).take limit) = _
    rw [htable.callables]

/-- An entry point, two callables between it and a sink, and one that is not between them. -/
def ladder : List Entry :=
  [.add { id := "main", name := "main", role := .entryPoint }, .add { id := "g", name := "g" },
    .add { id := "f", name := "f" }, .add { id := "exec", name := "exec", role := .sink },
    .add { id := "idle", name := "idle" }]

/-- The calls along both ways, and one away from them. -/
def rungs : List Entry :=
  [.call { caller := "main", callee := "f" }, .call { caller := "main", callee := "g" },
    .call { caller := "f", callee := "exec" }, .call { caller := "g", callee := "exec" },
    .call { caller := "main", callee := "idle" }]

/-- A callable of the ladder at its distances. -/
def placed (id : String) (role : Role) (fromEntry toSink : ℕ) : Callable :=
  { id, name := id, role, fromEntry := some fromEntry, toSink := some toSink }

/-- Both ends have a third and both callables between them a quarter, so either pair stands by
ID; the last callable reaches no sink and is left out. -/
def ladderRanking : List (Callable × Single) :=
  [(placed "exec" .sink 2 0, .round (1 / 3)), (placed "main" .entryPoint 0 2, .round (1 / 3)),
    (placed "f" .regular 1 1, .round (1 / 4)), (placed "g" .regular 1 1, .round (1 / 4))]

/-- The ladder is ranked so, at any limit and also when the calls come first. -/
theorem ranking_exact_ladder :
    let s := (new.run ((ladder ++ rungs).map Entry.request)).run [.entryPass, .sinkPass]
    let s' := (new.run ((rungs ++ ladder).map Entry.request)).run [.entryPass, .sinkPass]
    s.Reachable ∧ s.SameEntries s' ∧
    (s.perform (.ranking 5)).1 = .ranking ladderRanking ∧
    (s.perform (.ranking 2)).1 = .ranking (ladderRanking.take 2) ∧
    (s'.perform (.ranking 3)).1 = .ranking (ladderRanking.take 3) := by
  intro s s'
  have hbrings : ∀ id, (ladder ++ rungs).filter (Entry.brings id) =
      (rungs ++ ladder).filter (Entry.brings id) := by
    intro id
    have hcalls : rungs.filter (Entry.brings id) = [] := rfl
    rw [List.filter_append, List.filter_append, hcalls, List.append_nil, List.nil_append]
  have hsame : s.SameEntries s' :=
    ⟨{}, new, ladder ++ rungs, rungs ++ ladder, [.entryPass, .sinkPass], rfl,
      List.perm_append_comm, hbrings, by decide, rfl, rfl⟩
  have hreach : s.Reachable := hsame.reachable
  have hranked : ranked s.table.callables = ladderRanking :=
    ranked_eq (by decide +kernel) (by decide +kernel) (by decide +kernel)
  obtain ⟨all, htake, hall, -, -, -, -, -, hother⟩ := ranking_exact hreach
  have hfive : (s.perform (.ranking 5)).1 = .ranking all := hall 5 (by decide +kernel)
  have hladder : ladderRanking = all := by
    rw [← Reply.ranking.inj hfive, ranking_eq_take, hranked]
    rfl
  subst hladder
  exact ⟨hreach, hsame, hfive, htake 2, hother s' hsame 3⟩

end Scan
end TaintGraph
