/-
# Three searches agree on the sinks

How an ID stands to the sinks is found in three ways: the pass to the sinks
searches against the calls from all of them at once, the question for reachable
sinks searches along the calls from the ID, and the enumeration walks the chains
depth first. On every reachable scan on which the pass has just run they tell the
same story (`Scan.searches_agree`). Neither the IDs that a walk holds back, nor the
bound on the hops, nor that on the number of chains can hide the only chain, since
a chain to a nearest sink is among those that the walk tries.

Key theorems: `Scan.searches_agree`.
-/
import TaintGraph.Proofs.Scan.Limits
import TaintGraph.Proofs.Table.Shape
import TaintGraph.Proofs.Table.SinkChains

namespace TaintGraph

namespace CallTable

variable {t : CallTable} {root : String} {ids : List String}

theorem length_resolve (h : ∀ id ∈ ids, t.contains id = true) :
    (t.resolve ids).length = ids.length := by
  induction ids with
  | nil => rfl
  | cons id ids ih =>
    obtain ⟨c, hc⟩ := contains_iff.1 (h id List.mem_cons_self)
    have hrest := ih fun x hx => h x (List.mem_cons_of_mem _ hx)
    simpa [resolve, hc] using hrest

/-- A shortest chain is answered with one callable more than hops. -/
theorem length_resolve_shortestChain? (t : CallTable) (a b : String) :
    ((t.shortestChain? a b).map t.resolve).map List.length = (t.distance? a b).map (· + 1) := by
  rw [← length_shortestChain?, Option.map_map]
  exact Option.map_congr fun chain hchain =>
    length_resolve (shortestChain?_liveChain hchain).known

/-- The callables of the reachable sinks are none just when there is no such sink. -/
theorem resolve_sinksFrom_ne_nil_iff :
    t.resolve (t.sinksFrom root) ≠ [] ↔ ∃ n, t.SinkAway root n root := by
  have hknown : ∀ id ∈ t.sinksFrom root, t.contains id = true := fun id hid =>
    contains_iff_hasRole.2 ⟨_, (mem_sinksFrom.1 hid).2.1⟩
  rw [← sinksFrom_ne_nil_iff, ← List.length_pos_iff, length_resolve hknown, List.length_pos_iff]

/-- A sink is in reach just when the ID is one or another one is. -/
theorem exists_linked_sink_iff (hroot : t.contains root = true) :
    (∃ n b, t.HasRole .sink b ∧ t.Linked n root b) ↔
      t.HasRole .sink root ∨ ∃ n, t.SinkAway root n root := by
  constructor
  · intro hreach
    obtain ⟨n, b, hsink, hlinked⟩ := hreach
    by_cases hb : b = root
    · exact Or.inl (hb ▸ hsink)
    · exact Or.inr ⟨n, b, hb, hsink, hlinked⟩
  · intro h
    rcases h with hsink | ⟨n, b, -, hsink, hlinked⟩
    · exact ⟨0, root, hsink, linked_zero.2 ⟨rfl, hroot⟩⟩
    · exact ⟨n, b, hsink, hlinked⟩

/-- From an ID that is no sink, every sink is another one. -/
theorem sinkAway_iff_of_not_sink (hroot : ¬ t.HasRole .sink root) (n : ℕ) :
    (∃ b, t.HasRole .sink b ∧ t.Linked n root b) ↔ t.SinkAway root n root := by
  constructor
  · intro hreach
    obtain ⟨b, hsink, hlinked⟩ := hreach
    exact ⟨b, fun he => hroot (he ▸ hsink), hsink, hlinked⟩
  · intro hreach
    obtain ⟨b, -, hsink, hlinked⟩ := hreach
    exact ⟨b, hsink, hlinked⟩

/-- With as many hops allowed as there are callables, the walk misses no sink. -/
theorem chainsToSinks_ne_nil_iff_of_known_le {k maxPaths : ℕ} (hpos : 0 < maxPaths)
    (hk : t.known.length ≤ k) :
    t.chainsToSinks k maxPaths root ≠ [] ↔ ∃ n, t.SinkAway root n root := by
  rw [chainsToSinks_ne_nil_iff hpos]
  constructor
  · intro hbounded
    obtain ⟨n, -, haway⟩ := hbounded
    exact ⟨n, haway⟩
  · intro hany
    obtain ⟨n, haway⟩ := hany
    obtain ⟨m, -, hleast⟩ := exists_least_sinkAway haway
    have hlt := sinkAway_lt_known hleast
    exact ⟨m, by omega, hleast.1⟩

end CallTable

namespace Scan

variable {s : Scan}

/-- What the pass to the sinks has written when it is over, in terms of the table
that it leaves. -/
theorem toSink_isFewest (h : s.Reachable) {id : String} {c : Callable}
    (hc : (s.perform .sinkPass).2.table.callable? id = some c) :
    IsFewest (fun n => ∃ b, (s.perform .sinkPass).2.table.HasRole .sink b ∧
      (s.perform .sinkPass).2.table.Linked n id b) c.toSink := by
  have htable : (s.perform .sinkPass).2.table =
      s.table.withDistances .toSink (s.table.reachAll .toSink) :=
    perform_table s .sinkPass
  rw [htable] at hc ⊢
  have hshape := CallTable.SameShape.withDistances s.table .toSink (s.table.reachAll .toSink)
  rw [CallTable.callable?_withDistances] at hc
  obtain ⟨old, -, rfl⟩ := Option.map_eq_some_iff.1 hc
  refine (h.wellFormed.reachAll_isFewest .toSink id).congr fun n => ?_
  simp only [hshape.hasRole, hshape.away]
  rfl

theorem Reachable.perform (h : s.Reachable) (r : Request) : (s.perform r).2.Reachable := by
  obtain ⟨limits, start, requests, hstart, rfl⟩ := h
  exact ⟨limits, start, requests ++ [r], hstart, (run_snoc start requests r).symm⟩

theorem perform_chainsToSinks_fst (s : Scan) (source : String) (maxDepth : ℕ) :
    (s.perform (.chainsToSinks source (some maxDepth))).1 =
      .chains (s.chainsToSinks source maxDepth).1 := rfl

/-- The answer holds the callables of the chains that the walk finds. -/
theorem chainsToSinks_fst (s : Scan) (source : String) (maxDepth : ℕ) :
    (s.chainsToSinks source maxDepth).1 =
      (s.table.chainsToSinks maxDepth s.limits.maxPaths source).map s.table.resolve := by
  simp only [chainsToSinks, enter_table, enter_limits]

theorem chainsToSinks_fst_ne_nil_iff {source : String} {maxDepth : ℕ} :
    (s.chainsToSinks source maxDepth).1 ≠ [] ↔
      s.table.chainsToSinks maxDepth s.limits.maxPaths source ≠ [] := by
  rw [chainsToSinks_fst, ne_eq, List.map_eq_nil_iff]

theorem exists_length_chainsToSinks_fst {source : String} {maxDepth n : ℕ} :
    (∃ chain ∈ (s.chainsToSinks source maxDepth).1, chain.length = n) ↔
      ∃ chain ∈ s.table.chainsToSinks maxDepth s.limits.maxPaths source, chain.length = n := by
  rw [chainsToSinks_fst]
  simp only [List.mem_map, exists_exists_and_eq_and]
  refine exists_congr fun chain => and_congr_right fun hchain => ?_
  obtain ⟨-, -, -, -, hknown⟩ := CallTable.sinkAway_of_mem_chainsToSinks hchain
  rw [CallTable.length_resolve hknown]

/-- **Three searches agree on the sinks.** When the pass to the sinks has just run,
a callable has a distance just when it is a sink or sinks are reachable from it. For
one that is no sink, chains of at most `k` hops are returned just when the
distance is at most `k`; if they are fewer than the limit allows, the shortest has
exactly that distance. And with as many hops as there are callables, chains are
returned just when sinks are reachable, from sinks too. -/
theorem searches_agree (h : s.Reachable) {id : String} {c : Callable}
    (hc : (s.perform .sinkPass).2.table.callable? id = some c) :
    let s' := (s.perform .sinkPass).2
    (c.toSink.isSome ↔ c.role = .sink ∨ (s'.perform (.sinksFrom id)).1 ≠ .callables []) ∧
    (c.role ≠ .sink → ∀ k, ∃ chains,
      (s'.perform (.chainsToSinks id (some k))).1 = .chains chains ∧
      (chains ≠ [] ↔ ∃ d ≤ k, c.toSink = some d) ∧
      (chains ≠ [] → chains.length < s'.limits.maxPaths →
        IsFewest (fun n => ∃ chain ∈ chains, chain.length = n + 1) c.toSink)) ∧
    (∀ k, s'.table.live ≤ k →
      ((s'.perform (.chainsToSinks id (some k))).1 ≠ .chains [] ↔
        (s'.perform (.sinksFrom id)).1 ≠ .callables [])) := by
  intro s'
  have hfewest := toSink_isFewest h hc
  have hreach : s'.Reachable := h.perform .sinkPass
  have hpos := hreach.maxPaths_pos
  have hknown : s'.table.contains id = true := CallTable.contains_iff.2 ⟨c, hc⟩
  have hrole : s'.table.HasRole .sink id ↔ c.role = .sink := by
    change (∃ d, s'.table.callable? id = some d ∧ d.role = .sink) ↔ c.role = .sink
    simp [s', hc]
  have hsinks : (s'.perform (.sinksFrom id)).1 ≠ .callables [] ↔
      ∃ n, s'.table.SinkAway id n id := by
    rw [← CallTable.resolve_sinksFrom_ne_nil_iff]
    exact not_congr ⟨Reply.callables.inj, congrArg Reply.callables⟩
  refine ⟨?_, fun hno k => ⟨(s'.chainsToSinks id k).1, rfl, ?_, fun hne hlt => ?_⟩, fun k hk => ?_⟩
  · rw [hfewest.isSome_iff, hsinks, ← hrole]
    exact CallTable.exists_linked_sink_iff hknown
  · have haway := hfewest.congr (CallTable.sinkAway_iff_of_not_sink (mt hrole.1 hno))
    rw [chainsToSinks_fst_ne_nil_iff, CallTable.chainsToSinks_ne_nil_iff hpos]
    exact haway.exists_le_iff k
  · have haway := hfewest.congr (CallTable.sinkAway_iff_of_not_sink (mt hrole.1 hno))
    rw [chainsToSinks_fst_ne_nil_iff] at hne
    rw [chainsToSinks_fst, List.length_map] at hlt
    refine (CallTable.chainsToSinks_isFewest haway hne hlt).congr fun n => ?_
    exact exists_length_chainsToSinks_fst.symm
  · rw [hsinks, ← CallTable.chainsToSinks_ne_nil_iff_of_known_le hpos
      (hreach.wellFormed.live_eq ▸ hk), ← chainsToSinks_fst_ne_nil_iff]
    rw [perform_chainsToSinks_fst, ne_eq, Reply.chains.injEq]

/-- Two chains of different length to one sink, a sink behind a sink, a cycle, a
repeated call, and a call to nowhere. -/
def branching : List Request :=
  [.add { id := "main", name := "main", role := .entryPoint }, .add { id := "f", name := "f" },
    .add { id := "g", name := "g" }, .add { id := "exec", name := "exec", role := .sink },
    .add { id := "log", name := "log", role := .sink }, .add { id := "idle", name := "idle" },
    .addCall { caller := "main", callee := "f" }, .addCall { caller := "f", callee := "g" },
    .addCall { caller := "g", callee := "main" }, .addCall { caller := "g", callee := "exec" },
    .addCall { caller := "main", callee := "g" }, .addCall { caller := "main", callee := "g" },
    .addCall { caller := "exec", callee := "log" },
    .addCall { caller := "idle", callee := "ghost" }]

/-- Of the three chains from the entry point the shortest have the two hops that the
pass has measured, and one hop is not enough; the sink with a sink behind it has a
chain too. -/
theorem searches_agree_branching :
    let s' := ((new.run branching).perform .sinkPass).2
    (new.run branching).Reachable ∧
    s'.table.callable? "main" = some
      { id := "main", name := "main", role := .entryPoint, fromEntry := some 0, toSink := some 2 } ∧
    (∃ chains, (s'.perform (.chainsToSinks "main" (some 5))).1 = .chains chains ∧
      chains.length = 3 ∧ IsFewest (fun n => ∃ chain ∈ chains, chain.length = n + 1) (some 2)) ∧
    (s'.perform (.chainsToSinks "main" (some 1))).1 = .chains [] ∧
    (s'.perform (.chainsToSinks "exec" (some 6))).1 ≠ .chains [] := by
  intro s'
  have hreach : (new.run branching).Reachable := ⟨{}, new, branching, rfl, rfl⟩
  have hmain : s'.table.callable? "main" = some
      { id := "main", name := "main", role := .entryPoint, fromEntry := some 0, toSink := some 2 } :=
    by decide +kernel
  have hexec : s'.table.callable? "exec" =
      some { id := "exec", name := "exec", role := .sink, toSink := some 0 } := by decide +kernel
  obtain ⟨-, hchains, -⟩ := searches_agree hreach hmain
  obtain ⟨-, -, hsink⟩ := searches_agree hreach hexec
  obtain ⟨long, hlong, hlong_iff, hshortest⟩ := hchains (by decide) 5
  obtain ⟨short, hshort, hshort_iff, -⟩ := hchains (by decide) 1
  have hthree : long.length = 3 := by
    rw [perform_chainsToSinks_fst, Reply.chains.injEq] at hlong
    rw [← hlong, chainsToSinks_fst, List.length_map,
      CallTable.chainsToSinks_eq _ _ _ (by decide +kernel)]
    decide +kernel
  refine ⟨hreach, hmain, ⟨long, hlong, hthree, ?_⟩, ?_, ?_⟩
  · have hlimits : s'.limits = {} := (limits_perform _ _).trans (limits_run new branching)
    exact hshortest (hlong_iff.2 ⟨2, by decide, rfl⟩) (by rw [hthree, hlimits]; decide)
  · have hnil : short = [] := by
      by_contra hne
      obtain ⟨d, hd, heq⟩ := hshort_iff.1 hne
      cases heq
      omega
    rw [hshort, hnil]
  · refine (hsink 6 (by decide +kernel)).2 fun hnil => ?_
    exact absurd (Reply.callables.inj hnil) (by decide +kernel)

end Scan
end TaintGraph
