/-
# What is answered about sinks

A scan answers two questions about the sinks ahead of an ID: which of them can be reached,
and along which chains. The first has no limits. Its answer holds every sink that some live
chain reaches, behind other sinks and around cycles too, and it never holds the ID itself
(`Scan.reachable_sinks_exact`).

The second is cut off twice, by the number of chains and by the hops of each. Both cuts are
clean (`Scan.enumeration_truncates`): a smaller number of chains gives the beginning of the
same list, and as long as that cut leaves nothing out, a smaller number of hops gives the
shorter chains of the same list in the same order. Yet the walks behind two such answers soon
have different stacks; they are compared through what they find,
`Walk.chains_eq_take` and `Walk.completions_filter`.

Key theorems: `CallTable.WellFormed.mem_resolve_sinksFrom`, `CallTable.chainsToSinks_take`,
`CallTable.chainsToSinks_filter`, `Scan.reachable_sinks_exact`,
`Scan.enumeration_truncates`.
-/
import TaintGraph.Proofs.Scan.Agreement
import TaintGraph.Proofs.Scan.ShortestChain

namespace TaintGraph

namespace CallTable

variable {t : CallTable} {root : String} {k maxDepth maxPaths morePaths : ℕ}

theorem exists_linked_iff {a b : String} :
    (∃ n, t.Linked n a b) ↔ ∃ chain, t.LiveChain a b chain := by
  constructor
  · intro hlinked
    obtain ⟨-, chain, hchain, -⟩ := hlinked
    exact ⟨chain, hchain⟩
  · intro hlive
    obtain ⟨chain, hchain⟩ := hlive
    exact ⟨_, hchain.linked⟩

/-- The reachable sinks, as the callables that they are now. -/
theorem WellFormed.mem_resolve_sinksFrom (h : t.WellFormed) (c : Callable) :
    c ∈ t.resolve (t.sinksFrom root) ↔
      t.callable? c.id = some c ∧ c.role = .sink ∧ c.id ≠ root ∧
        ∃ chain, t.LiveChain root c.id chain := by
  rw [← exists_linked_iff]
  constructor
  · intro hc
    have hcurrent := h.callable?_of_mem_resolve hc
    obtain ⟨id, hid, hfound⟩ := List.mem_filterMap.1 hc
    obtain rfl := h.id_eq hfound
    obtain ⟨hne, ⟨d, hd, hrole⟩, hlinked⟩ := mem_sinksFrom.1 hid
    obtain rfl : d = c := Option.some.inj (hd.symm.trans hcurrent)
    exact ⟨hcurrent, hrole, hne, hlinked⟩
  · intro hc
    obtain ⟨hcurrent, hrole, hne, hlinked⟩ := hc
    exact List.mem_filterMap.2
      ⟨c.id, mem_sinksFrom.2 ⟨hne, ⟨c, hcurrent, hrole⟩, hlinked⟩, hcurrent⟩

/-- Fewer chains are the first of more. -/
theorem chainsToSinks_take (t : CallTable) (root : String) (maxDepth : ℕ)
    (hle : maxPaths ≤ morePaths) :
    t.chainsToSinks maxDepth maxPaths root =
      (t.chainsToSinks maxDepth morePaths root).take maxPaths := by
  by_cases hroot : t.contains root = true
  · rw [chainsToSinks_eq t _ _ hroot, chainsToSinks_eq t _ _ hroot, List.take_take,
      Nat.min_eq_left hle]
  · rw [chainsToSinks, chainsToSinks, if_neg hroot, if_neg hroot, List.take_nil]

/-- Where no chain is left out for want of room, those of fewer hops are the shorter ones. -/
theorem chainsToSinks_filter (hk : k ≤ maxDepth)
    (hlt : (t.chainsToSinks maxDepth maxPaths root).length < maxPaths) :
    t.chainsToSinks k maxPaths root =
      (t.chainsToSinks maxDepth maxPaths root).filter fun chain => chain.length ≤ k + 1 := by
  by_cases hroot : t.contains root = true
  · have hall := chainsToSinks_eq_completions hroot hlt
    have hshort := Walk.completions_filter t.successors t.isSink hk root []
    rw [hall] at hlt ⊢
    rw [chainsToSinks_eq t k maxPaths hroot, List.take_of_length_le, hshort]
    · rfl
    · rw [hshort]
      exact (List.length_filter_le _ _).trans hlt.le
  · rw [chainsToSinks, chainsToSinks, if_neg hroot, if_neg hroot, List.filter_nil]

/-- A chain is answered with as many callables as it has IDs. -/
theorem length_resolve_of_mem_chainsToSinks {chain : List String}
    (h : chain ∈ t.chainsToSinks maxDepth maxPaths root) :
    (t.resolve chain).length = chain.length := by
  obtain ⟨-, -, -, -, hknown⟩ := sinkAway_of_mem_chainsToSinks h
  exact length_resolve hknown

end CallTable

namespace Scan

/-- **The reachable sinks are exact.** On every reachable scan, an ID that is not known reaches
nothing. From a known one, the answer holds the callables that are sinks now, other than the
one asked about, to which some live chain leads, whatever else it passes; they stand in strict
order of their IDs, so none is named twice. -/
theorem reachable_sinks_exact {s : Scan} (h : s.Reachable) (source : String) :
    ∃ cs, (s.perform (.sinksFrom source)).1 = .callables cs ∧
      (s.table.contains source = false → cs = []) ∧
      (∀ c, c ∈ cs ↔ s.table.callable? c.id = some c ∧ c.role = .sink ∧ c.id ≠ source ∧
        ∃ chain, s.table.LiveChain source c.id chain) ∧
      cs.Pairwise fun c d => c.id < d.id := by
  have hwf := h.wellFormed
  refine ⟨s.table.resolve (s.table.sinksFrom source), rfl, fun hunknown => ?_,
    hwf.mem_resolve_sinksFrom, hwf.sorted_resolve (s.table.ordered_sinksFrom source)⟩
  refine List.eq_nil_iff_forall_not_mem.2 fun c hc => ?_
  obtain ⟨-, -, -, chain, hchain⟩ := (hwf.mem_resolve_sinksFrom c).1 hc
  have hknown := hchain.linked.contains_left
  rw [hunknown] at hknown
  cases hknown

/-- A sink as it stands in a table, at distance zero from itself. -/
def sinkNamed (id : String) : Callable :=
  { id, name := id, role := .sink, toSink := some 0 }

/-- A sink behind a sink, a cycle through both back to the start, two calls between the same
IDs, a detour, and a sink behind an ID that is not known. -/
def circling : List Request :=
  [.add { id := "main", name := "main", role := .entryPoint }, .add { id := "f", name := "f" },
    .add (sinkNamed "log"), .add (sinkNamed "exec"), .add (sinkNamed "lost"),
    .addCall { caller := "main", callee := "f" }, .addCall { caller := "f", callee := "exec" },
    .addCall { caller := "main", callee := "exec" }, .addCall { caller := "main", callee := "exec" },
    .addCall { caller := "exec", callee := "log" }, .addCall { caller := "log", callee := "main" },
    .addCall { caller := "f", callee := "ghost" }, .addCall { caller := "ghost", callee := "lost" }]

/-- From the start both sinks on the cycle are reached, from the first of them only the other,
and the start does not reach the sink that no live chain leads to. -/
theorem reachable_sinks_exact_circling :
    let s := new.run circling
    s.Reachable ∧
    (s.perform (.sinksFrom "main")).1 = .callables [sinkNamed "exec", sinkNamed "log"] ∧
    (∃ chain, s.table.LiveChain "main" "log" chain) ∧
    (¬ ∃ chain, s.table.LiveChain "main" "lost" chain) ∧
    (s.perform (.sinksFrom "exec")).1 = .callables [sinkNamed "log"] ∧
    (s.perform (.sinksFrom "ghost")).1 = .callables [] := by
  intro s
  have hreach : s.Reachable := ⟨{}, new, circling, rfl, rfl⟩
  have hmain : (s.perform (.sinksFrom "main")).1 =
      .callables [sinkNamed "exec", sinkNamed "log"] :=
    congrArg Reply.callables (by decide +kernel)
  have hexec : (s.perform (.sinksFrom "exec")).1 = .callables [sinkNamed "log"] :=
    congrArg Reply.callables (by decide +kernel)
  have hlost : s.table.callable? "lost" = some (sinkNamed "lost") := by decide +kernel
  obtain ⟨cs, hcs, -, hmem, -⟩ := reachable_sinks_exact hreach "main"
  obtain rfl := Reply.callables.inj (hmain.symm.trans hcs)
  obtain ⟨ds, hds, hghost, -⟩ := reachable_sinks_exact hreach "ghost"
  refine ⟨hreach, hmain, ?_, fun hchain => ?_, hexec, ?_⟩
  · obtain ⟨-, -, -, hchain⟩ := (hmem (sinkNamed "log")).1 (by decide)
    exact hchain
  · have hlisted := (hmem (sinkNamed "lost")).2 ⟨hlost, rfl, by decide, hchain⟩
    exact absurd hlisted (by decide)
  · rw [hds, hghost (by decide +kernel)]

/-- **Both cuts of the enumeration are clean.** Of two scans with the same table, the one that
may list fewer chains lists the first of those that the other lists. And as long as a scan
lists fewer chains than it may, asking for chains of fewer hops gives those of the same list
that have no more hops, in the same order. -/
theorem enumeration_truncates {s s' : Scan} (htable : s.table = s'.table)
    (hlimit : s.limits.maxPaths ≤ s'.limits.maxPaths) (source : String) (maxDepth : ℕ) :
    ∃ few many,
      (s.perform (.chainsToSinks source (some maxDepth))).1 = .chains few ∧
      (s'.perform (.chainsToSinks source (some maxDepth))).1 = .chains many ∧
      few = many.take s.limits.maxPaths ∧
      (few.length < s.limits.maxPaths → ∀ k ≤ maxDepth,
        (s.perform (.chainsToSinks source (some k))).1 =
          .chains (few.filter fun cs => cs.length ≤ k + 1)) := by
  refine ⟨_, _, perform_chainsToSinks_fst s source maxDepth,
    perform_chainsToSinks_fst s' source maxDepth, ?_, fun hlt k hk => ?_⟩
  · rw [chainsToSinks_fst, chainsToSinks_fst, ← htable, ← List.map_take,
      ← CallTable.chainsToSinks_take s.table source maxDepth hlimit]
  · rw [chainsToSinks_fst, List.length_map] at hlt
    rw [perform_chainsToSinks_fst, chainsToSinks_fst, chainsToSinks_fst,
      CallTable.chainsToSinks_filter hk hlt, List.filter_map]
    congr 2
    refine List.filter_congr fun chain hchain => ?_
    rw [Function.comp_apply, CallTable.length_resolve_of_mem_chainsToSinks hchain]

/-- The limits have no part in what is recorded. -/
theorem table_run_congr {s s' : Scan} (h : s.core = s'.core) (requests : List Request) :
    (s.run requests).table = (s'.run requests).table := by
  have hcore : (s.run requests).core = (s'.run requests).core := by rw [run_core, run_core, h]
  exact congrArg Core.table hcore

/-- An empty scan that lists two chains at most. -/
def narrow : Scan :=
  { new with limits := { maxPaths := 2 } }

/-- There are three chains from the start. The narrow scan lists the first two of them, and
those of one hop are the last two. -/
theorem enumeration_truncates_circling :
    let s := narrow.run circling
    let s' := new.run circling
    ofLimits { maxPaths := 2 } = .ok narrow ∧ s.table = s'.table ∧
    s.limits.maxPaths ≤ s'.limits.maxPaths ∧
    ∃ many, (s'.perform (.chainsToSinks "main" (some 5))).1 = .chains many ∧
      many.map (List.map Callable.id) =
        [["main", "f", "exec"], ["main", "exec"], ["main", "exec"]] ∧
      (s.perform (.chainsToSinks "main" (some 5))).1 = .chains (many.take 2) ∧
      (s'.perform (.chainsToSinks "main" (some 1))).1 =
        .chains (many.filter fun cs => cs.length ≤ 2) := by
  intro s s'
  have htable : s.table = s'.table := table_run_congr rfl circling
  have htwo : s.limits.maxPaths = 2 := by rw [limits_run]; rfl
  have hmany : s'.limits.maxPaths = 10000 := by rw [limits_run]; rfl
  have hlimit : s.limits.maxPaths ≤ s'.limits.maxPaths := by omega
  obtain ⟨few, many, hs, hs', hfew, -⟩ := enumeration_truncates htable hlimit "main" 5
  obtain ⟨all, -, hall, -, -, hshort⟩ := enumeration_truncates (rfl : s'.table = s'.table) le_rfl
    "main" 5
  obtain rfl : all = many := Reply.chains.inj (hall.symm.trans hs')
  have hids : all.map (List.map Callable.id) =
      [["main", "f", "exec"], ["main", "exec"], ["main", "exec"]] := by
    rw [perform_chainsToSinks_fst, Reply.chains.injEq] at hall
    rw [← hall, chainsToSinks_fst, CallTable.chainsToSinks_eq _ _ _ (by decide +kernel)]
    decide +kernel
  have hthree : all.length < s'.limits.maxPaths := by
    have hlength := congrArg List.length hids
    rw [List.length_map] at hlength
    rw [hlength, hmany]
    decide
  refine ⟨rfl, htable, hlimit, all, hall, hids, ?_, hshort hthree 1 (by decide)⟩
  rw [hs, hfew, htwo]

end Scan
end TaintGraph
