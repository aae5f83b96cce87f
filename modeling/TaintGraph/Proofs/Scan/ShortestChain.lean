/-
# The shortest chain between two IDs

A scan answers the question for a shortest chain with the callables on it. The search that
finds the chain keeps no more than one parent for each ID it visits, and the chain is put
together afterwards from these. On every reachable scan the answer is nevertheless what the
question asks for (`Scan.shortest_chain_exact`): there is none exactly when no live chain
exists, and otherwise it is a live chain of fewest hops that passes no ID twice, told by the
callables as they are now.

Key theorems: `CallTable.shortestChain?_eq_none_iff`, `CallTable.nodup_shortestChain?`,
`CallTable.shortestChain?_self`, `Scan.shortest_chain_exact`.
-/
import TaintGraph.Proofs.Table.LiveChain

namespace TaintGraph

namespace CallTable

variable {t : CallTable} {a b : String} {chain : List String}

theorem LiveChain.linked (h : t.LiveChain a b chain) : t.Linked (chain.length - 1) a b := by
  have hpos := h.length_pos
  exact ⟨chain, h, by omega⟩

/-- There is no shortest chain exactly when there is no live chain at all. -/
theorem shortestChain?_eq_none_iff (t : CallTable) (a b : String) :
    t.shortestChain? a b = none ↔ ∀ chain, ¬ t.LiveChain a b chain := by
  have hdistance : t.shortestChain? a b = none ↔ t.distance? a b = none := by
    rw [distance?, Option.map_eq_none_iff]
  have hfewest := (t.distance?_isFewest a b).isSome_iff
  rw [hdistance, ← Option.not_isSome_iff_eq_none, hfewest, not_exists]
  constructor
  · intro hnone chain hchain
    exact hnone _ hchain.linked
  · intro hnone n hn
    obtain ⟨chain, hchain, -⟩ := hn
    exact hnone chain hchain

theorem nodup_shortestChain? (h : t.shortestChain? a b = some chain) : chain.Nodup := by
  rw [shortestChain?, Search.chainTo?, Option.map_eq_some_iff] at h
  obtain ⟨v, hv, rfl⟩ := h
  exact (t.reach_levelled t.successors [a]).nodup_climb hv rfl

/-- A known ID is the whole of its chain to itself. -/
theorem shortestChain?_self (ha : t.contains a = true) : t.shortestChain? a a = some [a] := by
  have hzero : t.distance? a a = some 0 :=
    (t.distance?_isFewest a a).eq_zero_iff.2 (linked_zero.2 ⟨rfl, ha⟩)
  have hlength := t.length_shortestChain? a a
  rw [hzero] at hlength
  obtain ⟨chain, hchain, hlen⟩ := Option.map_eq_some_iff.1 hlength
  obtain ⟨x, rfl⟩ := List.length_eq_one_iff.1 hlen
  obtain rfl : x = a := by simpa using (shortestChain?_liveChain hchain).head
  exact hchain

/-! ### The callables of a chain -/

theorem WellFormed.callable?_of_mem_resolve (h : t.WellFormed) {ids : List String} {c : Callable}
    (hc : c ∈ t.resolve ids) : t.callable? c.id = some c := by
  obtain ⟨id, -, hid⟩ := List.mem_filterMap.1 hc
  rwa [h.id_eq hid]

/-- The callables of a live chain have its IDs. -/
theorem WellFormed.map_id_resolve_liveChain (h : t.WellFormed) (hchain : t.LiveChain a b chain) :
    (t.resolve chain).map Callable.id = chain := by
  rw [h.map_id_resolve, List.filter_eq_self.2 hchain.known]

/-- At either end of a live chain stands the callable of that end. -/
theorem WellFormed.ends_resolve (h : t.WellFormed) (hchain : t.LiveChain a b chain) :
    (t.resolve chain).head? = t.callable? a ∧ (t.resolve chain).getLast? = t.callable? b := by
  have hids := h.map_id_resolve_liveChain hchain
  have hhead := hchain.head
  have hlast := hchain.last
  rw [← hids, List.head?_map] at hhead
  rw [← hids, List.getLast?_map] at hlast
  obtain ⟨c, hc, rfl⟩ := Option.map_eq_some_iff.1 hhead
  obtain ⟨d, hd, rfl⟩ := Option.map_eq_some_iff.1 hlast
  rw [hc, hd, h.callable?_of_mem_resolve (List.mem_of_mem_head? hc),
    h.callable?_of_mem_resolve (List.mem_of_mem_getLast? hd)]
  exact ⟨rfl, rfl⟩

end CallTable

namespace Scan

/-- **The answer is a shortest chain.** On every reachable scan the question for a chain from
`a` to `b` has no answer exactly when `a` is not known or no live chain leads from `a` to `b`.
Otherwise the answer begins with the callable of `a` and ends with that of `b`, as they are
now; all callables on it are the current ones, no ID occurs twice, a call is recorded from
each to the next, and it has the fewest hops of any live chain from `a` to `b`. From a known
ID to itself it is the callable of that ID alone. -/
theorem shortest_chain_exact {s : Scan} (h : s.Reachable) (a b : String) :
    ∃ answer, (s.perform (.shortestChain a b)).1 = .chain answer ∧
      (answer = none ↔
        s.table.contains a = false ∨ ∀ chain, ¬ s.table.LiveChain a b chain) ∧
      (∀ cs, answer = some cs →
        cs.head? = s.table.callable? a ∧ cs.getLast? = s.table.callable? b ∧
        (∀ c ∈ cs, s.table.callable? c.id = some c) ∧
        (cs.map Callable.id).Nodup ∧
        cs.IsChain (fun c d => s.table.Calls c.id d.id) ∧
        ∃ d, cs.length = d + 1 ∧ IsLeast {n | s.table.Linked n a b} d) ∧
      ∀ c, s.table.callable? a = some c → a = b → answer = some [c] := by
  have hwf := h.wellFormed
  refine ⟨(s.table.shortestChain? a b).map s.table.resolve, rfl, ?_, fun cs hcs => ?_,
    fun c hc hab => ?_⟩
  · rw [Option.map_eq_none_iff, s.table.shortestChain?_eq_none_iff a b]
    refine ⟨Or.inr, fun hnone => ?_⟩
    rcases hnone with hunknown | hnone
    · intro chain hchain
      have hknown := hchain.linked.contains_left
      rw [hunknown] at hknown
      cases hknown
    · exact hnone
  · obtain ⟨chain, hchain, rfl⟩ := Option.map_eq_some_iff.1 hcs
    have hlive := CallTable.shortestChain?_liveChain hchain
    have hids := hwf.map_id_resolve_liveChain hlive
    obtain ⟨hhead, hlast⟩ := hwf.ends_resolve hlive
    refine ⟨hhead, hlast, fun c hc => hwf.callable?_of_mem_resolve hc, ?_, ?_, ?_⟩
    · rw [hids]
      exact CallTable.nodup_shortestChain? hchain
    · rw [← List.isChain_map Callable.id, hids]
      exact hlive.joined
    · have hlength := s.table.length_shortestChain? a b
      rw [hchain] at hlength
      obtain ⟨d, hd, hlen⟩ := Option.map_eq_some_iff.1 hlength.symm
      have hfewest := s.table.distance?_isFewest a b
      rw [hd] at hfewest
      refine ⟨d, ?_, hfewest⟩
      rw [← List.length_map Callable.id, hids]
      exact hlen.symm
  · subst hab
    rw [CallTable.shortestChain?_self (CallTable.contains_iff.2 ⟨c, hc⟩)]
    simp [CallTable.resolve, hc]

/-- A cycle, a call to itself, a repeated call, a detour, and a call through an ID that is not
known, which would be shorter. -/
def looping : List Request :=
  [.add { id := "a", name := "a" }, .add { id := "b", name := "b" },
    .add { id := "c", name := "c" }, .add { id := "d", name := "d" },
    .addCall { caller := "a", callee := "a" },
    .addCall { caller := "a", callee := "ghost" }, .addCall { caller := "ghost", callee := "d" },
    .addCall { caller := "a", callee := "b" }, .addCall { caller := "b", callee := "a" },
    .addCall { caller := "b", callee := "c" }, .addCall { caller := "a", callee := "c" },
    .addCall { caller := "a", callee := "c" }, .addCall { caller := "c", callee := "d" }]

/-- Two hops are the fewest from the first to the last ID, and nothing leads back. -/
theorem shortest_chain_exact_looping :
    (new.run looping).Reachable ∧
    (∃ cs, ((new.run looping).perform (.shortestChain "a" "d")).1 = .chain (some cs) ∧
      cs.map Callable.id = ["a", "c", "d"] ∧
      IsLeast {n | (new.run looping).table.Linked n "a" "d"} 2) ∧
    ∀ chain, ¬ (new.run looping).table.LiveChain "d" "a" chain := by
  have hreach : (new.run looping).Reachable := ⟨{}, new, looping, rfl, rfl⟩
  obtain ⟨there, hthere, -, hshortest, -⟩ := shortest_chain_exact hreach "a" "d"
  obtain ⟨back, hback, hnone, -⟩ := shortest_chain_exact hreach "d" "a"
  have hids : there.map (List.map Callable.id) = some ["a", "c", "d"] := by
    rw [← Reply.chain.inj hthere]
    decide +kernel
  obtain ⟨cs, hcs, hmap⟩ := Option.map_eq_some_iff.1 hids
  obtain ⟨-, -, -, -, -, d, hlen, hleast⟩ := hshortest cs hcs
  have htwo : d = 2 := by
    have hthree := congrArg List.length hmap
    rw [List.length_map, hlen] at hthree
    simpa using hthree
  refine ⟨hreach, ⟨cs, hcs ▸ hthere, hmap, htwo ▸ hleast⟩, ?_⟩
  have hnil : back = none := by
    rw [← Reply.chain.inj hback]
    decide +kernel
  refine (hnone.1 hnil).resolve_left fun hunknown => ?_
  have hknown : (new.run looping).table.contains "d" = true := by decide +kernel
  rw [hunknown] at hknown
  cases hknown

end Scan
end TaintGraph
