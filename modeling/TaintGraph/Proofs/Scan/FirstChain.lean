/-
# Ties between shortest chains

Often several chains of fewest hops lead from one ID to another. The answer of a scan is then
settled by the order in which the calls were recorded. Each hop of a chain has a place among
the calls out of the ID that it leaves, that of the first call to where it leads
(`CallTable.callSite`), and chains are compared by the places of their hops, from the start.
On every reachable scan the answer is the first of all shortest chains in this order, and
each of its beginnings is the answer for where it ends (`Scan.shortest_chain_first`).

The search knows nothing of whole chains. That a tie between two of them goes the right way
is what `TaintGraph.Proofs.Search.FirstWalk` shows for any search from one ID; here it is
applied to the calls of a table.

Key definitions: `CallTable.callSite`, `CallTable.IsShortest`.
Key theorems: `CallTable.pairwise_callSite`, `CallTable.shortestChain?_first`,
`CallTable.shortestChain?_of_front`, `Scan.shortest_chain_first`.
-/
import TaintGraph.Proofs.Scan.ShortestChain
import TaintGraph.Proofs.Search.FirstWalk

namespace TaintGraph

/-- Members that are left when repetitions are taken off a list stand in the order of their
first places in it. -/
theorem pairwise_idxOf_eraseDups (p : String → Bool) (ids : List String) :
    (ids.filter p).eraseDups.Pairwise fun b c => ids.idxOf b < ids.idxOf c := by
  induction ids generalizing p with
  | nil => exact List.Pairwise.nil
  | cons a ids ih =>
    -- What differs from `a` is found one place further on than without it.
    have hrest : ∀ q : String → Bool, (∀ b, q b = true → b ≠ a) →
        (ids.filter q).eraseDups.Pairwise fun b c => (a :: ids).idxOf b < (a :: ids).idxOf c := by
      intro q hq
      refine (ih q).imp_of_mem fun {b c} hb hc hlt => ?_
      have hne : ∀ {x}, x ∈ (ids.filter q).eraseDups → ¬ a = x := fun {x} hx he =>
        hq x (List.of_mem_filter (List.mem_eraseDups.1 hx)) he.symm
      rw [List.idxOf_cons_ne _ (hne hb), List.idxOf_cons_ne _ (hne hc)]
      omega
    by_cases ha : p a = true
    · rw [List.filter_cons_of_pos ha, List.eraseDups_cons, List.filter_filter,
        List.pairwise_cons]
      refine ⟨fun c hc => ?_, hrest _ fun b hb => by simpa using (Bool.and_eq_true_iff.1 hb).1⟩
      have hne : ¬ a = c := fun he => by simp [← he] at hc
      rw [List.idxOf_cons_self, List.idxOf_cons_ne _ hne]
      omega
    · rw [List.filter_cons_of_neg ha]
      exact hrest p fun b hb he => ha (he ▸ hb)

namespace CallTable

/-- The place of the first call from `a` to `b` among the calls out of `a`. -/
def callSite (t : CallTable) (a b : String) : ℕ :=
  ((t.outgoing a).map Call.callee).idxOf b

/-- A live chain of fewest hops. -/
def IsShortest (t : CallTable) (a b : String) (chain : List String) : Prop :=
  t.LiveChain a b chain ∧ ∀ other, t.LiveChain a b other → chain.length ≤ other.length

variable {t : CallTable} {a b : String} {chain : List String}

/-- The IDs called from an ID, each once, stand in the order of their first calls. -/
theorem pairwise_callSite (t : CallTable) (a : String) :
    (t.successors a).eraseDups.Pairwise fun b c => t.callSite a b < t.callSite a c :=
  pairwise_idxOf_eraseDups t.contains _

theorem isShortest_shortestChain? (h : t.shortestChain? a b = some chain) :
    t.IsShortest a b chain := by
  refine ⟨shortestChain?_liveChain h, fun other hother => ?_⟩
  have hfewest := t.distance?_isFewest a b
  rw [distance?, h] at hfewest
  have hle : chain.length - 1 ≤ other.length - 1 := hfewest.2 hother.linked
  have hpos := hother.length_pos
  omega

theorem reachFrom_firstFound (ha : t.contains a = true) :
    Search.FirstFound t.successors a (t.reachFrom a) := by
  have hseeds : [a].filter t.contains = [a] := by simp [ha]
  rw [reachFrom, reach, hseeds]
  exact (Search.FirstFound.start _ _).run (Search.Levelled.start _ _) _

/-- The shortest chain that is found comes before all others of its length. -/
theorem shortestChain?_first (h : t.shortestChain? a b = some chain) {other : List String}
    (hother : t.LiveChain a b other) (hlen : other.length = chain.length) :
    other = chain ∨
      List.Lex (· < ·) (Search.places t.callSite chain) (Search.places t.callSite other) := by
  have ha : t.contains a = true := hother.linked.contains_left
  have hlevels := t.reach_levelled t.successors [a]
  have hseeds : [a].filter t.contains = [a] := by simp [ha]
  rw [hseeds] at hlevels
  rw [shortestChain?, Search.chainTo?, Option.map_eq_some_iff] at h
  obtain ⟨v, hv, rfl⟩ := h
  have hjoined : other.IsChain fun x y => y ∈ t.successors x :=
    hother.joined.imp_of_mem_imp fun x y _ hy hcall =>
      mem_successors.2 ⟨hcall, hother.known y hy⟩
  refine Search.climb_first t.pairwise_callSite (reachFrom_firstFound ha) hlevels hv hother.head
    hother.last hjoined ?_
  have hclimb := hlevels.length_climb hv rfl []
  rw [hlen, reachFrom, hclimb]
  rfl

/-- A beginning of a shortest chain is the shortest chain that is found to its end. -/
theorem shortestChain?_of_front (h : t.shortestChain? a b = some chain) {front : List String}
    {x : String} (hfront : front ++ [x] <+: chain) :
    t.shortestChain? a x = some (front ++ [x]) := by
  rw [shortestChain?, Search.chainTo?, Option.map_eq_some_iff] at h
  obtain ⟨v, hv, rfl⟩ := h
  exact (t.reach_levelled t.successors [a]).chainTo?_of_front hv rfl hfront

theorem resolve_map_id {cs : List Callable} (h : ∀ c ∈ cs, t.callable? c.id = some c) :
    t.resolve (cs.map Callable.id) = cs := by
  rw [resolve, List.filterMap_map]
  exact (List.filterMap_congr h).trans List.filterMap_some

end CallTable

namespace Scan

/-- **Ties between shortest chains.** When a reachable scan answers with a chain from `a` to
`b`, it is a shortest one and comes before every other: at the first hop in which the two
differ, the first call to where the answer goes on stands before the first call to where the
other does, among the calls out of the ID at which they part. Every beginning of the answer
is the answer for the ID at its end. -/
theorem shortest_chain_first {s : Scan} (h : s.Reachable) {a b : String} {cs : List Callable}
    (hanswer : (s.perform (.shortestChain a b)).1 = .chain (some cs)) :
    s.table.IsShortest a b (cs.map Callable.id) ∧
    (∀ chain, s.table.IsShortest a b chain → chain ≠ cs.map Callable.id →
      List.Lex (· < ·) (Search.places s.table.callSite (cs.map Callable.id))
        (Search.places s.table.callSite chain)) ∧
    ∀ front c, front ++ [c] <+: cs →
      (s.perform (.shortestChain a c.id)).1 = .chain (some (front ++ [c])) := by
  have hwf := h.wellFormed
  obtain ⟨ids, hids, rfl⟩ := Option.map_eq_some_iff.1 (Reply.chain.inj hanswer)
  have hshortest := CallTable.isShortest_shortestChain? hids
  rw [hwf.map_id_resolve_liveChain hshortest.1]
  refine ⟨hshortest, fun chain hchain hne => ?_, fun front c hfront => ?_⟩
  · have hlen : chain.length = ids.length :=
      Nat.le_antisymm (hchain.2 _ hshortest.1) (hshortest.2 _ hchain.1)
    exact (CallTable.shortestChain?_first hids hchain.1 hlen).resolve_left hne
  · have hcurrent : ∀ d ∈ front ++ [c], s.table.callable? d.id = some d := fun d hd =>
      hwf.callable?_of_mem_resolve (hfront.subset hd)
    have hfront' := hfront.map Callable.id
    rw [hwf.map_id_resolve_liveChain hshortest.1, List.map_append, List.map_singleton] at hfront'
    show Reply.chain ((s.table.shortestChain? a c.id).map s.table.resolve) = _
    rw [CallTable.shortestChain?_of_front hids hfront', Option.map_some,
      ← List.map_singleton (f := Callable.id), ← List.map_append,
      CallTable.resolve_map_id hcurrent]

/-- A callable that is named like its ID. -/
def named (id : String) : Callable :=
  { id, name := id }

/-- Two ways round to `z` and two on to `t`. In either place the calls that come first lead
through the greater ID; one is recorded again later, and a call to an ID that is not known
stands before all of them. -/
def tied : List Request :=
  (["a", "p", "q", "t", "x", "y", "z"].map fun id => .add (named id)) ++
  [.addCall { caller := "a", callee := "ghost" }, .addCall { caller := "x", callee := "z" },
    .addCall { caller := "y", callee := "z" }, .addCall { caller := "a", callee := "y" },
    .addCall { caller := "a", callee := "x" }, .addCall { caller := "a", callee := "y" },
    .addCall { caller := "p", callee := "t" }, .addCall { caller := "z", callee := "q" },
    .addCall { caller := "z", callee := "p" }, .addCall { caller := "q", callee := "t" }]

/-- Of the four chains of four hops the answer takes the first call at both forks, so it comes
before the one that parts from it at the second; and its first two hops are the answer for
`z`. -/
theorem shortest_chain_first_tied :
    let s := new.run tied
    s.Reachable ∧
    (s.perform (.shortestChain "a" "t")).1 =
      .chain (some (["a", "y", "z", "q", "t"].map named)) ∧
    s.table.IsShortest "a" "t" ["a", "y", "z", "p", "t"] ∧
    List.Lex (· < ·) (Search.places s.table.callSite ["a", "y", "z", "q", "t"])
      (Search.places s.table.callSite ["a", "y", "z", "p", "t"]) ∧
    (s.perform (.shortestChain "a" "z")).1 = .chain (some (["a", "y", "z"].map named)) := by
  intro s
  have hreach : s.Reachable := ⟨{}, new, tied, rfl, rfl⟩
  have hanswer : (s.perform (.shortestChain "a" "t")).1 =
      .chain (some (["a", "y", "z", "q", "t"].map named)) :=
    congrArg Reply.chain (by decide +kernel)
  obtain ⟨hshortest, hfirst, hfront⟩ := shortest_chain_first hreach hanswer
  have hother : s.table.IsShortest "a" "t" ["a", "y", "z", "p", "t"] := by
    have hsteps : ["a", "y", "z", "p", "t"].IsChain fun x y => y ∈ s.table.successors x := by
      decide +kernel
    refine ⟨⟨rfl, rfl, by decide +kernel, ?_⟩, hshortest.2⟩
    exact hsteps.imp fun x y hy => (CallTable.mem_successors.1 hy).1
  exact ⟨hreach, hanswer, hother, hfirst _ hother (by decide),
    hfront [named "a", named "y"] (named "z") (by decide)⟩

end Scan
end TaintGraph
