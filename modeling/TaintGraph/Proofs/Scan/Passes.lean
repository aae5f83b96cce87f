/-
# Passes measure the fewest hops

A pass writes one distance of every callable. On every reachable scan, whatever
earlier passes left behind, the pass from the entry points writes the fewest hops
of a live chain from an entry point, and the pass to the sinks the fewest hops of
a live chain to a sink; a callable that no such chain reaches loses the distance
it had. A pass returns how many callables have the distance afterwards, and
leaves everything else as it was (`Scan.SameBut`). Both are one argument about a
direction (`Scan.Reachable.pass_measures`).

Key definitions: `Scan.SameBut`.
Key theorems: `Scan.Reachable.pass_measures`, `Scan.passes_measure_fewest_hops`.
-/
import TaintGraph.Proofs.Table.LiveChain

namespace TaintGraph

open Std (TreeMap TreeSet)

namespace CallTable

variable {t : CallTable}

theorem reach_contains {next : String → List String}
    (hnext : ∀ {a b}, b ∈ next a → t.contains b = true) {seeds : List String} {id : String}
    (hid : id ∈ (t.reach next seeds).visits) : t.contains id = true := by
  obtain ⟨v, hv⟩ := Search.mem_visits_iff.1 hid
  have hn := (t.reach_levelled next seeds).hops hv
  -- Every visit but a seed is the neighbour of another one.
  revert hn
  generalize v.depth = n
  rintro (hseed | ⟨-, hstep⟩)
  · exact (List.mem_filter.1 hseed).2
  · exact hnext hstep

/-- A search that visits known IDs only has as many visits as callables that it
gives a distance. -/
theorem size_visits_eq_countP {s : Search} (hs : ∀ id, id ∈ s.visits → t.contains id = true)
    (d : Direction) :
    s.visits.size = (t.withDistances d s).callables.countP fun c => (c.hops d).isSome := by
  have hperm : s.visits.keys.Perm (t.known.filter fun id => id ∈ s.visits) := by
    refine (List.perm_ext_iff_of_nodup TreeMap.nodup_keys ((nodup_known t).filter _)).2 fun id => ?_
    rw [TreeMap.mem_keys, List.mem_filter, mem_known, decide_eq_true_eq]
    exact ⟨fun hid => ⟨hs id hid, hid⟩, fun hid => hid.2⟩
  have hknown : (t.withDistances d s).known = t.known := known_mapCallables _ t
  rw [← TreeMap.length_keys, hperm.length_eq, ← List.countP_eq_length_filter, callables_eq,
    hknown, List.countP_filterMap]
  refine List.countP_congr fun id hid => ?_
  obtain ⟨c, hc⟩ := contains_iff.1 (mem_known.1 hid)
  simp [hc]

end CallTable

namespace Scan

/-- Beside the callables and the journal the two scans are the same: no call, no
list of a role, no count and no memoised distance differs. -/
structure SameBut (s s' : Scan) : Prop where
  outgoing : ∀ id, s'.table.outgoing id = s.table.outgoing id
  incoming : ∀ id, s'.table.incoming id = s.table.incoming id
  entryPoints : s'.table.entryPoints = s.table.entryPoints
  sources : s'.table.sources = s.table.sources
  sinks : s'.table.sinks = s.table.sinks
  live : s'.table.live = s.table.live
  calls : s'.table.calls = s.table.calls
  memo : s'.memo = s.memo
  limits : s'.limits = s.limits

theorem pass_eq (d : Direction) (s : Scan) :
    s.pass d = ((s.table.reachAll d).visits.size,
      { s.enter with table := s.table.withDistances d (s.table.reachAll d) }.report
        [.pass d (s.table.seeds d).size (s.table.reachAll d).visits.size s.table.live]) := by
  simp only [pass, enter_table]

theorem sameBut_pass (d : Direction) (s : Scan) : SameBut s (s.pass d).2 := by
  rw [pass_eq]
  exact
    { outgoing := CallTable.outgoing_withDistances d _ _
      incoming := CallTable.incoming_withDistances d _ _
      entryPoints := rfl
      sources := rfl
      sinks := rfl
      live := rfl
      calls := rfl
      memo := enter_memo s
      limits := enter_limits s }

/-- A pass measures the fewest hops in its direction. -/
theorem Reachable.pass_measures {s : Scan} (h : s.Reachable) (d : Direction) :
    (∀ id, ∃ n,
      IsFewest (fun k => ∃ seed, s.table.HasRole d.role seed ∧ s.table.Away d k seed id) n ∧
      (s.pass d).2.table.callable? id = (s.table.callable? id).map (Callable.setHops d n)) ∧
    (s.pass d).1 = (s.pass d).2.table.callables.countP (fun c => (c.hops d).isSome) ∧
    SameBut s (s.pass d).2 := by
  refine ⟨fun id => ⟨_, h.wellFormed.reachAll_isFewest d id, ?_⟩, ?_, sameBut_pass d s⟩
  · rw [pass_eq]
    exact CallTable.callable?_withDistances d _ s.table id
  · rw [pass_eq]
    exact CallTable.size_visits_eq_countP
      (fun id hid => CallTable.reach_contains CallTable.contains_of_mem_further hid) d

/-- **Passes measure the fewest hops.** On a reachable scan the pass from the
entry points gives every callable the fewest hops of a live chain from an entry
point to it, or none when there is no such chain, and the pass to the sinks the
fewest hops of a live chain from it to a sink. Each returns the number of
callables that have the distance then, and changes nothing else. -/
theorem passes_measure_fewest_hops {s : Scan} (h : s.Reachable) :
    ((∀ id, ∃ d,
        IsFewest (fun n => ∃ a, s.table.HasRole .entryPoint a ∧ s.table.Linked n a id) d ∧
        s.entryPass.2.table.callable? id =
          (s.table.callable? id).map fun c => { c with fromEntry := d }) ∧
      s.entryPass.1 = s.entryPass.2.table.callables.countP (fun c => c.fromEntry.isSome) ∧
      SameBut s s.entryPass.2) ∧
    ((∀ id, ∃ d,
        IsFewest (fun n => ∃ b, s.table.HasRole .sink b ∧ s.table.Linked n id b) d ∧
        s.sinkPass.2.table.callable? id =
          (s.table.callable? id).map fun c => { c with toSink := d }) ∧
      s.sinkPass.1 = s.sinkPass.2.table.callables.countP (fun c => c.toSink.isSome) ∧
      SameBut s s.sinkPass.2) :=
  ⟨h.pass_measures .fromEntry, h.pass_measures .toSink⟩

/-- Two entry points, a cycle, a repeated call, a call to nowhere, a callable that
is replaced, and distances left by an earlier pass. -/
def tangled : List Request :=
  [.add { id := "main", name := "main", role := .entryPoint },
    .add { id := "late", name := "late", role := .entryPoint },
    .add { id := "f", name := "f" }, .add { id := "g", name := "g", role := .entryPoint },
    .addCall { caller := "main", callee := "f" }, .addCall { caller := "main", callee := "f" },
    .addCall { caller := "f", callee := "g" }, .addCall { caller := "g", callee := "main" },
    .addCall { caller := "g", callee := "ghost" }, .entryPass,
    .add { id := "g", name := "g", role := .sink }]

/-- The callable that was an entry point and is a sink now is two hops away from
one; the entry point without calls reaches no sink. -/
theorem passes_measure_fewest_hops_tangled :
    (new.run tangled).Reachable ∧
    IsFewest (fun n => ∃ a, (new.run tangled).table.HasRole .entryPoint a ∧
      (new.run tangled).table.Linked n a "g") (some 2) ∧
    IsFewest (fun n => ∃ b, (new.run tangled).table.HasRole .sink b ∧
      (new.run tangled).table.Linked n "late" b) none ∧
    (new.run tangled).entryPass.1 = 4 := by
  have hreach : (new.run tangled).Reachable := ⟨{}, new, tangled, rfl, rfl⟩
  obtain ⟨⟨hentry, hcount, -⟩, hsink, -⟩ := passes_measure_fewest_hops hreach
  obtain ⟨d, hd, hg⟩ := hentry "g"
  obtain ⟨e, he, hlate⟩ := hsink "late"
  refine ⟨hreach, ?_, ?_, ?_⟩
  · have heval : ((new.run tangled).entryPass.2.table.callable? "g").map Callable.fromEntry =
        some (some 2) := by decide +kernel
    rw [hg, Option.map_map] at heval
    obtain ⟨c, -, hc⟩ := Option.map_eq_some_iff.1 heval
    obtain rfl : d = some 2 := hc
    exact hd
  · have heval : ((new.run tangled).sinkPass.2.table.callable? "late").map Callable.toSink =
        some none := by decide +kernel
    rw [hlate, Option.map_map] at heval
    obtain ⟨c, -, hc⟩ := Option.map_eq_some_iff.1 heval
    obtain rfl : e = none := hc
    exact he
  · rw [hcount]
    decide +kernel

end Scan
end TaintGraph
