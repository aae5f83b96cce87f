/-
# The order of calls does not matter to what is measured

Two logs may hold the same entries in different orders. As long as the callables of each ID
keep theirs, the tables they lead to know the same callables and have recorded the same
calls, in some order (`CallTable.reordered_of_logs`). Passes and questions keep such scans
together and, with the memo empty at first, their memos equal (`Core.Reordered.perform`).
So no measure tells them apart: distances, ranking, census, reachable sinks, the length of
shortest chains, and the chains to sinks as long as none was left out
(`Scan.call_order_irrelevant`). Which of several shortest chains is returned, and in which
order chains are listed, does depend on the order of the calls.

Key definitions: `Core.Reordered`.
Key theorems: `CallTable.reordered_of_logs`, `Core.Reordered.perform`,
`Scan.call_order_irrelevant`.
-/
import TaintGraph.Proofs.Scan.Agreement
import TaintGraph.Proofs.Scan.Arrival
import TaintGraph.Proofs.Scan.Staleness
import TaintGraph.Proofs.Table.Reordered

namespace TaintGraph

/-- Logs with the same entries in which the callables of each ID keep their order lead to
tables that differ in the order of the calls only. -/
theorem CallTable.reordered_of_logs {log log' : List Entry} (hperm : log.Perm log')
    (hbrings : ∀ id, log.filter (Entry.brings id) = log'.filter (Entry.brings id)) :
    (log.foldl Entry.enter {}).Reordered (log'.foldl Entry.enter {}) := by
  have hlog := Follows.run log
  have hlog' := Follows.run log'
  have hcalls : (recorded log).Perm (recorded log') := hperm.filterMap Entry.call?
  refine ⟨funext fun id => ?_, fun id => ?_, ?_⟩
  · rw [hlog.callable?, hlog'.callable?, lastTaken_congr (hbrings id)]
  · rw [hlog.outgoing, hlog'.outgoing]
    exact hcalls.filter _
  · rw [hlog.calls, hlog'.calls, hcalls.length_eq]

/-! ### Reordered scans -/

/-- The tables differ in the order of their calls only, and the memos are equal. -/
structure Core.Reordered (k k' : Core) : Prop where
  table : k.table.Reordered k'.table
  wellFormed : k.table.WellFormed
  wellFormed' : k'.table.WellFormed
  memo : k.memo = k'.memo

namespace Core.Reordered

variable {k k' : Core} {s s' : Scan}

theorem measure (h : k.Reordered k') (d : Direction) :
    (Edit.apply k (.measure d)).Reordered (Edit.apply k' (.measure d)) :=
  ⟨h.table.withDistances h.wellFormed h.wellFormed' d, h.wellFormed.edit (.measure d),
    h.wellFormed'.edit (.measure d), h.memo⟩

theorem ask (h : k.Reordered k') (source target : String) :
    (Edit.apply k (.ask source target)).Reordered (Edit.apply k' (.ask source target)) := by
  refine ⟨h.table, h.wellFormed, h.wellFormed', ?_⟩
  show k.memo.consult _ (k.table.distance? source target) =
    k'.memo.consult _ (k'.table.distance? source target)
  rw [h.memo, h.table.distance?]

/-- **Passes and questions keep scans reordered.** -/
theorem perform (h : s.core.Reordered s'.core) {r : Request} (hr : r.enters = false) :
    (s.perform r).2.core.Reordered (s'.perform r).2.core := by
  rw [Scan.perform_core, Scan.perform_core]
  cases r with
  | add | addIfAbsent | addCall | declareFunction | declareMethod | recordCall => cases hr
  | entryPass | failingEntryPass => exact h.measure .fromEntry
  | sinkPass => exact h.measure .toSink
  | distance source target =>
    rw [Request.edits]
    split_ifs
    · exact h
    · exact h.ask source target
  | _ => exact h

theorem run (h : s.core.Reordered s'.core) {reads : List Request}
    (hreads : ∀ r ∈ reads, r.enters = false) :
    (s.run reads).core.Reordered (s'.run reads).core := by
  induction reads generalizing s s' with
  | nil => exact h
  | cons r reads ih =>
    have hrest := ih (h.perform (hreads r List.mem_cons_self))
    exact hrest fun x hx => hreads x (List.mem_cons_of_mem _ hx)

/-! ### What reordered scans answer -/

theorem distance (h : s.core.Reordered s'.core) (a b : String) :
    (s.distance a b).1 = (s'.distance a b).1 := by
  have htable : s.table.Reordered s'.table := h.table
  exact Scan.distance_congr h.memo htable.distance? a b

theorem census (h : s.core.Reordered s'.core) : s.census = s'.census := by
  have hmemo : s.memo = s'.memo := h.memo
  have htable : s.table.Reordered s'.table := h.table
  have hwf : s.table.WellFormed := h.wellFormed
  have hwf' : s'.table.WellFormed := h.wellFormed'
  obtain ⟨hentries, hsources, hsinks⟩ := htable.size_lists hwf hwf'
  simp only [Scan.census, htable.live hwf hwf', htable.calls, hentries, hsources, hsinks,
    htable.callables, hmemo]

theorem chainsToSinks (h : s.core.Reordered s'.core) (hlimits : s.limits = s'.limits)
    {source : String} {k : ℕ} (hlt : (s.chainsToSinks source k).1.length < s.limits.maxPaths) :
    (s.chainsToSinks source k).1.Perm (s'.chainsToSinks source k).1 := by
  have htable : s.table.Reordered s'.table := h.table
  rw [Scan.chainsToSinks_fst, List.length_map] at hlt
  rw [Scan.chainsToSinks_fst, Scan.chainsToSinks_fst, ← hlimits, ← htable.resolve]
  exact (htable.chainsToSinks source hlt).map _

end Core.Reordered

namespace Scan

/-- **The order of calls does not matter to what is measured.** Take two logs with the same
entries in which the callables of each ID come in the same order, and read them into empty
scans with the same limits. After the same passes and questions, every callable has the same
distances, and the ranking of any length, the census, the distance between any two IDs and
the sinks reachable from any ID are the same. The rankings are the same also when either
table's callables are gone through in another order, such as that of their arrival. A
shortest chain between two IDs is as long, and the chains to sinks are the same, each as
often, unless their number reaches the limit. -/
theorem call_order_irrelevant {limits : Limits} {start : Scan}
    (hstart : ofLimits limits = .ok start) {log log' : List Entry} (hperm : log.Perm log')
    (hbrings : ∀ id, log.filter (Entry.brings id) = log'.filter (Entry.brings id))
    {reads : List Request} (hreads : ∀ r ∈ reads, r.enters = false) :
    let s := (start.run (log.map Entry.request)).run reads
    let s' := (start.run (log'.map Entry.request)).run reads
    (∀ id, (s.perform (.callable id)).1 = (s'.perform (.callable id)).1) ∧
    (∀ limit, (s.perform (.ranking limit)).1 = (s'.perform (.ranking limit)).1) ∧
    (∀ limit cs cs', cs.Perm s.table.callables → cs'.Perm s'.table.callables →
      ranking limit cs = ranking limit cs') ∧
    (s.perform .census).1 = (s'.perform .census).1 ∧
    (∀ a b, (s.perform (.distance a b)).1 = (s'.perform (.distance a b)).1) ∧
    (∀ source, (s.perform (.sinksFrom source)).1 = (s'.perform (.sinksFrom source)).1) ∧
    (∀ a b, ∃ chain chain',
      (s.perform (.shortestChain a b)).1 = .chain chain ∧
      (s'.perform (.shortestChain a b)).1 = .chain chain' ∧
      chain.map List.length = chain'.map List.length) ∧
    ∀ source k, ∃ chains chains',
      (s.perform (.chainsToSinks source k)).1 = .chains chains ∧
      (s'.perform (.chainsToSinks source k)).1 = .chains chains' ∧
      (chains.length < limits.maxPaths → chains.Perm chains') := by
  obtain ⟨hpos, rfl⟩ := ofLimits_eq_ok hstart
  intro s s'
  have hread : s.core.Reordered s'.core := by
    refine Core.Reordered.run ?_ hreads
    rw [run_entries rfl rfl, run_entries rfl rfl]
    exact ⟨CallTable.reordered_of_logs hperm hbrings, .run log, .run log', rfl⟩
  have htable : s.table.Reordered s'.table := hread.table
  have hlimits : s.limits = limits := (limits_run _ _).trans (limits_run _ _)
  have hlimits' : s'.limits = limits := (limits_run _ _).trans (limits_run _ _)
  have hranking : ∀ limit cs cs', cs.Perm s.table.callables → cs'.Perm s'.table.callables →
      ranking limit cs = ranking limit cs' := fun limit cs cs' hcs hcs' =>
    CallTable.WellFormed.ranking_perm hread.wellFormed hcs (htable.callables ▸ hcs') limit
  refine ⟨fun id => ?_, fun limit => ?_, hranking, congrArg Reply.census hread.census,
    fun a b => congrArg Reply.distance (hread.distance a b), fun source => ?_,
    fun a b => ⟨_, _, rfl, rfl, ?_⟩, fun source k => ?_⟩
  · exact congrArg Reply.callable (congrFun htable.callable? id)
  · exact congrArg Reply.ranking (hranking limit _ _ (.refl _) (.refl _))
  · show Reply.callables (s.table.resolve (s.table.sinksFrom source)) =
      Reply.callables (s'.table.resolve (s'.table.sinksFrom source))
    rw [htable.sinksFrom, htable.resolve]
  · rw [CallTable.length_resolve_shortestChain?, CallTable.length_resolve_shortestChain?,
      htable.distance?]
  · refine ⟨(s.chainsToSinks source (k.getD s.limits.maxPathLength)).1,
      (s'.chainsToSinks source (k.getD s.limits.maxPathLength)).1, rfl, ?_, fun hlt => ?_⟩
    · rw [hlimits, ← hlimits']
      rfl
    · exact hread.chainsToSinks (hlimits.trans hlimits'.symm) (hlimits.symm ▸ hlt)

/-- Two chains of two hops to a sink that is entered twice. -/
def forked : List Entry :=
  [.add { id := "main", name := "main", role := .entryPoint }, .add { id := "f", name := "f" },
    .add { id := "g", name := "g" }, .call { caller := "main", callee := "f" },
    .call { caller := "main", callee := "g" }, .call { caller := "f", callee := "exec" },
    .call { caller := "g", callee := "exec" }, .add { id := "exec", name := "exec" },
    .add { id := "exec", name := "exec", role := .sink }]

/-- The same with the calls and the callables of different IDs in another order. -/
def shuffled : List Entry :=
  [.call { caller := "g", callee := "exec" }, .add { id := "exec", name := "exec" },
    .call { caller := "main", callee := "g" }, .add { id := "g", name := "g" },
    .add { id := "f", name := "f" }, .call { caller := "f", callee := "exec" },
    .call { caller := "main", callee := "f" },
    .add { id := "exec", name := "exec", role := .sink },
    .add { id := "main", name := "main", role := .entryPoint }]

/-- From either log the sink is two hops from the entry point, and both chains to it are
found. -/
theorem call_order_irrelevant_shuffled :
    let s := (new.run (forked.map Entry.request)).run [.entryPass, .sinkPass]
    let s' := (new.run (shuffled.map Entry.request)).run [.entryPass, .sinkPass]
    ofLimits {} = .ok new ∧ forked.Perm shuffled ∧
    (∀ id, forked.filter (Entry.brings id) = shuffled.filter (Entry.brings id)) ∧
    (∀ r ∈ [Request.entryPass, .sinkPass], r.enters = false) ∧
    (s'.perform (.callable "exec")).1 = .callable (some
      { id := "exec", name := "exec", role := .sink, fromEntry := some 2, toSink := some 0 }) ∧
    ranking 3 s.table.callables.reverse = ranking 3 s'.table.callables ∧
    ∃ chains chains',
      (s.perform (.chainsToSinks "main" (some 5))).1 = .chains chains ∧
      (s'.perform (.chainsToSinks "main" (some 5))).1 = .chains chains' ∧
      chains.length = 2 ∧ chains.Perm chains' := by
  intro s s'
  have hstart : ofLimits {} = .ok new := rfl
  have hperm : forked.Perm shuffled := by decide +kernel
  have hbrings : ∀ id, forked.filter (Entry.brings id) = shuffled.filter (Entry.brings id) := by
    intro id
    simp only [forked, shuffled, List.filter_cons, List.filter_nil, Entry.brings,
      decide_eq_true_eq]
    by_cases hmain : "main" = id
    · subst hmain
      rfl
    · by_cases hexec : "exec" = id
      · subst hexec
        rfl
      · by_cases hf : "f" = id
        · subst hf
          rfl
        · simp [hmain, hexec, hf]
  have hreads : ∀ r ∈ [Request.entryPass, .sinkPass], r.enters = false := by decide
  obtain ⟨hcallable, -, hranking, -, -, -, -, hchains⟩ :=
    call_order_irrelevant hstart hperm hbrings hreads
  have hexec : (s.perform (.callable "exec")).1 = .callable (some
      { id := "exec", name := "exec", role := .sink, fromEntry := some 2, toSink := some 0 }) :=
    congrArg Reply.callable (by decide +kernel)
  obtain ⟨chains, chains', hs, hs', hsame⟩ := hchains "main" (some 5)
  have htwo : chains.length = 2 := by
    rw [perform_chainsToSinks_fst, Reply.chains.injEq] at hs
    rw [← hs, chainsToSinks_fst, List.length_map,
      CallTable.chainsToSinks_eq _ _ _ (by decide +kernel)]
    decide +kernel
  exact ⟨hstart, hperm, hbrings, hreads, (hcallable "exec").symm.trans hexec,
    hranking 3 _ _ (List.reverse_perm _) (.refl _), chains, chains', hs, hs', htwo,
    hsame (by rw [htwo]; decide)⟩

end Scan
end TaintGraph
