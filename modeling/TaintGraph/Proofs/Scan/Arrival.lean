/-
# The order in which callables arrive does not matter

A reader may name a callable in a call long before it declares it. Take two logs
with the same calls in the same order, in which the callables of each ID come in
the same order too; where the callables stand between each other and between the
calls is free. Such logs lead to alike tables: the views of a table are those of its
log (`CallTable.Follows`), and the view of an ID depends on the entries that name it
only (`taken_filter`). Scans with alike tables answer every request alike
(`Scan.Alike.perform`), so no later request can tell which log was read
(`Scan.arrival_order_irrelevant`). Callables may be ranked in the order of their
arrival just as well as in that of their IDs.

Key definitions: `Scan.Alike`, `Entry.brings`.
Key theorems: `Scan.Alike.perform`, `Scan.Alike.run`, `taken_filter`,
`Scan.arrival_order_irrelevant`.
-/
import TaintGraph.Proofs.Ranking
import TaintGraph.Proofs.Scan.Log
import TaintGraph.Proofs.Table.Alike

namespace TaintGraph

/-! ### Alike scans -/

namespace Scan

/-- The scans differ in nothing but how their tables are built. -/
def Alike (s s' : Scan) : Prop :=
  ∃ t, s.table.Alike t ∧ s' = { s with table := t }

theorem enter_withTable (s : Scan) (t : CallTable) :
    ({ s with table := t } : Scan).enter = { s.enter with table := t } := by
  simp only [enter]
  split <;> rfl

theorem forgetAll_withTable (sources : List String) (s : Scan) (t : CallTable) :
    ({ s with table := t } : Scan).forgetAll sources =
      { s.forgetAll sources with table := t } := by
  induction sources generalizing s with
  | nil => rfl
  | cons source sources ih => exact ih (s.forget source)

theorem forgetAll_table (sources : List String) (s : Scan) :
    (s.forgetAll sources).table = s.table :=
  congrArg Core.table (core_forgetAll sources s)

namespace Alike

variable {s s' : Scan}

theorem enter (h : s.Alike s') : s.enter.Alike s'.enter := by
  obtain ⟨t, ht, rfl⟩ := h
  exact ⟨t, by rwa [enter_table], enter_withTable s t⟩

theorem report (h : s.Alike s') (events : List Event) :
    (s.report events).Alike (s'.report events) := by
  obtain ⟨t, ht, rfl⟩ := h
  exact ⟨t, ht, rfl⟩

theorem forgetAll (h : s.Alike s') (sources : List String) :
    (s.forgetAll sources).Alike (s'.forgetAll sources) := by
  obtain ⟨t, ht, rfl⟩ := h
  exact ⟨t, by rwa [forgetAll_table], forgetAll_withTable sources s t⟩

/-- Changing both tables alike keeps the scans alike. -/
theorem withTable (h : s.Alike s') {t t' : CallTable} (ht : t.Alike t') :
    ({ s with table := t } : Scan).Alike { s' with table := t' } := by
  obtain ⟨u, -, rfl⟩ := h
  exact ⟨t', ht, rfl⟩

theorem table (h : s.Alike s') : s.table.Alike s'.table := by
  obtain ⟨t, ht, rfl⟩ := h
  exact ht

theorem limits (h : s.Alike s') : s.limits = s'.limits := by
  obtain ⟨t, ht, rfl⟩ := h
  rfl

theorem put (h : s.Alike s') (c : Callable) : (s.put c).Alike (s'.put c) := by
  unfold Scan.put
  rw [← h.table.wiring.contains, ← h.table.wiring.incoming]
  exact (h.withTable (h.table.insert c)).forgetAll _

theorem add (h : s.Alike s') (c : Callable) : (s.add c).Alike (s'.add c) :=
  h.enter.put c

theorem addIfAbsent (h : s.Alike s') (c : Callable) :
    (s.addIfAbsent c).1 = (s'.addIfAbsent c).1 ∧
      (s.addIfAbsent c).2.Alike (s'.addIfAbsent c).2 := by
  unfold Scan.addIfAbsent
  rw [← h.table.wiring.contains]
  split_ifs
  · exact ⟨rfl, h.enter⟩
  · exact ⟨rfl, h.enter.put c⟩

theorem addCall (h : s.Alike s') (c : Call) : (s.addCall c).Alike (s'.addCall c) :=
  (h.enter.withTable (h.enter.table.record c)).forgetAll _

theorem registerTarget (h : s.Alike s') (k : SinkRegistry) (f : SourceFile) (t : Target) :
    (SourceFile.registerTarget k f t s).Alike (SourceFile.registerTarget k f t s') := by
  obtain ⟨hadded, hscan⟩ := h.addIfAbsent (f.targetSink t)
  unfold SourceFile.registerTarget
  split_ifs
  · revert hadded hscan
    rcases s.addIfAbsent (f.targetSink t) with ⟨added, s₁⟩
    rcases s'.addIfAbsent (f.targetSink t) with ⟨added', s₁'⟩
    rintro ⟨⟩ hscan
    cases added with
    | true => exact hscan.report _
    | false => exact hscan
  · exact h

theorem lookUp (h : s.Alike s') (pair : Endpoints) :
    (s.lookUp pair).1 = (s'.lookUp pair).1 ∧ (s.lookUp pair).2.Alike (s'.lookUp pair).2 := by
  obtain ⟨t, ht, hs⟩ := h.enter
  simp only [Scan.lookUp, hs]
  exact ⟨trivial, t, ht, rfl⟩

theorem fill (h : s.Alike s') (pair : Endpoints) :
    (s.fill pair).1 = (s'.fill pair).1 ∧ (s.fill pair).2.Alike (s'.fill pair).2 := by
  obtain ⟨t, ht, rfl⟩ := h
  simp only [Scan.fill, ← ht.wiring.distance?]
  exact ⟨trivial, t, ht, rfl⟩

theorem distance (h : s.Alike s') (source target : String) :
    (s.distance source target).1 = (s'.distance source target).1 ∧
      (s.distance source target).2.Alike (s'.distance source target).2 := by
  by_cases hne : source = target
  · simp only [Scan.distance, if_pos hne]
    exact ⟨trivial, h⟩
  · simp only [Scan.distance, if_neg hne]
    obtain ⟨hfound, hscan⟩ := h.lookUp ⟨source, target⟩
    revert hfound hscan
    rcases s.lookUp ⟨source, target⟩ with ⟨found, s₁⟩
    rcases s'.lookUp ⟨source, target⟩ with ⟨found', s₁'⟩
    rintro ⟨⟩ hscan
    cases found with
    | some d => exact ⟨rfl, hscan⟩
    | none => exact hscan.fill ⟨source, target⟩

theorem chainsToSinks (h : s.Alike s') (source : String) (maxDepth : ℕ) :
    (s.chainsToSinks source maxDepth).1 = (s'.chainsToSinks source maxDepth).1 ∧
      (s.chainsToSinks source maxDepth).2.Alike (s'.chainsToSinks source maxDepth).2 := by
  obtain ⟨t, ht, hs⟩ := h.enter
  simp only [Scan.chainsToSinks, hs, ← ht.chainsToSinks, ← ht.resolve, ← ht.wiring.contains]
  split_ifs
  · exact ⟨trivial, t, ht, rfl⟩
  · exact ⟨trivial, t, ht, rfl⟩

theorem census (h : s.Alike s') : s.census = s'.census := by
  obtain ⟨t, ht, rfl⟩ := h
  simp only [Scan.census, ht.live, ht.calls, ht.entryPoints.size_eq, ht.sources.size_eq,
    ht.sinks.size_eq, ht.callables]

theorem pass (h : s.Alike s') (d : Direction) :
    (s.pass d).1 = (s'.pass d).1 ∧ (s.pass d).2.Alike (s'.pass d).2 := by
  obtain ⟨t, ht, hs⟩ := h.enter
  simp only [Scan.pass, hs, ← ht.reachAll, ← ht.live, ← (ht.seeds d).size_eq]
  exact ⟨trivial, t.withDistances d (s.enter.table.reachAll d), ht.mapCallables _, rfl⟩

theorem failingEntryPass (h : s.Alike s') : s.failingEntryPass.Alike s'.failingEntryPass := by
  obtain ⟨t, ht, hs⟩ := (h.pass .fromEntry).2
  rw [Scan.failingEntryPass, Scan.failingEntryPass, entryPass, entryPass, hs]
  exact ⟨t, ht, rfl⟩

/-- A question about the table has the same answer. -/
theorem ask (h : s.Alike s') {answer : CallTable → Reply} (ha : answer s.table = answer s'.table) :
    (s.ask answer).1 = (s'.ask answer).1 ∧ (s.ask answer).2.Alike (s'.ask answer).2 :=
  ⟨ha, h.enter⟩

/-- **Alike scans answer alike**, and stay alike. -/
theorem perform (h : s.Alike s') (r : Request) :
    (s.perform r).1 = (s'.perform r).1 ∧ (s.perform r).2.Alike (s'.perform r).2 := by
  have ht := h.table
  cases r with
  | add c | declareFunction f name line role | declareMethod f cls name line role =>
    exact ⟨rfl, h.add _⟩
  | addIfAbsent c => exact (h.addIfAbsent c).imp_left (congrArg Reply.truth)
  | addCall c => exact ⟨rfl, h.addCall c⟩
  | recordCall k f caller t site => exact ⟨rfl, (h.registerTarget k f t).addCall _⟩
  | entryPass => exact (h.pass .fromEntry).imp_left (congrArg Reply.count)
  | sinkPass => exact (h.pass .toSink).imp_left (congrArg Reply.count)
  | failingEntryPass => exact ⟨rfl, h.failingEntryPass⟩
  | callable id => exact h.ask (by rw [ht.callable?])
  | contains id => exact h.ask (by rw [ht.wiring.contains])
  | callees id =>
    exact h.ask (by rw [CallTable.callees, CallTable.callees, ht.distinct, ht.wiring.successors])
  | callers id =>
    exact h.ask (by rw [CallTable.callers, CallTable.callers, ht.distinct, ht.wiring.predecessors])
  | outgoing id => exact h.ask (by rw [ht.wiring.outgoing])
  | incoming id => exact h.ask (by rw [ht.wiring.incoming])
  | entryPoints => exact h.ask (congrArg Reply.callables (ht.listed ht.entryPoints))
  | sources => exact h.ask (congrArg Reply.callables (ht.listed ht.sources))
  | sinks => exact h.ask (congrArg Reply.callables (ht.listed ht.sinks))
  | callableCount => exact h.ask (congrArg Reply.count ht.live)
  | callCount => exact h.ask (congrArg Reply.count ht.calls)
  | limits => exact ⟨congrArg Reply.limits h.limits, h⟩
  | census => exact ⟨congrArg Reply.census h.census, h.enter⟩
  | distance source target =>
    exact (h.distance source target).imp_left (congrArg Reply.distance)
  | shortestChain source target => exact h.ask (by rw [ht.wiring.shortestChain?, ht.resolve])
  | sinksFrom source => exact h.ask (by rw [ht.sinksFrom, ht.resolve])
  | chainsToSinks source maxDepth =>
    have hchains := h.chainsToSinks source (maxDepth.getD s.limits.maxPathLength)
    rw [Scan.perform, Scan.perform, ← h.limits]
    exact hchains.imp_left (congrArg Reply.chains)
  | score id => exact h.ask (by rw [ht.callable?])
  | ranking limit => exact h.ask (by rw [ht.callables])

theorem run (h : s.Alike s') (requests : List Request) :
    (s.run requests).Alike (s'.run requests) := by
  induction requests generalizing s s' with
  | nil => exact h
  | cons r requests ih => exact ih (h.perform r).2

end Alike

/-! ### Entries on a scan without distances -/

variable {s : Scan}

theorem forget_of_targets_empty (h : s.memo.targets = ∅) (source : String) :
    s.forget source = s := by
  have hdrop : s.memo.dropFrom source = (0, s.memo, []) := by
    rw [Memo.dropFrom, h]
    rfl
  simp [forget, hdrop, report]

theorem forgetAll_of_targets_empty (h : s.memo.targets = ∅) (sources : List String) :
    s.forgetAll sources = s := by
  induction sources with
  | nil => rfl
  | cons source sources ih =>
    rw [forgetAll, List.foldl_cons, forget_of_targets_empty h]
    exact ih

/-- While nothing is memoised an entry changes the table only. -/
theorem perform_entry (hmemo : s.memo.targets = ∅) (hpoison : s.poisoned = false) (e : Entry) :
    (s.perform e.request).2 = { s with table := e.enter s.table } := by
  have henter : s.enter = s := by
    rw [enter, hpoison]
    rfl
  have hput : ∀ c, s.put c = { s with table := s.table.insert c } := fun c =>
    forgetAll_of_targets_empty (s := { s with table := s.table.insert c }) hmemo _
  cases e with
  | add c =>
    show s.enter.put c = _
    rw [henter, hput, Entry.enter]
  | offer c =>
    show (s.addIfAbsent c).2 = _
    rw [addIfAbsent, henter, Entry.enter]
    split_ifs
    · rfl
    · exact hput c
  | call c =>
    show s.addCall c = _
    unfold addCall
    rw [henter]
    exact forgetAll_of_targets_empty (s := { s with table := s.table.record c }) hmemo _

theorem run_entries (hmemo : s.memo.targets = ∅) (hpoison : s.poisoned = false)
    (log : List Entry) :
    s.run (log.map Entry.request) = { s with table := log.foldl Entry.enter s.table } := by
  induction log generalizing s with
  | nil => rfl
  | cons e log ih =>
    rw [List.map_cons, run, List.foldl_cons, perform_entry hmemo hpoison]
    exact ih (s := { s with table := e.enter s.table }) hmemo hpoison

end Scan

/-! ### Logs with the same callables for each ID -/

/-- The entry brings a callable of the ID. -/
def Entry.brings (id : String) : Entry → Bool
  | .add c => c.id = id
  | .offer c => c.id = id
  | .call _ => false

/-- Which callables are taken in for an ID depends on the entries that bring one. -/
theorem taken_filter (log : List Entry) (id : String) :
    ((taken log).filter fun c => c.id = id) = taken (log.filter (Entry.brings id)) := by
  induction log using List.reverseRecOn with
  | nil => rfl
  | append_singleton log e ih =>
    rw [taken_append, List.filter_append]
    by_cases hid : e.brings id = true
    · rw [List.filter_cons_of_pos hid, List.filter_nil, taken_append, ← ih]
      cases e with
      | add c =>
        obtain rfl : c.id = id := by simpa [Entry.brings] using hid
        simp [takeIn]
      | offer c =>
        obtain rfl : c.id = id := by simpa [Entry.brings] using hid
        -- The ID is known to the whole log just when it is known to its own entries.
        have hmem : c.id ∈ ((taken log).filter fun d => d.id = c.id).map Callable.id ↔
            c.id ∈ (taken log).map Callable.id := by simp
        by_cases hc : c.id ∈ (taken log).map Callable.id
        · rw [takeIn, takeIn, if_pos hc, if_pos (hmem.2 hc)]
        · rw [takeIn, takeIn, if_neg hc, if_neg (mt hmem.1 hc)]
          simp
      | call c => cases hid
    · rw [List.filter_cons_of_neg hid, List.filter_nil, List.append_nil, ← ih]
      cases e with
      | add c =>
        have hne : c.id ≠ id := by simpa [Entry.brings] using hid
        simp [takeIn, hne]
      | offer c =>
        have hne : c.id ≠ id := by simpa [Entry.brings] using hid
        rw [takeIn]
        split_ifs
        · rfl
        · simp [hne]
      | call c => rfl

theorem lastTaken_congr {log log' : List Entry} {id : String}
    (h : log.filter (Entry.brings id) = log'.filter (Entry.brings id)) :
    lastTaken log id = lastTaken log' id := by
  rw [lastTaken, lastTaken, taken_filter, taken_filter, h]

/-- Logs with the same calls in the same order and, for each ID, the same callables in
the same order lead to alike tables. -/
theorem CallTable.alike_of_logs {log log' : List Entry} (hcalls : recorded log = recorded log')
    (hbrings : ∀ id, log.filter (Entry.brings id) = log'.filter (Entry.brings id)) :
    (log.foldl Entry.enter {}).Alike (log'.foldl Entry.enter {}) := by
  have htrim : ∀ log : List Entry, (log.foldl Entry.enter {}).Trim := fun log =>
    List.foldlRecOn log _ .empty fun t ht e _ => ht.enter e
  have hlog := Follows.run log
  have hlog' := Follows.run log'
  refine .of_views (htrim log) (htrim log') (.run log) (.run log') (fun id => ?_)
    (fun id => ?_) (fun id => ?_) ?_
  · rw [hlog.callable?, hlog'.callable?, lastTaken_congr (hbrings id)]
  · rw [hlog.outgoing, hlog'.outgoing, hcalls]
  · rw [hlog.incoming, hlog'.incoming, hcalls]
  · rw [hlog.calls, hlog'.calls, hcalls]

namespace Scan

/-- **The order of arrival does not matter.** Take two logs that record the same calls in
the same order and bring, for each ID, the same callables in the same order, whether
before, between or after the calls that name it. On empty scans with the same limits they
lead to scans that answer every request alike, at once and after any further requests,
passes among them. Callables are ranked alike also when those of either table are gone
through in another order, such as that of their arrival. -/
theorem arrival_order_irrelevant {limits : Limits} {start : Scan}
    (hstart : ofLimits limits = .ok start) {log log' : List Entry}
    (hcalls : recorded log = recorded log')
    (hbrings : ∀ id, log.filter (Entry.brings id) = log'.filter (Entry.brings id))
    (requests : List Request) :
    let s := (start.run (log.map Entry.request)).run requests
    let s' := (start.run (log'.map Entry.request)).run requests
    (∀ r, (s.perform r).1 = (s'.perform r).1) ∧
    ∀ limit cs cs', cs.Perm s.table.callables → cs'.Perm s'.table.callables →
      ranking limit cs = ranking limit cs' := by
  intro s s'
  have hentries : (start.run (log.map Entry.request)).Alike
      (start.run (log'.map Entry.request)) := by
    obtain ⟨hpos, rfl⟩ := ofLimits_eq_ok hstart
    rw [run_entries rfl rfl, run_entries rfl rfl]
    exact ⟨_, CallTable.alike_of_logs hcalls hbrings, rfl⟩
  have halike : s.Alike s' := hentries.run requests
  have hreach : s.Reachable :=
    ⟨limits, start, log.map Entry.request ++ requests, hstart, (run_append _ _ _).symm⟩
  refine ⟨fun r => (halike.perform r).1, fun limit cs cs' hcs hcs' => ?_⟩
  exact hreach.wellFormed.ranking_perm hcs (halike.table.callables ▸ hcs') limit

/-- Every callable arrives before the calls that name it. -/
def arrivedEarly : List Entry :=
  [.add { id := "main", name := "main", role := .entryPoint }, .add { id := "f", name := "f" },
    .add { id := "exec", name := "exec" }, .add { id := "exec", name := "exec", role := .sink },
    .call { caller := "main", callee := "f" }, .call { caller := "f", callee := "exec" },
    .call { caller := "f", callee := "ghost" }]

/-- The same callables in another order, between and after the calls. -/
def arrivedLate : List Entry :=
  [.call { caller := "main", callee := "f" }, .add { id := "exec", name := "exec" },
    .call { caller := "f", callee := "exec" }, .add { id := "f", name := "f" },
    .call { caller := "f", callee := "ghost" },
    .add { id := "exec", name := "exec", role := .sink },
    .add { id := "main", name := "main", role := .entryPoint }]

/-- The sink is two hops from the entry point, however late both arrive. -/
theorem arrival_order_irrelevant_late :
    ofLimits {} = .ok new ∧ recorded arrivedEarly = recorded arrivedLate ∧
    (∀ id, arrivedEarly.filter (Entry.brings id) = arrivedLate.filter (Entry.brings id)) ∧
    let s := (new.run (arrivedEarly.map Entry.request)).run [.entryPass, .sinkPass]
    let s' := (new.run (arrivedLate.map Entry.request)).run [.entryPass, .sinkPass]
    (s.perform (.callable "exec")).1 = .callable (some
      { id := "exec", name := "exec", role := .sink, fromEntry := some 2, toSink := some 0 }) ∧
    (s.perform (.callable "exec")).1 = (s'.perform (.callable "exec")).1 ∧
    ranking 2 s.table.callables.reverse = ranking 2 s'.table.callables := by
  have hstart : ofLimits {} = .ok new := rfl
  have hcalls : recorded arrivedEarly = recorded arrivedLate := rfl
  have hbrings : ∀ id,
      arrivedEarly.filter (Entry.brings id) = arrivedLate.filter (Entry.brings id) := by
    intro id
    simp only [arrivedEarly, arrivedLate, List.filter_cons, List.filter_nil, Entry.brings,
      decide_eq_true_eq]
    by_cases hmain : "main" = id
    · subst hmain
      rfl
    · by_cases hf : "f" = id
      · subst hf
        rfl
      · simp [hmain, hf]
  obtain ⟨hanswers, hranking⟩ :=
    arrival_order_irrelevant hstart hcalls hbrings [.entryPass, .sinkPass]
  exact ⟨hstart, hcalls, hbrings, congrArg Reply.callable (by decide +kernel),
    hanswers (.callable "exec"), hranking 2 _ _ (List.reverse_perm _) (.refl _)⟩

end Scan
end TaintGraph
