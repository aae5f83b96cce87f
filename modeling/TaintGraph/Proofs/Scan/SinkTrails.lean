/-
# What the enumeration of chains lists

The calls that a run records are numbered in the order in which they are recorded. A *sink
trail* is a sequence of recorded calls that leads from one ID to a sink: each call leaves
where the one before it arrives, every ID that is visited is known, none is visited twice,
and the first sink that is met ends the trail. Two calls between the same IDs are two calls,
so they make two trails.

On every reachable scan the enumeration answers with one list of callables for each sink
trail of at most the given number of hops, in the lexicographic order of the numbers of
their calls, unless there are as many as it may list (`Scan.enumeration_exact`). The numbers
are those of the whole run, while the table keeps the calls of each caller apart; it keeps
them in order (`Scan.outgoing_run`), and where two trails part their calls leave the same
ID.

Key definitions: `visited`, `CallTable.SinkTrail`, `CallTable.exits`.
Key theorems: `Scan.outgoing_run`, `CallTable.mem_trails_iff`, `Scan.enumeration_exact`.
-/
import Mathlib.Data.Set.Card
import TaintGraph.Proofs.Scan.Agreement
import TaintGraph.Proofs.Scan.Growth
import TaintGraph.Proofs.Walk.Trails

namespace TaintGraph

/-! ### The calls of a run -/

/-- The call that an edit records. -/
def Edit.call? : Edit → Option Call
  | .enter (.call c) => some c
  | _ => none

/-- The calls that a run records, in order. -/
def Request.log (requests : List Request) : List Call :=
  requests.filterMap Request.call?

theorem CallTable.outgoing_edit (e : Edit) (t : CallTable) (id : String) :
    (e.table t).outgoing id = t.outgoing id ++ e.call?.toList.filter fun c => c.caller = id := by
  cases e with
  | enter e =>
    cases e with
    | add c => simp [Edit.table, Entry.enter, Edit.call?]
    | offer c =>
      rw [Edit.table, Entry.enter]
      split_ifs <;> simp [Edit.call?]
    | call c =>
      rw [Edit.table, Entry.enter, outgoing_record]
      split_ifs with hc <;> simp [Edit.call?, hc]
  | measure d => simp [Edit.table, Edit.call?]
  | ask source target => simp [Edit.table, Edit.call?]

theorem Core.outgoing_edits (es : List Edit) (k : Core) (id : String) :
    (es.foldl Edit.apply k).table.outgoing id =
      k.table.outgoing id ++ (es.filterMap Edit.call?).filter fun c => c.caller = id := by
  induction es generalizing k with
  | nil => simp
  | cons e es ih =>
    have hcons : (e :: es).filterMap Edit.call? = e.call?.toList ++ es.filterMap Edit.call? := by
      cases h : e.call? <;> simp [h]
    rw [List.foldl_cons, ih, hcons, List.filter_append, ← List.append_assoc,
      ← CallTable.outgoing_edit]
    rfl

theorem Request.filterMap_edits (r : Request) : r.edits.filterMap Edit.call? = r.call?.toList := by
  cases r with
  | recordCall k f caller t site =>
    rw [edits]
    split_ifs <;> rfl
  | distance source target =>
    rw [edits]
    split_ifs <;> rfl
  | _ => rfl

/-- A run adds to the calls out of an ID those that it records, in order. -/
theorem Scan.outgoing_run (s : Scan) (requests : List Request) (id : String) :
    (s.run requests).table.outgoing id =
      s.table.outgoing id ++ (Request.log requests).filter fun c => c.caller = id := by
  have hlog : (requests.flatMap Request.edits).filterMap Edit.call? = Request.log requests := by
    rw [List.filterMap_flatMap, Request.log, List.filterMap_eq_flatMap_toList]
    congr 1
    exact funext Request.filterMap_edits
  have hedits := Core.outgoing_edits (requests.flatMap Request.edits) s.core id
  rw [← run_core, hlog] at hedits
  exact hedits

/-! ### Trails of recorded calls -/

/-- The IDs that a trail visits, from its start. -/
def visited (source : String) (trail : List (Call × ℕ)) : List String :=
  source :: trail.map fun e => e.1.callee

namespace CallTable

/-- Recorded calls, each with its number, that lead from `source` to a sink by at most
`maxDepth` hops, and meet no ID twice and no sink on the way. -/
structure SinkTrail (t : CallTable) (log : List Call) (source : String) (maxDepth : ℕ)
    (trail : List (Call × ℕ)) : Prop where
  recorded : ∀ e ∈ trail, log[e.2]? = some e.1
  length_le : trail.length ≤ maxDepth
  first : ∀ e ∈ trail.head?, e.1.caller = source
  joined : trail.IsChain fun e e' => e'.1.caller = e.1.callee
  known : ∀ id ∈ visited source trail, t.contains id = true
  nodup : (visited source trail).Nodup
  last : ∃ front e, trail = front ++ [e] ∧ t.HasRole .sink e.1.callee ∧
    ∀ e' ∈ front, ¬ t.HasRole .sink e'.1.callee

/-- The recorded calls out of an ID to a known one, each with its number. -/
def exits (t : CallTable) (log : List Call) (id : String) : List (Call × ℕ) :=
  log.zipIdx.filter fun e => e.1.caller = id ∧ t.contains e.1.callee

variable {t : CallTable} {log : List Call} {source id : String} {maxDepth : ℕ}
  {trail : List (Call × ℕ)}

theorem mem_exits {e : Call × ℕ} :
    e ∈ t.exits log id ↔
      log[e.2]? = some e.1 ∧ e.1.caller = id ∧ t.contains e.1.callee = true := by
  rw [exits, List.mem_filter, List.mem_zipIdx_iff_getElem?, decide_eq_true_eq]

/-- The exits stand in the order of their numbers. -/
theorem pairwise_exits (t : CallTable) (log : List Call) (id : String) :
    (t.exits log id).Pairwise fun e e' => e.2 < e'.2 := by
  refine List.Pairwise.filter _ (List.pairwise_map.1 ?_)
  rw [List.zipIdx_map_snd]
  exact List.pairwise_lt_range' 1

/-- The exits lead to the successors, one by one. -/
theorem map_callee_exits (h : t.outgoing id = log.filter fun c => c.caller = id) :
    (t.exits log id).map (fun e => e.1.callee) = t.successors id := by
  have hfst : (t.exits log id).map Prod.fst =
      log.filter fun c => c.caller = id ∧ t.contains c.callee := by
    have hzip := congrArg (List.filter fun c : Call => c.caller = id ∧ t.contains c.callee)
      (List.zipIdx_map_fst 0 log)
    rw [← hzip, List.filter_map]
    rfl
  calc (t.exits log id).map (fun e => e.1.callee)
      = ((t.exits log id).map Prod.fst).map Call.callee := by
        rw [List.map_map]
        rfl
    _ = ((log.filter fun c => c.caller = id).filter fun c => t.contains c.callee).map
          Call.callee := by
        rw [hfst, List.filter_filter]
        congr 1
        exact List.filter_congr fun c _ => by simp [Bool.and_comm]
    _ = t.successors id := by
        rw [successors, h, List.filter_map]
        rfl

theorem along_exits_iff :
    Walk.Along (t.exits log) (fun e => e.1.callee) source trail ↔
      (∀ e ∈ trail, log[e.2]? = some e.1 ∧ t.contains e.1.callee = true) ∧
        (∀ e ∈ trail.head?, e.1.caller = source) ∧
        trail.IsChain fun e e' => e'.1.caller = e.1.callee := by
  induction trail generalizing source with
  | nil => simp [Walk.along_nil, List.IsChain.nil]
  | cons e trail ih =>
    rw [Walk.along_cons, ih, mem_exits, List.isChain_cons, List.forall_mem_cons]
    simp only [List.head?_cons, Option.mem_some_iff, forall_eq']
    tauto

/-- The trails that a walk along the exits lists are the sink trails. -/
theorem mem_trails_iff (hsource : t.contains source = true) :
    trail ∈ Walk.trails (t.exits log) (fun e => e.1.callee) t.isSink maxDepth source [] ↔
      t.SinkTrail log source maxDepth trail := by
  rw [Walk.mem_trails]
  constructor
  · intro h
    obtain ⟨hlen, halong, hchain⟩ := h
    obtain ⟨hrecorded, hfirst, hjoined⟩ := along_exits_iff.1 halong
    refine ⟨fun e he => (hrecorded e he).1, hlen, hfirst, hjoined, ?_, ?_, ?_⟩
    · refine List.forall_mem_cons.2 ⟨hsource, List.forall_mem_map.2 fun e he => ?_⟩
      exact (hrecorded e he).2
    · refine List.nodup_cons.2 ⟨fun hmem => ?_, hchain.nodup⟩
      exact hchain.fresh source hmem List.mem_cons_self
    · obtain ⟨front, c, heq, hsink, hfront⟩ := hchain.last
      obtain ⟨before, after, rfl, rfl, hafter⟩ := List.map_eq_append_iff.1 heq
      obtain ⟨e, rfl, rfl⟩ := List.map_eq_singleton_iff.1 hafter
      refine ⟨before, e, rfl, isSink_iff.1 hsink, fun e' he' hrole => ?_⟩
      have hpass := hfront _ (List.mem_map_of_mem he')
      rw [isSink_iff.2 hrole] at hpass
      cases hpass
  · intro h
    have halong : Walk.Along (t.exits log) (fun e => e.1.callee) source trail := by
      refine along_exits_iff.2 ⟨fun e he => ⟨h.recorded e he, ?_⟩, h.first, h.joined⟩
      exact h.known _ (List.mem_cons_of_mem _ (List.mem_map_of_mem he))
    obtain ⟨hnew, hnodup⟩ := List.nodup_cons.1 h.nodup
    refine ⟨h.length_le, halong, halong.isChain, fun x hx hmem => ?_, hnodup, ?_⟩
    · rw [List.mem_singleton.1 hmem] at hx
      exact hnew hx
    · obtain ⟨front, e, rfl, hsink, hfront⟩ := h.last
      refine ⟨front.map fun e => e.1.callee, e.1.callee, by simp, isSink_iff.2 hsink, ?_⟩
      refine List.forall_mem_map.2 fun e' he' => ?_
      exact Bool.eq_false_iff.2 fun hrole => hfront e' he' (isSink_iff.1 hrole)

/-- There are as many sink trails as a walk along the exits lists. -/
theorem encard_sinkTrails (hsource : t.contains source = true) :
    {trail | t.SinkTrail log source maxDepth trail}.encard =
      (Walk.trails (t.exits log) (fun e => e.1.callee) t.isSink maxDepth source []).length := by
  have hnodup : (Walk.trails (t.exits log) (fun e => e.1.callee) t.isSink maxDepth source
      []).Nodup :=
    Walk.nodup_trails (fun e => Nat.lt_irrefl e.2) (t.pairwise_exits log)
  have hset : {trail | t.SinkTrail log source maxDepth trail} =
      (Walk.trails (t.exits log) (fun e => e.1.callee) t.isSink maxDepth source []).toFinset := by
    refine Set.ext fun trail => ?_
    rw [List.coe_toFinset]
    exact (mem_trails_iff hsource).symm
  rw [hset, Set.encard_coe_eq_coe_finsetCard, List.toFinset_card_of_nodup hnodup]

/-- The chains that the enumeration finds are those of the first trails, as many as it may
list. -/
theorem chainsToSinks_eq_map_trails (hsource : t.contains source = true)
    (hlog : ∀ id, t.outgoing id = log.filter fun c => c.caller = id) (maxDepth maxPaths : ℕ) :
    t.chainsToSinks maxDepth maxPaths source =
      ((Walk.trails (t.exits log) (fun e => e.1.callee) t.isSink maxDepth source []).map
        (visited source)).take maxPaths := by
  have hnext : t.successors = fun id => (t.exits log id).map fun e => e.1.callee :=
    funext fun id => (map_callee_exits (hlog id)).symm
  rw [chainsToSinks_eq t maxDepth maxPaths hsource, hnext, Walk.completions_eq_map_trails]
  rfl

/-- Every ID of a list of known ones is answered by its callable. -/
theorem map_some_resolve {ids : List String} (h : ∀ id ∈ ids, t.contains id = true) :
    (t.resolve ids).map some = ids.map t.callable? := by
  induction ids with
  | nil => rfl
  | cons id ids ih =>
    obtain ⟨c, hc⟩ := contains_iff.1 (h id List.mem_cons_self)
    have hrest := ih fun x hx => h x (List.mem_cons_of_mem _ hx)
    simpa [resolve, hc] using hrest

end CallTable

namespace Scan

/-- **The enumeration is exact.** On every reachable scan, an ID that is not known has no
chains. From a known one, when there are fewer sink trails of at most `maxDepth` hops than
the scan may list, the enumeration answers with one list of callables for each of them: the
current callables of the IDs that it visits. The trails stand in the lexicographic order of
the numbers under which their calls were recorded. -/
theorem enumeration_exact {limits : Limits} {start : Scan} (hstart : ofLimits limits = .ok start)
    (requests : List Request) (source : String) (maxDepth : ℕ) :
    let s := start.run requests
    let log := Request.log requests
    (s.table.contains source = false →
      (s.perform (.chainsToSinks source (some maxDepth))).1 = .chains []) ∧
    (s.table.contains source = true →
      {trail | s.table.SinkTrail log source maxDepth trail}.encard < limits.maxPaths →
      ∃ (trails : List (List (Call × ℕ))) (answer : List (List Callable)),
        (s.perform (.chainsToSinks source (some maxDepth))).1 = .chains answer ∧
        (∀ trail, trail ∈ trails ↔ s.table.SinkTrail log source maxDepth trail) ∧
        trails.Nodup ∧
        trails.Pairwise (List.Lex fun e e' => e.2 < e'.2) ∧
        answer.map (List.map some) =
          trails.map fun trail => (visited source trail).map s.table.callable?) := by
  intro s log
  obtain ⟨hpos, rfl⟩ := ofLimits_eq_ok hstart
  have hlimits : s.limits = limits := limits_run _ requests
  have hanswer : (s.perform (.chainsToSinks source (some maxDepth))).1 =
      .chains ((s.table.chainsToSinks maxDepth limits.maxPaths source).map s.table.resolve) := by
    rw [perform_chainsToSinks_fst, chainsToSinks_fst, hlimits]
  constructor
  · intro hunknown
    rw [hanswer, CallTable.chainsToSinks, hunknown]
    rfl
  · intro hknown hfew
    have hlog : ∀ id, s.table.outgoing id = log.filter fun c => c.caller = id := fun id => by
      rw [outgoing_run]
      simp [CallTable.outgoing, CallTable.row, log]
    rw [CallTable.encard_sinkTrails hknown, Nat.cast_lt] at hfew
    rw [CallTable.chainsToSinks_eq_map_trails hknown hlog, List.take_of_length_le] at hanswer
    · refine ⟨_, _, hanswer, fun trail => CallTable.mem_trails_iff hknown,
        Walk.nodup_trails (fun e => Nat.lt_irrefl e.2) (s.table.pairwise_exits log),
        Walk.pairwise_lex_trails (s.table.pairwise_exits log), ?_⟩
      rw [List.map_map, List.map_map]
      refine List.map_congr_left fun trail htrail => ?_
      exact CallTable.map_some_resolve ((CallTable.mem_trails_iff hknown).1 htrail).known
    · rw [List.length_map]
      omega

/-- Two calls between the same IDs, a cycle, a direct call to the sink, a sink behind it, and
a call to an ID that is not known. -/
def parallel : List Request :=
  [.add { id := "main", name := "main" }, .add { id := "f", name := "f" },
    .add { id := "exec", name := "exec", role := .sink },
    .add { id := "log", name := "log", role := .sink },
    .addCall { caller := "main", callee := "f" }, .addCall { caller := "f", callee := "main" },
    .addCall { caller := "f", callee := "exec" }, .addCall { caller := "main", callee := "f" },
    .addCall { caller := "main", callee := "exec" }, .addCall { caller := "exec", callee := "log" },
    .addCall { caller := "f", callee := "ghost" }]

/-- The two calls give the same list twice, before the one of the direct call, which was
recorded later. -/
theorem enumeration_exact_parallel :
    let s := new.run parallel
    let log := Request.log parallel
    ofLimits {} = .ok new ∧ s.table.contains "main" = true ∧
    {trail | s.table.SinkTrail log "main" 5 trail}.encard = 3 ∧
    (∃ (trails : List (List (Call × ℕ))) (answer : List (List Callable)),
      (s.perform (.chainsToSinks "main" (some 5))).1 = .chains answer ∧
      (∀ trail, trail ∈ trails ↔ s.table.SinkTrail log "main" 5 trail) ∧
      answer.map (List.map Callable.id) =
        [["main", "f", "exec"], ["main", "f", "exec"], ["main", "exec"]]) ∧
    (s.perform (.chainsToSinks "ghost" (some 5))).1 = .chains [] := by
  intro s log
  have hstart : ofLimits {} = .ok new := rfl
  have hknown : s.table.contains "main" = true := by decide +kernel
  have hthree : {trail | s.table.SinkTrail log "main" 5 trail}.encard = 3 := by
    have hlength : (Walk.trails (s.table.exits log) (fun e => e.1.callee) s.table.isSink 5 "main"
        []).length = 3 := by decide +kernel
    rw [CallTable.encard_sinkTrails hknown, hlength]
    rfl
  obtain ⟨-, hexact⟩ := enumeration_exact hstart parallel "main" 5
  obtain ⟨hghost, -⟩ := enumeration_exact hstart parallel "ghost" 5
  have hfew : {trail | s.table.SinkTrail log "main" 5 trail}.encard <
      (({} : Limits).maxPaths : ℕ∞) := by
    rw [hthree]
    exact Nat.cast_lt.2 (by decide : 3 < 10000)
  obtain ⟨trails, answer, hanswer, hmem, -⟩ := hexact hknown hfew
  refine ⟨hstart, hknown, hthree, ⟨trails, answer, hanswer, hmem, ?_⟩, hghost (by decide +kernel)⟩
  rw [perform_chainsToSinks_fst, Reply.chains.injEq] at hanswer
  rw [← hanswer, chainsToSinks_fst, CallTable.chainsToSinks_eq _ _ _ hknown]
  decide +kernel

end Scan
end TaintGraph
