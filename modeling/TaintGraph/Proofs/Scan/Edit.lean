/-
# Requests as elementary edits

A scan has many requests, but few ways to change its table and its memo. An
entry adds a callable, offers one, or records a call; a measurement rewrites one
distance of every callable; a question for a distance uses the memo. Every
request is a short list of such edits (`Request.edits`): what it does to table
and memo is to apply them in order (`Scan.perform_core`), and all else it changes
is the journal. What an edit keeps, a run keeps (`Scan.Reachable.induction`).

Key definitions: `Entry`, `Edit`, `Request.edits`, `Core`, `Edit.apply`,
`Scan.Reachable`.
Key theorems: `Scan.perform_core`, `Scan.run_core`,
`Scan.Reachable.induction`.
-/
import TaintGraph.Scan.Request

namespace TaintGraph

/-- What a reader enters into a scan. -/
inductive Entry where
  /-- Add a callable or replace the one with its ID. -/
  | add (c : Callable)
  /-- Add a callable unless its ID is known. -/
  | offer (c : Callable)
  /-- Record a call. -/
  | call (c : Call)
  deriving DecidableEq

namespace Entry

/-- The entry as a request. -/
def request : Entry → Request
  | .add c => .add c
  | .offer c => .addIfAbsent c
  | .call c => .addCall c

/-- The table with the entry. -/
def enter (t : CallTable) : Entry → CallTable
  | .add c => t.insert c
  | .offer c => if t.contains c.id then t else t.insert c
  | .call c => t.record c

/-- The sources whose distances are dropped when the first callable of an ID
arrives. -/
def arrival (t : CallTable) (id : String) : List String :=
  if t.contains id then [] else (t.incoming id).map Call.caller ++ [id]

/-- The sources whose distances the entry drops. -/
def stale (t : CallTable) : Entry → List String
  | .add c => arrival t c.id
  | .offer c => arrival t c.id
  | .call c => if c.callee = c.caller then [c.caller] else [c.caller, c.callee]

end Entry

/-- The part of a scan that answers depend on. -/
structure Core where
  /-- The callables and calls. -/
  table : CallTable
  /-- The memoised distances. -/
  memo : Memo

/-- An elementary change of a scan. -/
inductive Edit where
  /-- Enter a callable or a call. -/
  | enter (e : Entry)
  /-- Measure the distances in a direction. -/
  | measure (d : Direction)
  /-- Ask for the distance between two different IDs. -/
  | ask (source target : String)

/-- The edits that a request consists of, in order. -/
def Request.edits : Request → List Edit
  | .add c => [.enter (.add c)]
  | .addIfAbsent c => [.enter (.offer c)]
  | .addCall c => [.enter (.call c)]
  | .declareFunction f name line role => [.enter (.add (f.function name line role))]
  | .declareMethod f cls name line role => [.enter (.add (f.method cls name line role))]
  | .recordCall k f caller t site =>
    (if k t.className t.name then [.enter (.offer (f.targetSink t))] else []) ++
      [.enter (.call (f.call caller t site))]
  | .entryPass | .failingEntryPass => [.measure .fromEntry]
  | .sinkPass => [.measure .toSink]
  | .distance source target => if source = target then [] else [.ask source target]
  | _ => []

/-- The request enters a callable or a call. -/
def Request.enters : Request → Bool
  | .add _ | .addIfAbsent _ | .addCall _ => true
  | .declareFunction _ _ _ _ | .declareMethod _ _ _ _ _ | .recordCall _ _ _ _ _ => true
  | _ => false

namespace Memo

/-- Drop the distances from each of the given sources in turn. -/
def dropAll (sources : List String) (m : Memo) : Memo :=
  sources.foldl (fun m source => (m.dropFrom source).2.1) m

/-- The memo after a distance was asked for that `compute` gives on a miss. -/
def consult (pair : Endpoints) (compute : Option Nat) (m : Memo) : Memo :=
  match m.find pair with
  | (some _, m) => m
  | (none, m) => (m.write pair compute).1

end Memo

namespace Edit

/-- The table after an edit. -/
def table (t : CallTable) : Edit → CallTable
  | .enter e => e.enter t
  | .measure d => t.withDistances d (t.reachAll d)
  | .ask _ _ => t

/-- The memo after an edit of a scan with the given table. -/
def memo (t : CallTable) (m : Memo) : Edit → Memo
  | .enter e => m.dropAll (e.stale t)
  | .measure _ => m
  | .ask source target => m.consult ⟨source, target⟩ (t.distance? source target)

/-- Table and memo after an edit. -/
def apply (k : Core) (e : Edit) : Core :=
  ⟨e.table k.table, e.memo k.table k.memo⟩

end Edit

namespace Scan

/-- Table and memo of a scan. -/
def core (s : Scan) : Core :=
  ⟨s.table, s.memo⟩

@[simp]
theorem core_report (events : List Event) (s : Scan) : (s.report events).core = s.core := rfl

@[simp]
theorem core_enter (s : Scan) : s.enter.core = s.core := by
  unfold enter
  split <;> rfl

@[simp]
theorem enter_table (s : Scan) : s.enter.table = s.table :=
  congrArg Core.table (core_enter s)

@[simp]
theorem enter_memo (s : Scan) : s.enter.memo = s.memo :=
  congrArg Core.memo (core_enter s)

@[simp]
theorem enter_limits (s : Scan) : s.enter.limits = s.limits := by
  unfold enter
  split <;> rfl

theorem core_forgetAll (sources : List String) (s : Scan) :
    (s.forgetAll sources).core = ⟨s.table, s.memo.dropAll sources⟩ := by
  induction sources generalizing s with
  | nil => rfl
  | cons source sources ih =>
    have hstep : (s.forgetAll (source :: sources)).core =
        ((s.forget source).forgetAll sources).core := rfl
    rw [hstep, ih]
    rfl

theorem core_put (c : Callable) (s : Scan) :
    (s.put c).core = Edit.apply s.core (.enter (.add c)) := by
  unfold put
  rw [core_forgetAll]
  rfl

theorem core_add (c : Callable) (s : Scan) :
    (s.add c).core = Edit.apply s.core (.enter (.add c)) := by
  rw [add, core_put, core_enter]

theorem core_addIfAbsent (c : Callable) (s : Scan) :
    (s.addIfAbsent c).2.core = Edit.apply s.core (.enter (.offer c)) := by
  unfold addIfAbsent
  by_cases h : s.table.contains c.id = true
  · rw [if_pos h, core_enter]
    simp [Edit.apply, Edit.table, Edit.memo, Entry.enter, Entry.stale, Entry.arrival, core, h,
      Memo.dropAll]
  · rw [if_neg h]
    have hput := core_put c s.enter
    rw [core_enter] at hput
    simp only [hput]
    simp [Edit.apply, Edit.table, Edit.memo, Entry.enter, Entry.stale, core, h]

theorem core_addCall (c : Call) (s : Scan) :
    (s.addCall c).core = Edit.apply s.core (.enter (.call c)) := by
  unfold addCall
  rw [core_forgetAll, ← core_enter s]
  rfl

theorem core_registerTarget (k : SinkRegistry) (f : SourceFile) (t : Target) (s : Scan) :
    (SourceFile.registerTarget k f t s).core =
      (if k t.className t.name then [Edit.enter (.offer (f.targetSink t))] else []).foldl
        Edit.apply s.core := by
  unfold SourceFile.registerTarget
  by_cases h : k t.className t.name = true
  · rw [if_pos h, if_pos h, List.foldl_cons, List.foldl_nil, ← core_addIfAbsent]
    split <;> simp [*]
  · rw [if_neg h, if_neg h, List.foldl_nil]

theorem core_distance {source target : String} (h : source ≠ target) (s : Scan) :
    (s.distance source target).2.core = Edit.apply s.core (.ask source target) := by
  rw [← core_enter s]
  simp only [distance, if_neg h, lookUp, fill, Edit.apply, Edit.table, Edit.memo, Memo.consult,
    core]
  obtain ⟨found, memo⟩ := s.enter.memo.find ⟨source, target⟩
  cases found <;> rfl

/-- **A request is its edits.** -/
theorem perform_core (s : Scan) (r : Request) :
    (s.perform r).2.core = r.edits.foldl Edit.apply s.core := by
  cases r with
  | add c => exact core_add c s
  | addIfAbsent c => exact core_addIfAbsent c s
  | addCall c => exact core_addCall c s
  | declareFunction f name line role => exact core_add _ s
  | declareMethod f cls name line role => exact core_add _ s
  | recordCall k f caller t site =>
    rw [Request.edits, List.foldl_append, ← core_registerTarget]
    exact core_addCall _ _
  | entryPass | sinkPass | failingEntryPass =>
    rw [← core_enter s]
    rfl
  | distance source target =>
    rw [Request.edits]
    by_cases h : source = target
    · rw [if_pos h]
      simp [perform, distance, h]
    · rw [if_neg h]
      exact core_distance h s
  | chainsToSinks source maxDepth =>
    simp only [perform, chainsToSinks, Request.edits, List.foldl_nil]
    split <;> simp
  | limits => rfl
  | callable | contains | callees | callers | outgoing | incoming | entryPoints | sources | sinks |
    callableCount | callCount | census | shortestChain | sinksFrom | score | ranking =>
    exact core_enter s

theorem run_append (s : Scan) (before after : List Request) :
    s.run (before ++ after) = (s.run before).run after :=
  List.foldl_append

theorem run_snoc (s : Scan) (requests : List Request) (r : Request) :
    s.run (requests ++ [r]) = ((s.run requests).perform r).2 :=
  run_append s requests [r]

/-- A run is the edits of its requests. -/
theorem run_core (s : Scan) (requests : List Request) :
    (s.run requests).core = (requests.flatMap Request.edits).foldl Edit.apply s.core := by
  induction requests generalizing s with
  | nil => rfl
  | cons r requests ih =>
    rw [List.flatMap_cons, List.foldl_append, ← perform_core, ← ih]
    rfl

/-! ### Reachable scans -/

theorem ofLimits_eq_ok {limits : Limits} {s : Scan} (h : ofLimits limits = .ok s) :
    ∃ hpos : 0 < limits.maxDistances,
      s = { limits, memo := Memo.empty limits.maxDistances hpos } := by
  unfold ofLimits Limits.check at h
  cases hz : limits.zero? with
  | some limit =>
    rw [hz] at h
    cases h
  | none =>
    rw [hz] at h
    simp only [bind, Except.bind] at h
    split at h
    · cases h
      exact ⟨‹_›, rfl⟩
    · cases h

/-- The scan can be reached: some run leads to it from an empty scan. -/
def Reachable (s : Scan) : Prop :=
  ∃ limits start requests, ofLimits limits = .ok start ∧ s = start.run requests

/-- What holds of an empty core and is kept by every edit holds of every
reachable scan. -/
theorem Reachable.induction {P : Core → Prop}
    (empty : ∀ (capacity : Nat) (h : 0 < capacity), P ⟨{}, Memo.empty capacity h⟩)
    (apply : ∀ k e, P k → P (Edit.apply k e)) {s : Scan} (h : s.Reachable) : P s.core := by
  obtain ⟨limits, start, requests, hstart, rfl⟩ := h
  obtain ⟨hpos, rfl⟩ := ofLimits_eq_ok hstart
  rw [run_core]
  generalize hk : Scan.core _ = k
  have hP : P k := hk ▸ empty _ hpos
  clear hk
  induction requests.flatMap Request.edits generalizing k with
  | nil => exact hP
  | cons e edits ih => exact ih _ (apply k e hP)

end Scan
end TaintGraph
