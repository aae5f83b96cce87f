/-
# A growing table is its log

Between passes a scan only takes in callables and calls. What it then answers
about single IDs can be read off the log of its entries: the callable of an ID is
the last one taken in (an offer is taken in only while the ID has none), the calls
of an ID are those of the log with that end, in their order, and the counts are
those of the log. The table never needs to be looked at: `CallTable.Follows` ties
its views to the log, and every entry keeps the tie.

Key definitions: `taken`, `recorded`, `lastTaken`, `CallTable.Follows`.
Key theorems: `CallTable.Follows.enter`, `Scan.answers_follow_log`.
-/
import Mathlib.Data.Finset.Card
import TaintGraph.Proofs.Table.WellFormed

namespace TaintGraph

/-- The callables taken in once one more entry is made: a callable that is
offered counts only when none with its ID was taken in before. -/
def takeIn (cs : List Callable) : Entry → List Callable
  | .add c => cs ++ [c]
  | .offer c => if c.id ∈ cs.map Callable.id then cs else cs ++ [c]
  | .call _ => cs

/-- The callables that a log takes in, in order. -/
def taken (log : List Entry) : List Callable :=
  log.foldl takeIn []

/-- The call that an entry records. -/
def Entry.call? : Entry → Option Call
  | .call c => some c
  | _ => none

/-- The calls that a log records, in order. -/
def recorded (log : List Entry) : List Call :=
  log.filterMap Entry.call?

/-- The last callable that a log takes in for an ID. An entry point starts no hop
away from an entry point, a sink no hop away from a sink, and no other distance
is known. -/
def lastTaken (log : List Entry) (id : String) : Option Callable :=
  ((taken log).filter fun c => c.id = id).getLast?.map fun c =>
    { c with
      fromEntry := if c.role = .entryPoint then some 0 else none
      toSink := if c.role = .sink then some 0 else none }

variable {log : List Entry} {e : Entry} {id : String}

theorem taken_append (log : List Entry) (e : Entry) :
    taken (log ++ [e]) = takeIn (taken log) e := by
  rw [taken, List.foldl_append]
  rfl

theorem recorded_append (log : List Entry) (e : Entry) :
    recorded (log ++ [e]) = recorded log ++ e.call?.toList := by
  rw [recorded, List.filterMap_append]
  cases e <;> rfl

theorem lastTaken_isSome : (lastTaken log id).isSome ↔ id ∈ (taken log).map Callable.id := by
  rw [lastTaken, Option.isSome_map, List.getLast?_isSome, ne_eq, List.filter_eq_nil_iff]
  simp

theorem reset_eq (c : Callable) :
    c.reset =
      { c with
        fromEntry := if c.role = .entryPoint then some 0 else none
        toSink := if c.role = .sink then some 0 else none } := by
  simp [Callable.reset, Callable.isEntryPoint, Callable.isSink]

theorem lastTaken_of_taken {c : Callable} (h : taken (log ++ [e]) = taken log ++ [c])
    (id : String) :
    lastTaken (log ++ [e]) id = if c.id = id then some c.reset else lastTaken log id := by
  rw [lastTaken, h, List.filter_append]
  by_cases hid : c.id = id
  · rw [if_pos hid, reset_eq]
    simp [hid]
  · rw [if_neg hid, lastTaken]
    simp [hid]

theorem lastTaken_of_same (h : taken (log ++ [e]) = taken log) (id : String) :
    lastTaken (log ++ [e]) id = lastTaken log id := by
  rw [lastTaken, h, lastTaken]

namespace CallTable

/-- The views of the table are those of the log. -/
structure Follows (t : CallTable) (log : List Entry) : Prop where
  callable? : ∀ id, t.callable? id = lastTaken log id
  outgoing : ∀ id, t.outgoing id = (recorded log).filter fun c => c.caller = id
  incoming : ∀ id, t.incoming id = (recorded log).filter fun c => c.callee = id
  calls : t.calls = (recorded log).length

variable {t : CallTable}

theorem Follows.empty : Follows {} [] where
  callable? := fun id => by simp [CallTable.callable?, row, lastTaken, taken]
  outgoing := fun id => by simp [CallTable.outgoing, row, recorded]
  incoming := fun id => by simp [CallTable.incoming, row, recorded]
  calls := rfl

theorem Follows.contains (h : Follows t log) :
    t.contains id = true ↔ id ∈ (taken log).map Callable.id := by
  rw [CallTable.contains, h.callable?, lastTaken_isSome]

/-- Taking in a callable. -/
theorem Follows.insert (h : Follows t log) {c : Callable}
    (htaken : taken (log ++ [e]) = taken log ++ [c]) (hcall : e.call? = none) :
    Follows (t.insert c) (log ++ [e]) := by
  have hrec : recorded (log ++ [e]) = recorded log := by
    rw [recorded_append, hcall]
    simp
  refine ⟨fun id => ?_, fun id => ?_, fun id => ?_, ?_⟩
  · simp [lastTaken_of_taken htaken, h.callable?]
  · simp [hrec, h.outgoing]
  · simp [hrec, h.incoming]
  · simp [hrec, h.calls]

theorem Follows.record (h : Follows t log) (c : Call) :
    Follows (t.record c) (log ++ [.call c]) := by
  have hrec : recorded (log ++ [.call c]) = recorded log ++ [c] := recorded_append log _
  have htaken : taken (log ++ [.call c]) = taken log := taken_append log _
  refine ⟨fun id => ?_, fun id => ?_, fun id => ?_, ?_⟩
  · simp [lastTaken_of_same htaken, h.callable?]
  · rw [outgoing_record, hrec, List.filter_append, h.outgoing]
    split_ifs with hc <;> simp [hc]
  · rw [incoming_record, hrec, List.filter_append, h.incoming]
    split_ifs with hc <;> simp [hc]
  · rw [hrec, List.length_append, ← h.calls]
    rfl

theorem Follows.enter (h : Follows t log) (e : Entry) : Follows (e.enter t) (log ++ [e]) := by
  cases e with
  | add c => exact h.insert (taken_append log _) rfl
  | call c => exact h.record c
  | offer c =>
    have htaken := taken_append log (.offer c)
    rw [takeIn] at htaken
    rw [Entry.enter]
    -- The table refuses the offer exactly when the log does not take it in.
    by_cases hc : t.contains c.id = true
    · rw [if_pos (h.contains.1 hc)] at htaken
      rw [if_pos hc]
      have hrec : recorded (log ++ [.offer c]) = recorded log := by
        rw [recorded_append]
        exact List.append_nil _
      refine ⟨fun id => ?_, fun id => ?_, fun id => ?_, ?_⟩
      · rw [lastTaken_of_same htaken, h.callable?]
      · rw [hrec, h.outgoing]
      · rw [hrec, h.incoming]
      · rw [hrec, h.calls]
    · rw [if_neg fun hmem => hc (h.contains.2 hmem)] at htaken
      rw [if_neg hc]
      exact h.insert htaken rfl

theorem Follows.run (log : List Entry) : Follows (log.foldl Entry.enter {}) log := by
  induction log using List.reverseRecOn with
  | nil => exact .empty
  | append_singleton log e ih =>
    rw [List.foldl_append]
    exact ih.enter e

theorem WellFormed.run (log : List Entry) : WellFormed (log.foldl Entry.enter {}) :=
  List.foldlRecOn log _ .empty fun _ h e _ => h.enter e

theorem Follows.live (h : Follows t log) (hwf : t.WellFormed) :
    t.live = ((taken log).map Callable.id).toFinset.card := by
  rw [hwf.live_eq, ← List.toFinset_card_of_nodup (nodup_known t)]
  congr 1
  ext id
  rw [List.mem_toFinset, mem_known, h.contains, List.mem_toFinset]

/-- Leaving out what is not known before or after doubles are removed is the
same. -/
theorem eraseDups_filter (p : String → Bool) (ids : List String) :
    (ids.filter p).eraseDups = ids.eraseDups.filter p := by
  induction hn : ids.length using Nat.strongRecOn generalizing ids with
  | ind n ih =>
    cases ids with
    | nil => rfl
    | cons a ids =>
      -- `eraseDups` goes on with a filtered tail, so the induction is on the length.
      have hlt : (ids.filter fun b => !b == a).length < n := by
        rw [← hn, List.length_cons]
        exact Nat.lt_succ_of_le (List.length_filter_le _ _)
      have hrest := ih _ hlt _ rfl
      rw [List.filter_filter] at hrest
      by_cases ha : p a = true
      · rw [List.filter_cons_of_pos ha, List.eraseDups_cons, List.eraseDups_cons,
          List.filter_cons_of_pos ha, ← hrest, List.filter_filter]
        simp only [Bool.and_comm]
      · rw [List.filter_cons_of_neg ha, List.eraseDups_cons, List.filter_cons_of_neg ha, ← hrest]
        congr 1
        refine List.filter_congr fun b _ => ?_
        by_cases hb : b = a
        · subst hb
          simp [ha]
        · simp [hb]

theorem distinct_filter_contains (t : CallTable) (ids : List String) :
    t.distinct (ids.filter t.contains) = ids.eraseDups.filterMap t.callable? := by
  rw [distinct, eraseDups_filter, List.filterMap_filter]
  refine List.filterMap_congr fun id _ => ?_
  by_cases hid : t.contains id = true
  · rw [if_pos hid]
  · rw [if_neg hid]
    exact (contains_eq_false_iff.1 (by simpa using hid)).symm

theorem Follows.distinct (h : Follows t log) (ids : List String) :
    t.distinct (ids.filter t.contains) = ids.eraseDups.filterMap (lastTaken log) := by
  rw [distinct_filter_contains]
  exact List.filterMap_congr fun id _ => h.callable? id

end CallTable

namespace Scan

theorem perform_entry_table (s : Scan) (e : Entry) :
    (s.perform e.request).2.table = e.enter s.table := by
  have hcore := perform_core s e.request
  have hedits : e.request.edits = [.enter e] := by cases e <;> rfl
  rw [hedits] at hcore
  exact congrArg Core.table hcore

theorem run_entries_table (s : Scan) (log : List Entry) :
    (s.run (log.map Entry.request)).table = log.foldl Entry.enter s.table := by
  induction log generalizing s with
  | nil => rfl
  | cons e log ih =>
    rw [List.foldl_cons, ← perform_entry_table, ← ih]
    rfl

/-- **A growing table is its log.** After any log on an empty scan, the callable
of an ID is the last one taken in for it, its calls are those of the log with
that end, the callables at their other ends are listed once, by first call, and
the counts are those of the log. An offer is accepted just when no callable was
taken in for its ID. -/
theorem answers_follow_log {limits : Limits} {start : Scan} (hstart : ofLimits limits = .ok start)
    (log : List Entry) (id : String) :
    let s := start.run (log.map Entry.request)
    let out := (recorded log).filter fun c => c.caller = id
    let into := (recorded log).filter fun c => c.callee = id
    (s.perform (.callable id)).1 = .callable (lastTaken log id) ∧
    (s.perform (.outgoing id)).1 = .calls out ∧
    (s.perform (.incoming id)).1 = .calls into ∧
    (s.perform (.callees id)).1 =
      .callables ((out.map Call.callee).eraseDups.filterMap (lastTaken log)) ∧
    (s.perform (.callers id)).1 =
      .callables ((into.map Call.caller).eraseDups.filterMap (lastTaken log)) ∧
    (s.perform .callCount).1 = .count (recorded log).length ∧
    (s.perform .callableCount).1 = .count ((taken log).map Callable.id).toFinset.card ∧
    ∀ c : Callable, (s.perform (.addIfAbsent c)).1 =
      .truth (decide (c.id ∉ (taken log).map Callable.id)) := by
  intro s out into
  have htable : s.table = log.foldl Entry.enter {} := by
    obtain ⟨hpos, rfl⟩ := ofLimits_eq_ok hstart
    exact run_entries_table _ log
  have hlog : s.table.Follows log := htable ▸ CallTable.Follows.run log
  have hreach : s.Reachable := ⟨limits, start, _, hstart, rfl⟩
  have hcallees : s.table.callees id =
      (out.map Call.callee).eraseDups.filterMap (lastTaken log) := by
    rw [CallTable.callees, CallTable.successors, hlog.distinct, hlog.outgoing]
  have hcallers : s.table.callers id =
      (into.map Call.caller).eraseDups.filterMap (lastTaken log) := by
    rw [CallTable.callers, CallTable.predecessors, hlog.distinct, hlog.incoming]
  refine ⟨congrArg Reply.callable (hlog.callable? id), congrArg Reply.calls (hlog.outgoing id),
    congrArg Reply.calls (hlog.incoming id), congrArg Reply.callables hcallees,
    congrArg Reply.callables hcallers, congrArg Reply.count hlog.calls,
    congrArg Reply.count (hlog.live hreach.wellFormed), fun c => ?_⟩
  rw [perform, addIfAbsent]
  by_cases hc : s.table.contains c.id = true
  · have hmem := hlog.contains.1 hc
    rw [if_pos hc, decide_eq_false (not_not_intro hmem)]
  · have hnot := mt hlog.contains.2 hc
    rw [if_neg hc, decide_eq_true hnot]

/-- A call recorded before its ends are known, a repeated call, a call to itself, a
call to nowhere, a callable that is replaced, and an offer that is refused. -/
def scrambled : List Entry :=
  [.call { caller := "f", callee := "g" }, .call { caller := "f", callee := "ghost" },
    .call { caller := "f", callee := "f" }, .call { caller := "f", callee := "g" },
    .add { id := "g", name := "g" }, .offer { id := "f", name := "f" },
    .add { id := "g", name := "h", role := .sink, fromEntry := some 7 },
    .offer { id := "g", name := "late" }]

/-- The refused offer leaves the replacing callable in place, and a repeated call is
listed twice but its callee once. -/
theorem answers_follow_log_scrambled :
    ofLimits {} = .ok new ∧
    lastTaken scrambled "g" = some { id := "g", name := "h", role := .sink, toSink := some 0 } ∧
    ((new.run (scrambled.map Entry.request)).perform (.callable "g")).1 =
      .callable (some { id := "g", name := "h", role := .sink, toSink := some 0 }) ∧
    ((new.run (scrambled.map Entry.request)).perform (.callees "f")).1 =
      .callables [{ id := "g", name := "h", role := .sink, toSink := some 0 },
        { id := "f", name := "f" }] ∧
    ((new.run (scrambled.map Entry.request)).perform .callCount).1 = .count 4 ∧
    ((new.run (scrambled.map Entry.request)).perform .callableCount).1 = .count 2 ∧
    ((new.run (scrambled.map Entry.request)).perform (.addIfAbsent { id := "g", name := "k" })).1 =
      .truth false := by
  have hstart : ofLimits {} = .ok new := rfl
  have hlast : lastTaken scrambled "g" =
      some { id := "g", name := "h", role := .sink, toSink := some 0 } := by decide +kernel
  obtain ⟨hcallable, -⟩ := answers_follow_log hstart scrambled "g"
  obtain ⟨-, -, -, hcallees, -, hcalls, hlive, hoffer⟩ := answers_follow_log hstart scrambled "f"
  refine ⟨hstart, hlast, ?_, ?_, ?_, ?_, ?_⟩
  · rw [hcallable, hlast]
  · rw [hcallees]
    exact congrArg Reply.callables (by decide +kernel)
  · rw [hcalls]
    rfl
  · rw [hlive]
    exact congrArg Reply.count (by decide +kernel)
  · rw [hoffer]
    exact congrArg Reply.truth (by decide +kernel)

end Scan
end TaintGraph
