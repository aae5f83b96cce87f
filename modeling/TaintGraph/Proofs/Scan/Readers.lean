/-
# Many readers, one scan

Files are read side by side. Each reader works through what it finds in its file, and
its steps fall between those of the others in any way. A call takes two steps: first
its callee is registered when the registry says that it is a sink, then the call is
recorded; other readers may come in between. A declaration replaces what its ID holds and a
registration does not, so an ID that is declared once and registered any number of
times ends with its declaration, whichever came first. What the table holds in the end
is told by what the readers found (`CallTable.Holds`) and not by who went when, and the
distances depend on that alone.

Key definitions: `Found`, `Step`, `Reader`, `Interleaves`, `CallTable.Holds`.
Key theorems: `Reader.run_requests`, `Interleaves.perm`, `lastTaken_of_add`,
`CallTable.Holds.sameShape`, `Scan.readers_confluent`.
-/
import TaintGraph.Proofs.Scan.Log
import TaintGraph.Proofs.Table.Shape

namespace TaintGraph

/-! ### Readers and their steps -/

/-- What a reader finds in its file. -/
inductive Found where
  /-- A free function. -/
  | function (name : String) (line : UInt32) (role : Role)
  /-- A method. -/
  | method (cls name : String) (line : UInt32) (role : Role)
  /-- A call. -/
  | call (caller : String) (t : Target) (site : Site)

/-- What a reader does while no other can reach the scan. -/
inductive Step where
  /-- Add a callable or replace the one with its ID. -/
  | declare (c : Callable)
  /-- Register what a call in the file names, if it is a sink. -/
  | register (f : SourceFile) (t : Target)
  /-- Record a call. -/
  | link (c : Call)

/-- The scan after a step. -/
def Step.apply (k : SinkRegistry) (s : Scan) : Step → Scan
  | .declare c => s.add c
  | .register f t => SourceFile.registerTarget k f t s
  | .link c => s.addCall c

/-- What a step enters into the table. -/
def Step.entries (k : SinkRegistry) : Step → List Entry
  | .declare c => [.add c]
  | .register f t => if k t.className t.name then [.offer (f.targetSink t)] else []
  | .link c => [.call c]

namespace Found

variable (k : SinkRegistry) (f : SourceFile)

/-- The request by which the reader of a file hands over what it found. -/
def request : Found → Request
  | .function name line role => .declareFunction f name line role
  | .method cls name line role => .declareMethod f cls name line role
  | .call caller t site => .recordCall k f caller t site

/-- The steps that this takes. -/
def steps : Found → List Step
  | .function name line role => [.declare (f.function name line role)]
  | .method cls name line role => [.declare (f.method cls name line role)]
  | .call caller t site => [.register f t, .link (f.call caller t site)]

/-- The callable that is declared. -/
def declares : Found → Option Callable
  | .function name line role => some (f.function name line role)
  | .method cls name line role => some (f.method cls name line role)
  | .call _ _ _ => none

/-- The listed sink that is called. -/
def registers : Found → Option Callable
  | .call _ t _ => if k t.className t.name then some (f.targetSink t) else none
  | _ => none

/-- The call. -/
def links : Found → Option Call
  | .call caller t site => some (f.call caller t site)
  | _ => none

/-- Alone with the scan, a reader that takes its steps performs the request. -/
theorem perform_request (s : Scan) (x : Found) :
    (s.perform (x.request k f)).2 = (x.steps f).foldl (Step.apply k) s := by
  cases x <;> rfl

/-- What is entered into the table for what was found. -/
def entries (x : Found) : List Entry :=
  (x.steps f).flatMap (Step.entries k)

theorem add_mem_entries {x : Found} {c : Callable} :
    .add c ∈ x.entries k f ↔ x.declares f = some c := by
  cases x with
  | function name line role => simp [entries, steps, Step.entries, declares, eq_comm]
  | method cls name line role => simp [entries, steps, Step.entries, declares, eq_comm]
  | call caller t site =>
    simp only [entries, steps, Step.entries, declares, List.flatMap_cons, List.flatMap_nil]
    split_ifs <;> simp

theorem offer_mem_entries {x : Found} {c : Callable} :
    .offer c ∈ x.entries k f ↔ x.registers k f = some c := by
  cases x with
  | function name line role => simp [entries, steps, Step.entries, registers]
  | method cls name line role => simp [entries, steps, Step.entries, registers]
  | call caller t site =>
    simp only [entries, steps, Step.entries, registers, List.flatMap_cons, List.flatMap_nil]
    split_ifs <;> simp [eq_comm]

theorem recorded_entries (x : Found) : recorded (x.entries k f) = (x.links f).toList := by
  cases x with
  | function name line role => rfl
  | method cls name line role => rfl
  | call caller t site =>
    simp only [entries, steps, Step.entries, links, List.flatMap_cons, List.flatMap_nil]
    split_ifs <;> rfl

end Found

/-- A reader of one file and what it finds there, in order. -/
structure Reader where
  /-- The file. -/
  file : SourceFile
  /-- What is found. -/
  finds : List Found

namespace Reader

/-- The steps that a reader takes, in order. -/
def steps (r : Reader) : List Step :=
  r.finds.flatMap (Found.steps r.file)

/-- The requests by which the files are read one after the other. -/
def requests (k : SinkRegistry) (readers : List Reader) : List Request :=
  readers.flatMap fun r => r.finds.map (Found.request k r.file)

/-- The callables that the readers declare. -/
def declared (readers : List Reader) : List Callable :=
  readers.flatMap fun r => r.finds.filterMap (Found.declares r.file)

/-- The listed sinks that the readers find called. -/
def registered (k : SinkRegistry) (readers : List Reader) : List Callable :=
  readers.flatMap fun r => r.finds.filterMap (Found.registers k r.file)

/-- The calls that the readers find. -/
def linked (readers : List Reader) : List Call :=
  readers.flatMap fun r => r.finds.filterMap (Found.links r.file)

/-- What is entered into the table when the files are read one after the other. -/
def entries (k : SinkRegistry) (readers : List Reader) : List Entry :=
  readers.flatMap fun r => r.finds.flatMap (Found.entries k r.file)

variable {k : SinkRegistry} {readers : List Reader} {c : Callable}

/-- Reading the files one after the other takes the steps of one reader after the other. -/
theorem run_requests (k : SinkRegistry) (readers : List Reader) (s : Scan) :
    s.run (requests k readers) = (readers.map steps).flatten.foldl (Step.apply k) s := by
  have hfinds : ∀ (r : Reader) (s : Scan),
      s.run (r.finds.map (Found.request k r.file)) = r.steps.foldl (Step.apply k) s := by
    intro r s
    rw [steps, List.foldl_flatMap, Scan.run, List.foldl_map]
    simp only [Found.perform_request]
  induction readers generalizing s with
  | nil => rfl
  | cons r readers ih =>
    rw [requests, List.flatMap_cons, Scan.run_append, hfinds, List.map_cons, List.flatten_cons,
      List.foldl_append, ← ih]
    rfl

theorem add_mem_entries : .add c ∈ entries k readers ↔ c ∈ declared readers := by
  simp [entries, declared, Found.add_mem_entries]

theorem offer_mem_entries : .offer c ∈ entries k readers ↔ c ∈ registered k readers := by
  simp [entries, registered, Found.offer_mem_entries]

theorem role_of_mem_registered (h : c ∈ registered k readers) : c.role = .sink := by
  obtain ⟨r, -, hr⟩ := List.mem_flatMap.1 h
  obtain ⟨x, -, hx⟩ := List.mem_filterMap.1 hr
  cases x with
  | function name line role => cases hx
  | method cls name line role => cases hx
  | call caller t site =>
    rw [Found.registers] at hx
    split_ifs at hx
    cases hx
    rfl

theorem recorded_entries (k : SinkRegistry) (readers : List Reader) :
    recorded (entries k readers) = linked readers := by
  have hfinds : ∀ r : Reader, recorded (r.finds.flatMap (Found.entries k r.file)) =
      r.finds.filterMap (Found.links r.file) := by
    intro r
    rw [recorded, List.filterMap_flatMap, List.filterMap_eq_flatMap_toList]
    exact List.flatMap_congr fun x _ => Found.recorded_entries k r.file x
  rw [recorded, entries, List.filterMap_flatMap, linked]
  exact List.flatMap_congr fun r _ => hfinds r

end Reader

/-! ### Interleaving -/

/-- The trace takes the steps of all threads, those of each thread in their order. -/
inductive Interleaves {α : Type} : List (List α) → List α → Prop where
  /-- All threads are done. -/
  | done {threads : List (List α)} (h : ∀ l ∈ threads, l = []) : Interleaves threads []
  /-- One of the threads takes its next step. -/
  | step (before : List (List α)) (x : α) (l : List α) (after : List (List α)) {trace : List α}
      (h : Interleaves (before ++ l :: after) trace) :
      Interleaves (before ++ (x :: l) :: after) (x :: trace)

theorem Interleaves.perm {α : Type} {threads : List (List α)} {trace : List α}
    (h : Interleaves threads trace) : trace.Perm threads.flatten := by
  induction h with
  | done h => rw [List.flatten_eq_nil_iff.2 h]
  | step before x l after h ih =>
    have hmid : (x :: (before ++ l :: after).flatten).Perm
        (before ++ (x :: l) :: after).flatten := by
      simpa using List.perm_middle.symm
    exact (ih.cons x).trans hmid

theorem Interleaves.cons_nil {α : Type} {threads : List (List α)} {trace : List α}
    (h : Interleaves threads trace) : Interleaves ([] :: threads) trace := by
  induction h with
  | done h =>
    refine .done fun l hl => ?_
    rcases List.mem_cons.1 hl with rfl | hl
    · rfl
    · exact h l hl
  | step before x l after h ih => exact .step ([] :: before) x l after ih

/-- One thread after the other is an interleaving. -/
theorem Interleaves.flatten {α : Type} (threads : List (List α)) :
    Interleaves threads threads.flatten := by
  induction threads with
  | nil => exact .done fun l hl => by cases hl
  | cons l threads ih =>
    rw [List.flatten_cons]
    induction l with
    | nil => exact ih.cons_nil
    | cons x l ihl => exact .step [] x l threads ihl

theorem Step.apply_table (k : SinkRegistry) (s : Scan) (x : Step) :
    (x.apply k s).table = (x.entries k).foldl Entry.enter s.table := by
  cases x with
  | declare c => exact congrArg Core.table (Scan.core_add c s)
  | link c => exact congrArg Core.table (Scan.core_addCall c s)
  | register f t =>
    have hcore := congrArg Core.table (Scan.core_registerTarget k f t s)
    rw [Step.entries]
    split_ifs with hsink
    · rw [if_pos hsink] at hcore
      exact hcore
    · rw [if_neg hsink] at hcore
      exact hcore

/-- The table after a trace is that of the entries of its steps. -/
theorem Step.trace_table (k : SinkRegistry) (s : Scan) (trace : List Step) :
    (trace.foldl (Step.apply k) s).table =
      (trace.flatMap (Step.entries k)).foldl Entry.enter s.table := by
  induction trace generalizing s with
  | nil => rfl
  | cons x trace ih =>
    rw [List.foldl_cons, ih, Step.apply_table, List.flatMap_cons, List.foldl_append]

/-- An interleaving makes the entries that are made when the files are read one after the
other, in some order. -/
theorem Interleaves.entries_perm (k : SinkRegistry) {readers : List Reader} {trace : List Step}
    (h : Interleaves (readers.map Reader.steps) trace) :
    (trace.flatMap (Step.entries k)).Perm (Reader.entries k readers) := by
  have hall : (readers.map Reader.steps).flatten.flatMap (Step.entries k) =
      Reader.entries k readers := by
    rw [← List.flatMap_def, List.flatMap_assoc, Reader.entries]
    refine List.flatMap_congr fun r _ => ?_
    rw [Reader.steps, List.flatMap_assoc]
    rfl
  exact hall ▸ h.perm.flatMap_right (Step.entries k)

/-! ### What a log takes in, whatever its order -/

section

variable {log : List Entry} {c : Callable} {id : String}

theorem mem_log_of_mem_taken (h : c ∈ taken log) : .add c ∈ log ∨ .offer c ∈ log := by
  induction log using List.reverseRecOn with
  | nil => cases h
  | append_singleton log e ih =>
    have hstep : c ∈ taken log ∨ e = .add c ∨ e = .offer c := by
      rw [taken_append] at h
      cases e with
      | add d => simpa [takeIn, eq_comm] using h
      | offer d =>
        rw [takeIn] at h
        split_ifs at h
        · exact Or.inl h
        · simpa [eq_comm] using h
      | call d => exact Or.inl h
    simp only [List.mem_append, List.mem_singleton]
    rcases hstep with hc | rfl | rfl
    · exact (ih hc).imp Or.inl Or.inl
    · exact Or.inl (Or.inr rfl)
    · exact Or.inr (Or.inr rfl)

theorem mem_map_taken_append (e : Entry) :
    id ∈ (taken (log ++ [e])).map Callable.id ↔
      id ∈ (taken log).map Callable.id ∨ ∃ c, (e = .add c ∨ e = .offer c) ∧ c.id = id := by
  rw [taken_append]
  cases e with
  | add d => simp [takeIn, eq_comm (b := d.id)]
  | call d => simp [takeIn]
  | offer d =>
    rw [takeIn]
    split_ifs with hd
    · have hknown : d.id = id → id ∈ (taken log).map Callable.id := fun h => h ▸ hd
      simpa using hknown
    · simp [eq_comm (b := d.id)]

theorem mem_map_taken :
    id ∈ (taken log).map Callable.id ↔ ∃ c, (.add c ∈ log ∨ .offer c ∈ log) ∧ c.id = id := by
  induction log using List.reverseRecOn with
  | nil => simp [taken]
  | append_singleton log e ih =>
    rw [mem_map_taken_append, ih, ← exists_or]
    simp only [List.mem_append, List.mem_singleton, eq_comm (a := e), ← or_and_right]
    simp only [or_or_or_comm]

/-- What an ID holds was added or offered. -/
theorem exists_of_lastTaken {d : Callable} (h : lastTaken log id = some d) :
    ∃ c, (.add c ∈ log ∨ .offer c ∈ log) ∧ c.id = id ∧ d = c.reset := by
  obtain ⟨c, hc, rfl⟩ := Option.map_eq_some_iff.1 h
  have hmem := List.mem_filter.1 (List.mem_of_getLast? hc)
  exact ⟨c, mem_log_of_mem_taken hmem.1, by simpa using hmem.2, (reset_eq c).symm⟩

/-- An ID that one declaration is made for ends with it, however often it is offered. -/
theorem lastTaken_of_add (hadd : .add c ∈ log)
    (honly : ∀ d, .add d ∈ log → d.id = c.id → d = c) : lastTaken log c.id = some c.reset := by
  induction log using List.reverseRecOn with
  | nil => cases hadd
  | append_singleton log e ih =>
    have hlog : .add c ∈ log → lastTaken log c.id = some c.reset := fun hc =>
      ih hc fun d hd => honly d (List.mem_append_left _ hd)
    rcases List.mem_append.1 hadd with hc | hc
    · cases e with
      | call d => rw [lastTaken_of_same (taken_append log _), hlog hc]
      | add d =>
        rw [lastTaken_of_taken (taken_append log _)]
        split_ifs with hd
        · rw [honly d (by simp) hd]
        · exact hlog hc
      | offer d =>
        have htaken := taken_append log (.offer d)
        rw [takeIn] at htaken
        split_ifs at htaken with hd
        · rw [lastTaken_of_same htaken, hlog hc]
        · -- An offer that is taken in has another ID, since this one is known.
          have hknown : c.id ∈ (taken log).map Callable.id := mem_map_taken.2 ⟨c, Or.inl hc, rfl⟩
          have hne : d.id ≠ c.id := fun h => hd (h ▸ hknown)
          rw [lastTaken_of_taken htaken, if_neg hne, hlog hc]
    · obtain rfl := List.mem_singleton.1 hc
      rw [lastTaken_of_taken (taken_append log _), if_pos rfl]

end

/-! ### What the table holds in the end -/

namespace CallTable

/-- The table holds what the readers found. An ID that is declared holds its declaration;
any other holds a sink just when a call of a listed function names it, and nothing but
such a sink. The calls of the table are those of the readers. -/
structure Holds (t : CallTable) (k : SinkRegistry) (readers : List Reader) : Prop where
  declared : ∀ c ∈ Reader.declared readers, t.callable? c.id = some c.reset
  undeclared : ∀ id ∉ (Reader.declared readers).map Callable.id,
    (t.HasRole .sink id ↔ id ∈ (Reader.registered k readers).map Callable.id)
  nothingElse : ∀ id ∉ (Reader.declared readers).map Callable.id, ∀ c,
    t.callable? id = some c → ∃ d ∈ Reader.registered k readers, d.id = id ∧ c = d.reset
  outgoing : ∀ id, (t.outgoing id).Perm ((Reader.linked readers).filter fun c => c.caller = id)
  incoming : ∀ id, (t.incoming id).Perm ((Reader.linked readers).filter fun c => c.callee = id)
  calls : t.calls = (Reader.linked readers).length

variable {t t' : CallTable} {k : SinkRegistry} {readers : List Reader}

/-- Whatever the order of the entries, their table holds what the readers found. -/
theorem holds_of_perm {log : List Entry} (hlog : log.Perm (Reader.entries k readers))
    (hnodup : ((Reader.declared readers).map Callable.id).Nodup) :
    (log.foldl Entry.enter {}).Holds k readers := by
  have hadd : ∀ c, .add c ∈ log ↔ c ∈ Reader.declared readers := fun c => by
    rw [hlog.mem_iff, Reader.add_mem_entries]
  have hoffer : ∀ c, .offer c ∈ log ↔ c ∈ Reader.registered k readers := fun c => by
    rw [hlog.mem_iff, Reader.offer_mem_entries]
  have hcalls : (recorded log).Perm (Reader.linked readers) := by
    rw [← Reader.recorded_entries k]
    exact hlog.filterMap _
  have hviews := Follows.run log
  -- Without a declaration, what an ID holds can only have been registered.
  have hheld : ∀ id ∉ (Reader.declared readers).map Callable.id, ∀ c,
      lastTaken log id = some c → ∃ d ∈ Reader.registered k readers, d.id = id ∧ c = d.reset := by
    intro id hid c hc
    obtain ⟨d, hd | hd, hdid, hreset⟩ := exists_of_lastTaken hc
    · exact absurd (List.mem_map.2 ⟨d, (hadd d).1 hd, hdid⟩) hid
    · exact ⟨d, (hoffer d).1 hd, hdid, hreset⟩
  refine ⟨fun c hc => ?_, fun id hid => ⟨?_, ?_⟩, fun id hid c hc => ?_, fun id => ?_,
    fun id => ?_, ?_⟩
  · rw [hviews.callable?]
    refine lastTaken_of_add ((hadd c).2 hc) fun d hd hdc => ?_
    exact List.inj_on_of_nodup_map hnodup ((hadd d).1 hd) hc hdc
  · intro hrole
    obtain ⟨c, hc, -⟩ := hrole
    rw [hviews.callable?] at hc
    obtain ⟨d, hd, hdid, -⟩ := hheld id hid c hc
    exact List.mem_map.2 ⟨d, hd, hdid⟩
  · intro hmem
    obtain ⟨c, hc, rfl⟩ := List.mem_map.1 hmem
    have hknown : (lastTaken log c.id).isSome :=
      lastTaken_isSome.2 (mem_map_taken.2 ⟨c, Or.inr ((hoffer c).2 hc), rfl⟩)
    obtain ⟨d, hd⟩ := Option.isSome_iff_exists.1 hknown
    obtain ⟨b, hb, -, rfl⟩ := hheld c.id hid d hd
    have hrole : b.role = .sink := Reader.role_of_mem_registered hb
    exact ⟨b.reset, by rw [hviews.callable?, hd], hrole⟩
  · rw [hviews.callable?] at hc
    exact hheld id hid c hc
  · rw [hviews.outgoing]
    exact hcalls.filter _
  · rw [hviews.incoming]
    exact hcalls.filter _
  · rw [hviews.calls, hcalls.length_eq]

theorem Holds.hasRole_iff (h : t.Holds k readers) {role : Role} {id : String} :
    t.HasRole role id ↔
      (∃ c ∈ Reader.declared readers, c.id = id ∧ c.role = role) ∨
      (id ∉ (Reader.declared readers).map Callable.id ∧
        id ∈ (Reader.registered k readers).map Callable.id ∧ role = .sink) := by
  by_cases hid : id ∈ (Reader.declared readers).map Callable.id
  · obtain ⟨c, hc, rfl⟩ := List.mem_map.1 hid
    have hheld := h.declared c hc
    constructor
    · intro hhas
      obtain ⟨d, hd, hrole⟩ := hhas
      rw [hheld] at hd
      cases hd
      exact Or.inl ⟨c, hc, rfl, hrole⟩
    · rintro (⟨d, hd, hdid, rfl⟩ | ⟨hnot, -⟩)
      · have hd' := h.declared d hd
        rw [hdid] at hd'
        exact ⟨d.reset, hd', rfl⟩
      · exact absurd hid hnot
  · constructor
    · intro hheld
      obtain ⟨c, hc, hrole⟩ := hheld
      obtain ⟨d, hd, hdid, rfl⟩ := h.nothingElse id hid c hc
      have hsink : d.role = .sink := Reader.role_of_mem_registered hd
      exact Or.inr ⟨hid, List.mem_map.2 ⟨d, hd, hdid⟩, hrole.symm.trans hsink⟩
    · rintro (⟨c, hc, hcid, -⟩ | ⟨-, hmem, rfl⟩)
      · exact absurd (List.mem_map.2 ⟨c, hc, hcid⟩) hid
      · exact (h.undeclared id hid).2 hmem

theorem Holds.calls_iff (h : t.Holds k readers) {a b : String} :
    t.Calls a b ↔ ∃ c ∈ Reader.linked readers, c.caller = a ∧ c.callee = b := by
  unfold Calls
  simp only [(h.outgoing a).mem_iff, List.mem_filter, decide_eq_true_eq, and_assoc]

/-- What the readers found fixes the shape of the table. -/
theorem Holds.sameShape (h : t.Holds k readers) (h' : t'.Holds k readers) : t.SameShape t' :=
  ⟨fun a b => by rw [h.calls_iff, h'.calls_iff],
    fun role id => by rw [h.hasRole_iff, h'.hasRole_iff]⟩

end CallTable

namespace Scan

/-- **Reading is confluent.** Let readers work side by side on an empty scan, and let no
ID be declared twice. However their steps fall between each other, the table holds what
they found: declarations, registered sinks and calls. So two interleavings give every ID
the same role, or none, the same calls in some order and, once both passes have run, the
same distances. -/
theorem readers_confluent {limits : Limits} {start : Scan} (hstart : ofLimits limits = .ok start)
    (k : SinkRegistry) {readers : List Reader}
    (hnodup : ((Reader.declared readers).map Callable.id).Nodup) {trace trace' : List Step}
    (htrace : Interleaves (readers.map Reader.steps) trace)
    (htrace' : Interleaves (readers.map Reader.steps) trace') :
    let s := trace.foldl (Step.apply k) start
    let s' := trace'.foldl (Step.apply k) start
    s.table.Holds k readers ∧
    ∀ id, (s.table.callable? id).map Callable.role = (s'.table.callable? id).map Callable.role ∧
      (s.table.outgoing id).Perm (s'.table.outgoing id) ∧
      (s.table.incoming id).Perm (s'.table.incoming id) ∧
      ((s.run [.entryPass, .sinkPass]).table.callable? id).map
          (fun c => (c.fromEntry, c.toSink)) =
        ((s'.run [.entryPass, .sinkPass]).table.callable? id).map
          fun c => (c.fromEntry, c.toSink) := by
  intro s s'
  have htable : ∀ steps : List Step, (steps.foldl (Step.apply k) start).table =
      (steps.flatMap (Step.entries k)).foldl Entry.enter {} := by
    obtain ⟨hpos, rfl⟩ := ofLimits_eq_ok hstart
    exact fun steps => Step.trace_table k _ steps
  have hholds : s.table.Holds k readers := by
    rw [htable trace]
    exact CallTable.holds_of_perm (htrace.entries_perm k) hnodup
  have hholds' : s'.table.Holds k readers := by
    rw [htable trace']
    exact CallTable.holds_of_perm (htrace'.entries_perm k) hnodup
  have hwf : s.table.WellFormed := by
    rw [htable trace]
    exact .run _
  have hwf' : s'.table.WellFormed := by
    rw [htable trace']
    exact .run _
  have hshape := hholds.sameShape hholds'
  refine ⟨hholds, fun id => ⟨hshape.role_eq id, ?_, ?_, ?_⟩⟩
  · exact (hholds.outgoing id).trans (hholds'.outgoing id).symm
  · exact (hholds.incoming id).trans (hholds'.incoming id).symm
  · exact distances_of_sameShape hshape hwf hwf' id

/-- The registry of a catalogue with two functions. -/
def listed : SinkRegistry :=
  SinkCatalog.isSink { functions := ["exec", "system"] }

/-- One file declares a function that is listed, and another one calls it. -/
def sharing : List Reader :=
  [{ file := { path := "a.c" }, finds := [.function "exec" 3 .regular] },
    { file := { path := "b.c" }
      finds := [.function "main" 1 .entryPoint,
        .call "b.c:main" { name := "exec", definedIn := some "a.c" } {},
        .call "a.c:exec" { name := "system" } {}] }]

/-- The function is registered as a sink before its own file declares it, and declared
before the call is recorded. -/
def registeredFirst : List Step :=
  [.declare (SourceFile.function { path := "b.c" } "main" 1 .entryPoint),
    .register { path := "b.c" } { name := "exec", definedIn := some "a.c" },
    .declare (SourceFile.function { path := "a.c" } "exec" 3 .regular),
    .link (SourceFile.call { path := "b.c" } "b.c:main"
      { name := "exec", definedIn := some "a.c" } {}),
    .register { path := "b.c" } { name := "system" },
    .link (SourceFile.call { path := "b.c" } "a.c:exec" { name := "system" } {})]

/-- The declared function is no sink in the end: it is one hop from one, as it is when
its file is read first. -/
theorem readers_confluent_registeredFirst :
    ofLimits {} = .ok new ∧ ((Reader.declared sharing).map Callable.id).Nodup ∧
    Interleaves (sharing.map Reader.steps) registeredFirst ∧
    (registeredFirst.foldl (Step.apply listed) new).table.callable?
      "a.c:exec" = some { id := "a.c:exec", name := "exec", file := "a.c", line := 3 } ∧
    (((registeredFirst.foldl (Step.apply listed) new).run
      [.entryPass, .sinkPass]).table.callable? "a.c:exec").map
        (fun c => (c.fromEntry, c.toSink)) = some (some 1, some 1) := by
  have hnodup : ((Reader.declared sharing).map Callable.id).Nodup := by decide +kernel
  have htrace : Interleaves (sharing.map Reader.steps) registeredFirst :=
    .step [_] _ _ [] (.step [_] _ _ [] (.step [] _ _ [_] (.step [_] _ _ [] (.step [_] _ _ []
      (.step [_] _ _ [] (.done (by simp)))))))
  have hstart : ofLimits {} = .ok new := rfl
  obtain ⟨hholds, hsame⟩ := readers_confluent hstart listed hnodup htrace (.flatten _)
  refine ⟨hstart, hnodup, htrace, ?_, ?_⟩
  · exact hholds.declared (SourceFile.function { path := "a.c" } "exec" 3 .regular)
      (by decide +kernel)
  · rw [(hsame "a.c:exec").2.2.2, ← Reader.run_requests]
    decide +kernel

end Scan
end TaintGraph
