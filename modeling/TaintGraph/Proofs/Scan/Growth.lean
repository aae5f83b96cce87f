/-
# Tables only grow

No request takes a callable or a call away: an ID that is known stays known, and
a recorded call stays recorded. So live chains persist along every run. A call
that is there after a request was there before or is the one that the request
records.

Key definitions: `CallTable.Grows`, `Request.call?`.
Key theorems: `CallTable.Grows.linked`, `Scan.grows_of_earlier`,
`Scan.calls_perform`.
-/
import TaintGraph.Proofs.Scan.Edit
import TaintGraph.Proofs.Table.LiveChain

namespace TaintGraph

/-- The call that a request records. -/
def Request.call? : Request → Option Call
  | .addCall c => some c
  | .recordCall _ f caller t site => some (f.call caller t site)
  | _ => none

theorem Request.mem_edits_call {r : Request} {c : Call} :
    .enter (.call c) ∈ r.edits ↔ r.call? = some c := by
  cases r with
  | addCall d => simp [edits, call?, eq_comm]
  | recordCall k f caller t site =>
    rw [edits, call?]
    split_ifs <;> simp [eq_comm]
  | distance source target =>
    rw [edits]
    split_ifs <;> simp [call?]
  | _ => simp [edits, call?]

namespace CallTable

/-- The table is part of the other one: nothing known or recorded is lost. -/
structure Grows (t t' : CallTable) : Prop where
  contains : ∀ id, t.contains id = true → t'.contains id = true
  calls : ∀ a b, t.Calls a b → t'.Calls a b

variable {t t' t'' : CallTable} {n : ℕ} {a b : String}

theorem Grows.refl (t : CallTable) : Grows t t :=
  ⟨fun _ h => h, fun _ _ h => h⟩

theorem Grows.trans (h : Grows t t') (h' : Grows t' t'') : Grows t t'' :=
  ⟨fun id hid => h'.contains id (h.contains id hid), fun a b hc => h'.calls a b (h.calls a b hc)⟩

/-- Live chains persist. -/
theorem Grows.linked (h : Grows t t') (hn : t.Linked n a b) : t'.Linked n a b := by
  obtain ⟨chain, hchain, hlen⟩ := hn
  refine ⟨chain, ⟨hchain.head, hchain.last, fun id hid => ?_, ?_⟩, hlen⟩
  · exact h.contains id (hchain.known id hid)
  · exact hchain.joined.imp h.calls

theorem calls_enter (e : Entry) (t : CallTable) (a b : String) :
    (e.enter t).Calls a b ↔ t.Calls a b ∨ ∃ c, e = .call c ∧ c.caller = a ∧ c.callee = b := by
  cases e with
  | add c => simp [Entry.enter, Calls]
  | offer c =>
    rw [Entry.enter]
    split_ifs <;> simp [Calls]
  | call c => simp [Entry.enter]

theorem calls_edit (e : Edit) (t : CallTable) (a b : String) :
    (e.table t).Calls a b ↔
      t.Calls a b ∨ ∃ c, e = .enter (.call c) ∧ c.caller = a ∧ c.callee = b := by
  cases e with
  | enter e => simp [Edit.table, calls_enter]
  | measure d => simp [Edit.table, Calls]
  | ask source target => simp [Edit.table]

theorem Grows.enter (e : Entry) (t : CallTable) : Grows t (e.enter t) := by
  refine ⟨fun id hid => ?_, fun a b hc => (calls_enter e t a b).2 (Or.inl hc)⟩
  cases e with
  | add c => simp [Entry.enter, hid]
  | offer c =>
    rw [Entry.enter]
    split_ifs
    · exact hid
    · simp [hid]
  | call c => simp [Entry.enter, hid]

theorem Grows.edit (e : Edit) (t : CallTable) : Grows t (e.table t) := by
  refine ⟨fun id hid => ?_, fun a b hc => (calls_edit e t a b).2 (Or.inl hc)⟩
  cases e with
  | enter e => exact (Grows.enter e t).contains id hid
  | measure d => simp [Edit.table, hid]
  | ask source target => exact hid

end CallTable

/-! ### Runs -/

theorem Core.grows_edits (es : List Edit) (k : Core) :
    k.table.Grows (es.foldl Edit.apply k).table := by
  induction es generalizing k with
  | nil => exact .refl _
  | cons e es ih => exact (CallTable.Grows.edit e k.table).trans (ih (Edit.apply k e))

theorem Core.calls_edits (es : List Edit) (k : Core) (a b : String) :
    (es.foldl Edit.apply k).table.Calls a b ↔
      k.table.Calls a b ∨ ∃ c, .enter (.call c) ∈ es ∧ c.caller = a ∧ c.callee = b := by
  induction es generalizing k with
  | nil => simp
  | cons e es ih =>
    rw [List.foldl_cons, ih, Edit.apply, CallTable.calls_edit, or_assoc, ← exists_or]
    simp only [List.mem_cons, eq_comm (a := e), or_and_right]

namespace Scan

theorem perform_table (s : Scan) (r : Request) :
    (s.perform r).2.table = (r.edits.foldl Edit.apply s.core).table :=
  congrArg Core.table (perform_core s r)

theorem calls_perform (s : Scan) (r : Request) (a b : String) :
    (s.perform r).2.table.Calls a b ↔
      s.table.Calls a b ∨ ∃ c, r.call? = some c ∧ c.caller = a ∧ c.callee = b := by
  rw [perform_table, Core.calls_edits]
  simp only [Request.mem_edits_call]
  rfl

theorem grows_perform (s : Scan) (r : Request) : s.table.Grows (s.perform r).2.table := by
  rw [perform_table]
  exact Core.grows_edits r.edits s.core

theorem grows_run (s : Scan) (requests : List Request) : s.table.Grows (s.run requests).table := by
  induction requests generalizing s with
  | nil => exact .refl _
  | cons r requests ih => exact (s.grows_perform r).trans (ih _)

/-- The table of an earlier moment of a run is part of that of a later one. -/
theorem grows_of_earlier (s : Scan) {before requests : List Request} (h : before <+: requests) :
    (s.run before).table.Grows (s.run requests).table := by
  obtain ⟨after, rfl⟩ := h
  rw [run_append]
  exact grows_run _ after

end Scan
end TaintGraph
