/-
# Whom callees and callers show

The callees of an ID are read off the calls out of it, its callers off the calls into it.
Both leave out the ends that are not known, but neither looks at the ID itself. So a
recorded call shows its callee once the callee is known, and its caller once the caller is
known: the two lists agree on it as long as both ends are known or neither is
(`Scan.neighbours_skip_unknown_ends`). An ID without a callable may have callees
(`Scan.callees_of_unknown`), though no chain passes through it.

Key definitions: `CallTable.Shows`.
Key theorems: `CallTable.WellFormed.shows_callees`, `CallTable.WellFormed.shows_callers`,
`Scan.neighbours_skip_unknown_ends`.
-/
import TaintGraph.Proofs.Table.WellFormed

namespace TaintGraph
namespace CallTable

variable {t : CallTable}

/-- The callable of the ID is among the given ones. -/
def Shows (t : CallTable) (shown : List Callable) (id : String) : Prop :=
  ∃ c ∈ shown, t.callable? id = some c

theorem mem_distinct {ids : List String} {c : Callable} :
    c ∈ t.distinct ids ↔ ∃ id ∈ ids, t.callable? id = some c := by
  simp [distinct]

theorem distinct_eq_nil {ids : List String} :
    t.distinct ids = [] ↔ ∀ id ∈ ids, t.contains id = false := by
  simp [distinct, contains]

theorem callees_eq_nil (a : String) :
    t.callees a = [] ↔ ∀ b, t.Calls a b → t.contains b = false := by
  simp only [callees, distinct_eq_nil, mem_successors, and_imp]
  refine forall₂_congr fun b _ => ?_
  cases t.contains b <;> simp

namespace WellFormed

/-- No callable stands for two IDs, so one is shown only for its own. -/
theorem shows_distinct (h : WellFormed t) {ids : List String} {id : String} :
    t.Shows (t.distinct ids) id ↔ id ∈ ids ∧ t.contains id = true := by
  constructor
  · rintro ⟨c, hc, hid⟩
    obtain ⟨other, hother, hcallable⟩ := mem_distinct.1 hc
    have heq : other = id := (h.id_eq hcallable).symm.trans (h.id_eq hid)
    exact ⟨heq ▸ hother, contains_iff.2 ⟨c, hid⟩⟩
  · rintro ⟨hmem, hknown⟩
    obtain ⟨c, hc⟩ := contains_iff.1 hknown
    exact ⟨c, mem_distinct.2 ⟨id, hmem, hc⟩, hc⟩

theorem shows_callees (h : WellFormed t) {a b : String} :
    t.Shows (t.callees a) b ↔ t.Calls a b ∧ t.contains b = true := by
  rw [callees, h.shows_distinct, mem_successors, and_assoc, and_self]

theorem shows_callers (h : WellFormed t) {a b : String} :
    t.Shows (t.callers b) a ↔ t.Calls a b ∧ t.contains a = true := by
  rw [callers, h.shows_distinct, h.mem_predecessors, and_assoc, and_self]

theorem callers_eq_nil (h : WellFormed t) (b : String) :
    t.callers b = [] ↔ ∀ a, t.Calls a b → t.contains a = false := by
  simp only [callers, distinct_eq_nil, h.mem_predecessors, and_imp]
  refine forall₂_congr fun a _ => ?_
  cases t.contains a <;> simp

end WellFormed
end CallTable

namespace Scan

/-- **Neighbours skip the ends that are not known, and only these.** On every reachable
scan, `b` is shown among the callees of `a` exactly when a call from `a` to `b` is recorded
and `b` is known, and `a` among the callers of `b` exactly when such a call is recorded and
`a` is known. So both are shown exactly when the call is recorded and both ends are known,
and one is shown without the other exactly when just one end of a recorded call is known.
The callees of an ID are empty exactly when no call from it has a known callee, the callers
when no call to it has a known caller, whether the ID itself is known or not. -/
theorem neighbours_skip_unknown_ends {s : Scan} (h : s.Reachable) (a b : String) :
    ∃ callees callers,
      (s.perform (.callees a)).1 = .callables callees ∧
      (s.perform (.callers b)).1 = .callables callers ∧
      (s.table.Shows callees b ↔ s.table.Calls a b ∧ s.table.contains b = true) ∧
      (s.table.Shows callers a ↔ s.table.Calls a b ∧ s.table.contains a = true) ∧
      (s.table.Shows callees b ∧ s.table.Shows callers a ↔
        s.table.Calls a b ∧ s.table.contains a = true ∧ s.table.contains b = true) ∧
      ((s.table.Shows callees b ↔ s.table.Shows callers a) ↔
        (s.table.Calls a b → s.table.contains a = s.table.contains b)) ∧
      (callees = [] ↔ ∀ b, s.table.Calls a b → s.table.contains b = false) ∧
      (callers = [] ↔ ∀ a, s.table.Calls a b → s.table.contains a = false) := by
  have hwf := h.wellFormed
  refine ⟨s.table.callees a, s.table.callers b, rfl, rfl, hwf.shows_callees, hwf.shows_callers,
    ?_, ?_, CallTable.callees_eq_nil a, hwf.callers_eq_nil b⟩
  · rw [hwf.shows_callees, hwf.shows_callers]
    tauto
  · have hends : s.table.contains a = s.table.contains b ↔
        (s.table.contains a = true ↔ s.table.contains b = true) := Bool.eq_iff_iff
    rw [hwf.shows_callees, hwf.shows_callers, hends]
    tauto

/-- A call between known ends, and a call from an ID that is not known. -/
def halfKnown : List Request :=
  [.addCall { caller := "ghost", callee := "b" }, .add { id := "a", name := "a" },
    .add { id := "b", name := "b" }, .addCall { caller := "a", callee := "b" }]

/-- The first call shows both ends, the second its callee only. -/
theorem neighbours_skip_unknown_ends_halfKnown :
    (new.run halfKnown).Reachable ∧
    (∃ callees callers,
      ((new.run halfKnown).perform (.callees "a")).1 = .callables callees ∧
      ((new.run halfKnown).perform (.callers "b")).1 = .callables callers ∧
      (new.run halfKnown).table.Shows callees "b" ∧ (new.run halfKnown).table.Shows callers "a") ∧
    ∃ callees callers,
      ((new.run halfKnown).perform (.callees "ghost")).1 = .callables callees ∧
      ((new.run halfKnown).perform (.callers "b")).1 = .callables callers ∧
      (new.run halfKnown).table.Shows callees "b" ∧
      ¬ (new.run halfKnown).table.Shows callers "ghost" := by
  have hreach : (new.run halfKnown).Reachable := ⟨{}, new, halfKnown, rfl, rfl⟩
  have hcalls : ∀ a ∈ ["a", "ghost"], (new.run halfKnown).table.Calls a "b" := by
    unfold CallTable.Calls
    decide +kernel
  have ha : (new.run halfKnown).table.contains "a" = true := by decide +kernel
  have hb : (new.run halfKnown).table.contains "b" = true := by decide +kernel
  have hghost : ¬ (new.run halfKnown).table.contains "ghost" = true := by decide +kernel
  obtain ⟨known, knownCallers, hk, hkc, -, -, hboth, -⟩ :=
    neighbours_skip_unknown_ends hreach "a" "b"
  obtain ⟨unknown, unknownCallers, hu, huc, hcallee, hcaller, -⟩ :=
    neighbours_skip_unknown_ends hreach "ghost" "b"
  exact ⟨hreach, ⟨known, knownCallers, hk, hkc, hboth.2 ⟨hcalls "a" (by simp), ha, hb⟩⟩,
    unknown, unknownCallers, hu, huc, hcallee.2 ⟨hcalls "ghost" (by simp), hb⟩,
    fun hshown => hghost (hcaller.1 hshown).2⟩

/-- An ID without a callable has a callee, which does not have it among its callers. -/
theorem callees_of_unknown :
    let s := new.run
      [.addCall { caller := "ghost", callee := "b" }, .add { id := "b", name := "b" }]
    s.Reachable ∧ s.table.contains "ghost" = false ∧
    (s.perform (.callees "ghost")).1 = .callables [{ id := "b", name := "b" }] ∧
    (s.perform (.callers "b")).1 = .callables [] := by
  refine ⟨⟨{}, new, _, rfl, rfl⟩, by decide +kernel, ?_, ?_⟩
  · exact congrArg Reply.callables (by decide +kernel)
  · exact congrArg Reply.callables (by decide +kernel)

end Scan
end TaintGraph
