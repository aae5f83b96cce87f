/-
# Zero hops mark the role

An entry point is no hop away from an entry point and a sink no hop away from a
sink, and nothing else is: a callable with another role is reached by a call or not
at all. So the two distances of a callable say what its role is, and they say so at
every moment. A callable that arrives or replaces another one brings the distances
of its own role (`Callable.reset_marked`), whatever it was given with. A pass gives
zero hops to the seeds of its search and to no other ID
(`CallTable.WellFormed.reachAll_eq_zero_iff`), also to a seed that is called from
another seed.

Key definitions: `Callable.Marked`, `CallTable.Marked`.
Key theorems: `CallTable.Marked.edit`, `Scan.zero_hops_mark_roles`.
-/
import TaintGraph.Proofs.Table.Shape

namespace TaintGraph

/-- The callable has a distance of zero just where its role says so. -/
def Callable.Marked (c : Callable) : Prop :=
  ∀ d : Direction, c.hops d = some 0 ↔ c.role = d.role

/-- The distances of a role alone mark it. -/
theorem Callable.reset_marked (c : Callable) : c.reset.Marked := by
  intro d
  rw [hops_reset, reset_role]
  split_ifs with h <;> simp [h]

namespace CallTable

/-- Every callable of the table is marked. -/
def Marked (t : CallTable) : Prop :=
  ∀ id c, t.callable? id = some c → c.Marked

variable {t : CallTable} {id : String} {c : Callable}

/-! ### What a search gives the depth zero -/

/-- The search in a direction is at depth zero at the callables of its role only. -/
theorem WellFormed.reachAll_eq_zero_iff (h : t.WellFormed) (d : Direction) (id : String) :
    ((t.reachAll d).visits[id]?).map Visit.depth = some 0 ↔ t.HasRole d.role id := by
  rw [(h.reachAll_isFewest d id).eq_zero_iff]
  constructor
  · rintro ⟨seed, hseed, haway⟩
    obtain ⟨rfl, -⟩ := (h.counts d).zero.1 haway
    exact hseed
  · intro hid
    exact ⟨id, hid, (h.counts d).zero.2 ⟨rfl, contains_iff_hasRole.2 ⟨_, hid⟩⟩⟩

theorem hasRole_iff_of_some (hc : t.callable? id = some c) {role : Role} :
    t.HasRole role id ↔ c.role = role := by
  simp [HasRole, hc]

/-! ### What an edit keeps -/

namespace Marked

theorem empty : Marked {} := by
  intro id c hc
  simp [callable?, row] at hc

theorem insert (h : t.Marked) (c : Callable) : (t.insert c).Marked := by
  intro id d hd
  rw [callable?_insert] at hd
  split_ifs at hd with hid
  · cases hd
    exact c.reset_marked
  · exact h id d hd

theorem record (h : t.Marked) (c : Call) : (t.record c).Marked := by
  intro id d hd
  exact h id d (by simpa using hd)

theorem withDistances (h : t.Marked) (hwf : t.WellFormed) (d : Direction) :
    (t.withDistances d (t.reachAll d)).Marked := by
  intro id new hnew d'
  rw [callable?_withDistances] at hnew
  obtain ⟨c, hc, rfl⟩ := Option.map_eq_some_iff.1 hnew
  rw [Callable.hops_setHops, Callable.setHops_role]
  split_ifs with hd
  · rw [← hd]
    exact (hwf.reachAll_eq_zero_iff d id).trans (hasRole_iff_of_some hc)
  · -- The pass leaves the other distance alone, and that was marked before.
    exact h id c hc d'

theorem enter (h : t.Marked) (e : Entry) : (e.enter t).Marked := by
  cases e with
  | add c => exact h.insert c
  | offer c =>
    rw [Entry.enter]
    split_ifs
    · exact h
    · exact h.insert c
  | call c => exact h.record c

theorem edit (h : t.Marked) (hwf : t.WellFormed) (e : Edit) : (e.table t).Marked := by
  cases e with
  | enter e => exact h.enter e
  | measure d => exact h.withDistances hwf d
  | ask source target => exact h

end Marked
end CallTable

namespace Scan

theorem Reachable.marked {s : Scan} (h : s.Reachable) : s.table.Marked := by
  have hboth : s.table.WellFormed ∧ s.table.Marked :=
    h.induction (P := fun k => k.table.WellFormed ∧ k.table.Marked)
      (fun _ _ => ⟨.empty, .empty⟩)
      fun _ e hk => ⟨hk.1.edit e, hk.2.edit hk.1 e⟩
  exact hboth.2

/-- **Zero hops mark the role.** In every reachable scan a callable is zero hops from
the entry points if and only if it is an entry point, and zero hops from the sinks if
and only if it is a sink. -/
theorem zero_hops_mark_roles {s : Scan} (h : s.Reachable) {id : String} {c : Callable}
    (hc : s.table.callable? id = some c) :
    (c.fromEntry = some 0 ↔ c.role = .entryPoint) ∧ (c.toSink = some 0 ↔ c.role = .sink) :=
  ⟨h.marked id c hc .fromEntry, h.marked id c hc .toSink⟩

/-- Two entry points that call each other, one given with distances it does not have;
after both passes the other one becomes a sink. -/
def crossed : List Request :=
  [.add { id := "web", name := "web", role := .entryPoint, fromEntry := some 7, toSink := some 0 },
    .add { id := "hook", name := "hook", role := .entryPoint },
    .add { id := "exec", name := "exec", role := .sink },
    .addCall { caller := "web", callee := "hook" },
    .addCall { caller := "hook", callee := "web" },
    .addCall { caller := "hook", callee := "exec" }, .entryPass, .sinkPass,
    .add { id := "hook", name := "hook", role := .sink, fromEntry := some 0 }]

/-- The first is zero hops from an entry point and two from a sink, the other zero hops
from a sink and not from an entry point any more. -/
theorem zero_hops_mark_roles_crossed :
    (new.run crossed).Reachable ∧
    (∃ c, (new.run crossed).table.callable? "web" = some c ∧ c.role = .entryPoint ∧
      c.fromEntry = some 0 ∧ c.toSink = some 2) ∧
    ∃ c, (new.run crossed).table.callable? "hook" = some c ∧ c.role = .sink ∧
      c.toSink = some 0 ∧ c.fromEntry ≠ some 0 := by
  have hreach : (new.run crossed).Reachable := ⟨{}, new, crossed, rfl, rfl⟩
  have hmain : (new.run crossed).table.callable? "web" = some
      { id := "web", name := "web", role := .entryPoint, fromEntry := some 0, toSink := some 2 } :=
    by decide +kernel
  have hhook : (new.run crossed).table.callable? "hook" = some
      { id := "hook", name := "hook", role := .sink, toSink := some 0 } :=
    by decide +kernel
  obtain ⟨hentry, -⟩ := zero_hops_mark_roles hreach hmain
  obtain ⟨hentry', hsink'⟩ := zero_hops_mark_roles hreach hhook
  refine ⟨hreach, ⟨_, hmain, rfl, hentry.2 rfl, rfl⟩, _, hhook, rfl, hsink'.2 rfl, fun h => ?_⟩
  cases hentry'.1 h

end Scan
end TaintGraph
