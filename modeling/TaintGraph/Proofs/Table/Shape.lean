/-
# Distances depend on the shape of a table

The shape of a table is which IDs call each other and which role each ID has, if
it has one. Names, lines, the order of the calls and how often they are repeated
do not belong to it, nor do the distances written by earlier passes. Live chains
are chains of the shape, so two tables of one shape have the same fewest hops, and
passes give their callables the same distances (`Scan.distances_of_sameShape`).

Key definitions: `CallTable.SameShape`.
Key theorems: `CallTable.SameShape.linked`, `Scan.distances_of_sameShape`.
-/
import TaintGraph.Proofs.Scan.Growth
import TaintGraph.Proofs.Scan.Passes

namespace TaintGraph

open Std (TreeMap)

namespace CallTable

/-- The same IDs call each other and have the same roles. -/
structure SameShape (t t' : CallTable) : Prop where
  calls : ∀ a b, t.Calls a b ↔ t'.Calls a b
  hasRole : ∀ role id, t.HasRole role id ↔ t'.HasRole role id

variable {t t' : CallTable}

theorem contains_iff_hasRole {id : String} : t.contains id = true ↔ ∃ role, t.HasRole role id := by
  rw [contains_iff]
  constructor
  · intro hknown
    obtain ⟨c, hc⟩ := hknown
    exact ⟨c.role, c, hc, rfl⟩
  · intro hrole
    obtain ⟨role, c, hc, -⟩ := hrole
    exact ⟨c, hc⟩

namespace SameShape

theorem symm (h : t.SameShape t') : t'.SameShape t :=
  ⟨fun a b => (h.calls a b).symm, fun role id => (h.hasRole role id).symm⟩

theorem trans {t'' : CallTable} (h : t.SameShape t') (h' : t'.SameShape t'') : t.SameShape t'' :=
  ⟨fun a b => (h.calls a b).trans (h'.calls a b),
    fun role id => (h.hasRole role id).trans (h'.hasRole role id)⟩

theorem contains (h : t.SameShape t') (id : String) :
    t.contains id = true ↔ t'.contains id = true := by
  simp only [contains_iff_hasRole, h.hasRole]

theorem role_eq (h : t.SameShape t') (id : String) :
    (t.callable? id).map Callable.role = (t'.callable? id).map Callable.role := by
  refine Option.ext fun role => ?_
  rw [Option.map_eq_some_iff, Option.map_eq_some_iff]
  exact h.hasRole role id

theorem grows (h : t.SameShape t') : t.Grows t' :=
  ⟨fun id => (h.contains id).1, fun a b => (h.calls a b).1⟩

theorem linked (h : t.SameShape t') (n : ℕ) (a b : String) : t.Linked n a b ↔ t'.Linked n a b :=
  ⟨h.grows.linked, h.symm.grows.linked⟩

/-- Changing callables without changing their roles keeps the shape. -/
theorem mapCallables (t : CallTable) {f : String → Callable → Callable}
    (hrole : ∀ id c, (f id c).role = c.role) : t.SameShape (t.mapCallables f) where
  calls := fun a b => by simp [Calls]
  hasRole := fun role id => by simp [HasRole, hrole]

/-- Measuring keeps the shape. -/
theorem withDistances (t : CallTable) (d : Direction) (s : Search) :
    t.SameShape (t.withDistances d s) :=
  mapCallables t fun _ _ => Callable.setHops_role _ _ _

theorem away (h : t.SameShape t') (d : Direction) (n : ℕ) (seed id : String) :
    t.Away d n seed id ↔ t'.Away d n seed id := by
  cases d with
  | fromEntry => exact h.linked n seed id
  | toSink => exact h.linked n id seed

theorem reachAll_depth (h : t.SameShape t') (hwf : t.WellFormed) (hwf' : t'.WellFormed)
    (d : Direction) (id : String) :
    ((t.reachAll d).visits[id]?).map Visit.depth =
      ((t'.reachAll d).visits[id]?).map Visit.depth := by
  refine IsFewest.unique (hwf.reachAll_isFewest d id)
    ((hwf'.reachAll_isFewest d id).congr fun n => ?_)
  simp only [h.hasRole, h.away]

end SameShape
end CallTable

namespace Scan

theorem run_passes_table (s : Scan) :
    (s.run [.entryPass, .sinkPass]).table =
      (s.table.withDistances .fromEntry (s.table.reachAll .fromEntry)).withDistances .toSink
        ((s.table.withDistances .fromEntry (s.table.reachAll .fromEntry)).reachAll .toSink) :=
  congrArg Core.table (run_core s [.entryPass, .sinkPass])

/-- Passes keep the shape. -/
theorem sameShape_passes (s : Scan) : s.table.SameShape (s.run [.entryPass, .sinkPass]).table := by
  rw [run_passes_table]
  exact (CallTable.SameShape.withDistances _ _ _).trans (CallTable.SameShape.withDistances _ _ _)

/-- Both passes write what the searches over the table before them find. -/
theorem callable?_passes (s : Scan) (hwf : s.table.WellFormed) (id : String) :
    (s.run [.entryPass, .sinkPass]).table.callable? id =
      (s.table.callable? id).map fun c =>
        { c with
          fromEntry := ((s.table.reachAll .fromEntry).visits[id]?).map Visit.depth
          toSink := ((s.table.reachAll .toSink).visits[id]?).map Visit.depth } := by
  -- The second pass searches a table of the same shape as the first.
  have hmid := CallTable.SameShape.withDistances s.table .fromEntry (s.table.reachAll .fromEntry)
  have hwf' := hwf.withDistances .fromEntry (s.table.reachAll .fromEntry)
  rw [run_passes_table, CallTable.callable?_withDistances, ← hmid.reachAll_depth hwf hwf',
    CallTable.callable?_withDistances, Option.map_map]
  rfl

/-- What both passes leave in a callable is the fewest hops. -/
theorem isFewest_of_passes {s : Scan} (hwf : s.table.WellFormed) {id : String} {c : Callable}
    (hc : (s.run [.entryPass, .sinkPass]).table.callable? id = some c) :
    IsFewest (fun n => ∃ a, s.table.HasRole .entryPoint a ∧ s.table.Linked n a id) c.fromEntry ∧
      IsFewest (fun n => ∃ b, s.table.HasRole .sink b ∧ s.table.Linked n id b) c.toSink := by
  rw [callable?_passes s hwf] at hc
  obtain ⟨old, -, rfl⟩ := Option.map_eq_some_iff.1 hc
  exact ⟨hwf.reachAll_isFewest .fromEntry id, hwf.reachAll_isFewest .toSink id⟩

/-- **Passes see the shape only.** Scans of one shape have the same distances after
both passes. -/
theorem distances_of_sameShape {s s' : Scan} (h : s.table.SameShape s'.table)
    (hwf : s.table.WellFormed) (hwf' : s'.table.WellFormed) (id : String) :
    ((s.run [.entryPass, .sinkPass]).table.callable? id).map
        (fun c => (c.fromEntry, c.toSink)) =
      ((s'.run [.entryPass, .sinkPass]).table.callable? id).map
        fun c => (c.fromEntry, c.toSink) := by
  rw [callable?_passes s hwf, callable?_passes s' hwf', Option.map_map, Option.map_map,
    h.reachAll_depth hwf hwf', h.reachAll_depth hwf hwf']
  have hknown := h.contains id
  simp only [CallTable.contains] at hknown
  cases hc : s.table.callable? id <;> cases hc' : s'.table.callable? id <;> simp_all

end Scan
end TaintGraph
