/-
# Tables with the same wiring

The wiring of a table is which IDs are named, which are known, and which calls stand
with each, in which order. What a callable says does not belong to it: its name, its
role, the distances written by a pass. A search follows calls between known IDs, so
tables with the same wiring give the same searches, the same shortest chains and the
same distances. Which callable arrives does not matter to the wiring, only its ID; one
that replaces another changes nothing.

Key definitions: `CallTable.SameWiring`.
Key theorems: `CallTable.SameWiring.reach`, `CallTable.SameWiring.insert`,
`CallTable.SameWiring.insert_known`.
-/
import TaintGraph.CallTable.Chains
import TaintGraph.Proofs.Table.View

namespace TaintGraph

open Std (TreeMap)

namespace CallTable

/-- The same IDs are named and known, and the same calls stand with each, in the same
order. -/
structure SameWiring (t t' : CallTable) : Prop where
  named : ∀ id, id ∈ t.rows ↔ id ∈ t'.rows
  contains : t.contains = t'.contains
  outgoing : t.outgoing = t'.outgoing
  incoming : t.incoming = t'.incoming

namespace SameWiring

variable {t t' t'' : CallTable}

theorem refl (t : CallTable) : t.SameWiring t :=
  ⟨fun _ => Iff.rfl, rfl, rfl, rfl⟩

theorem symm (h : t.SameWiring t') : t'.SameWiring t :=
  ⟨fun id => (h.named id).symm, h.contains.symm, h.outgoing.symm, h.incoming.symm⟩

theorem trans (h : t.SameWiring t') (h' : t'.SameWiring t'') : t.SameWiring t'' :=
  ⟨fun id => (h.named id).trans (h'.named id), h.contains.trans h'.contains,
    h.outgoing.trans h'.outgoing, h.incoming.trans h'.incoming⟩

/-! ### Searches follow the wiring -/

theorem size_rows (h : t.SameWiring t') : t.rows.size = t'.rows.size := by
  have hperm : t.rows.keys.Perm t'.rows.keys := by
    refine (List.perm_ext_iff_of_nodup TreeMap.nodup_keys TreeMap.nodup_keys).2 fun id => ?_
    rw [TreeMap.mem_keys, TreeMap.mem_keys, h.named]
  rw [← TreeMap.length_keys, ← TreeMap.length_keys, hperm.length_eq]

theorem successors (h : t.SameWiring t') : t.successors = t'.successors :=
  funext fun id => by rw [CallTable.successors, CallTable.successors, h.outgoing, h.contains]

theorem predecessors (h : t.SameWiring t') : t.predecessors = t'.predecessors :=
  funext fun id => by rw [CallTable.predecessors, CallTable.predecessors, h.incoming, h.contains]

theorem reach (h : t.SameWiring t') : t.reach = t'.reach :=
  funext fun next => funext fun seeds => by
    rw [CallTable.reach, CallTable.reach, h.size_rows, h.contains]

theorem further (h : t.SameWiring t') (d : Direction) : t.further d = t'.further d := by
  cases d with
  | fromEntry => exact h.successors
  | toSink => exact h.predecessors

theorem reachFrom (h : t.SameWiring t') : t.reachFrom = t'.reachFrom :=
  funext fun source => by rw [CallTable.reachFrom, CallTable.reachFrom, h.reach, h.successors]

theorem shortestChain? (h : t.SameWiring t') : t.shortestChain? = t'.shortestChain? :=
  funext fun source => funext fun target => by
    rw [CallTable.shortestChain?, CallTable.shortestChain?, h.reachFrom]

theorem distance? (h : t.SameWiring t') : t.distance? = t'.distance? :=
  funext fun source => funext fun target => by
    rw [CallTable.distance?, CallTable.distance?, h.shortestChain?]

/-! ### What keeps the wiring -/

/-- Callables with one ID arrive alike. -/
theorem insert (h : t.SameWiring t') {c c' : Callable} (hid : c.id = c'.id) :
    (t.insert c).SameWiring (t'.insert c') where
  named := fun id => by simp [hid, h.named]
  contains := funext fun id => Bool.eq_iff_iff.2 (by simp [hid, h.contains])
  outgoing := funext fun id => by simp [h.outgoing]
  incoming := funext fun id => by simp [h.incoming]

/-- A callable that replaces another leaves the wiring as it is. -/
theorem insert_known {c : Callable} (hc : t.contains c.id = true) :
    (t.insert c).SameWiring t where
  named := fun id => by
    rw [mem_rows_insert]
    exact ⟨fun hor => hor.elim (fun he => he ▸ mem_rows_of_contains hc) fun hid => hid, Or.inr⟩
  contains := funext fun id => Bool.eq_iff_iff.2 (by
    rw [contains_insert]
    exact ⟨fun hor => hor.elim (fun he => he ▸ hc) fun hid => hid, Or.inr⟩)
  outgoing := funext fun id => by simp
  incoming := funext fun id => by simp

theorem record (h : t.SameWiring t') (c : Call) : (t.record c).SameWiring (t'.record c) where
  named := fun id => by simp [h.named]
  contains := funext fun id => by simp [h.contains]
  outgoing := funext fun id => by simp [h.outgoing]
  incoming := funext fun id => by simp [h.incoming]

theorem mapCallables (t : CallTable) (f : String → Callable → Callable) :
    (t.mapCallables f).SameWiring t where
  named := fun id => by simp
  contains := funext fun id => by simp
  outgoing := funext fun id => by simp
  incoming := funext fun id => by simp

end SameWiring
end CallTable

end TaintGraph
