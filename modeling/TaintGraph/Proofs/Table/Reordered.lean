/-
# Tables whose calls are in another order

The calls out of an ID are kept in the order in which they were recorded, and searches and
walks follow that order. `CallTable.Reordered` says that two tables know the same callables
and that their calls differ in nothing but the order. Such tables have the same shape, so
all that is measured by fewest hops agrees: the distances and the reachable sinks, though
not the shortest chains themselves. A walk finds the same chains, unless it is cut off, in
another order (`CallTable.Reordered.chainsToSinks`).

Lists by ID are equal as soon as they hold the same IDs (`eq_of_ordered`).

Key definitions: `CallTable.Reordered`.
Key theorems: `CallTable.Reordered.callables`, `CallTable.Reordered.sinksFrom`,
`CallTable.Reordered.chainsToSinks`, `CallTable.Reordered.withDistances`.
-/
import TaintGraph.Proofs.Table.Shape
import TaintGraph.Proofs.Table.SinkChains

namespace TaintGraph

open Std (TreeMap TreeSet)

/-- Lists in strict order with the same IDs are equal. -/
theorem eq_of_ordered {ids ids' : List String} (h : ids.Pairwise fun a b => compare a b = .lt)
    (h' : ids'.Pairwise fun a b => compare a b = .lt) (hmem : ∀ id, id ∈ ids ↔ id ∈ ids') :
    ids = ids' := by
  have hnodup : ∀ {l : List String}, (l.Pairwise fun a b => compare a b = .lt) → l.Nodup :=
    fun hl => hl.imp fun hlt heq => by simp [heq] at hlt
  refine List.Perm.eq_of_pairwise (fun a b _ _ hab hba => ?_) h h'
    ((List.perm_ext_iff_of_nodup (hnodup h) (hnodup h')).2 hmem)
  rw [Std.OrientedCmp.gt_of_lt hab] at hba
  cases hba

namespace CallTable

/-- The same callables are known, and the same calls are recorded in some order. -/
structure Reordered (t t' : CallTable) : Prop where
  callable? : t.callable? = t'.callable?
  outgoing : ∀ id, (t.outgoing id).Perm (t'.outgoing id)
  calls : t.calls = t'.calls

namespace Reordered

variable {t t' : CallTable}

theorem contains (h : t.Reordered t') : t.contains = t'.contains :=
  funext fun id => congrArg Option.isSome (congrFun h.callable? id)

theorem isSink (h : t.Reordered t') : t.isSink = t'.isSink :=
  funext fun id => congrArg (Option.any Callable.isSink) (congrFun h.callable? id)

theorem resolve (h : t.Reordered t') : t.resolve = t'.resolve :=
  funext fun ids => congrArg (fun f => ids.filterMap f) h.callable?

theorem sameShape (h : t.Reordered t') : t.SameShape t' where
  calls := fun a b => by simp only [Calls, (h.outgoing a).mem_iff]
  hasRole := fun role id => by rw [HasRole, HasRole, h.callable?]

theorem successors (h : t.Reordered t') (id : String) :
    (t.successors id).Perm (t'.successors id) := by
  rw [CallTable.successors, CallTable.successors, h.contains]
  exact ((h.outgoing id).map _).filter _

/-! ### What is counted -/

theorem live (h : t.Reordered t') (hwf : t.WellFormed) (hwf' : t'.WellFormed) :
    t.live = t'.live := by
  rw [hwf.live_eq, hwf'.live_eq]
  exact known_length_congr fun id => by rw [h.contains]

/-- The lists of the roles have the same members, so they are equally long. -/
theorem size_lists (h : t.Reordered t') (hwf : t.WellFormed) (hwf' : t'.WellFormed) :
    t.entryPoints.size = t'.entryPoints.size ∧ t.sources.size = t'.sources.size ∧
      t.sinks.size = t'.sinks.size := by
  have hlisted : ∀ role, role ≠ .regular → ∀ id, t.Listed role id ↔ t'.Listed role id := by
    intro role hrole id
    rw [hwf.listed_iff hrole, hwf'.listed_iff hrole, h.sameShape.hasRole]
  have hentries : t.entryPoints.Equiv t'.entryPoints :=
    .of_forall_mem_iff (hlisted .entryPoint (by decide))
  have hsources : t.sources.Equiv t'.sources := .of_forall_mem_iff (hlisted .source (by decide))
  have hsinks : t.sinks.Equiv t'.sinks := .of_forall_mem_iff (hlisted .sink (by decide))
  exact ⟨hentries.size_eq, hsources.size_eq, hsinks.size_eq⟩

/-! ### What is listed by ID -/

theorem callables (h : t.Reordered t') : t.callables = t'.callables := by
  have hknown : t.known = t'.known :=
    eq_of_ordered t.ordered_known t'.ordered_known fun id => by
      rw [mem_known, mem_known, h.contains]
  rw [callables_eq, callables_eq, hknown, h.callable?]

theorem sinksFrom (h : t.Reordered t') (root : String) : t.sinksFrom root = t'.sinksFrom root := by
  refine eq_of_ordered (t.ordered_sinksFrom root) (t'.ordered_sinksFrom root) fun id => ?_
  simp only [mem_sinksFrom, h.sameShape.hasRole, h.sameShape.linked]

/-! ### What is measured in hops -/

theorem distance? (h : t.Reordered t') : t.distance? = t'.distance? :=
  funext fun a => funext fun b =>
    (t.distance?_isFewest a b).unique
      ((t'.distance?_isFewest a b).congr fun n => (h.sameShape.linked n a b).symm)

theorem mapCallables (h : t.Reordered t') (f : String → Callable → Callable) :
    (t.mapCallables f).Reordered (t'.mapCallables f) where
  callable? := funext fun id => by simp [h.callable?]
  outgoing := fun id => by simpa using h.outgoing id
  calls := h.calls

/-- A pass keeps the tables reordered: it writes the same distances. -/
theorem withDistances (h : t.Reordered t') (hwf : t.WellFormed) (hwf' : t'.WellFormed)
    (d : Direction) :
    (t.withDistances d (t.reachAll d)).Reordered (t'.withDistances d (t'.reachAll d)) := by
  have hdepth := h.sameShape.reachAll_depth hwf hwf' d
  simp only [CallTable.withDistances, hdepth]
  exact h.mapCallables _

/-! ### What is walked -/

/-- A walk that is not cut off finds the same chains in another order. -/
theorem chainsToSinks (h : t.Reordered t') {k maxPaths : ℕ} (root : String)
    (hlt : (t.chainsToSinks k maxPaths root).length < maxPaths) :
    (t.chainsToSinks k maxPaths root).Perm (t'.chainsToSinks k maxPaths root) := by
  by_cases hroot : t.contains root = true
  · have hroot' : t'.contains root = true := h.contains ▸ hroot
    have hperm : (Walk.completions t.successors t.isSink k root []).Perm
        (Walk.completions t'.successors t.isSink k root []) :=
      Walk.completions_perm h.successors k root []
    have hall := chainsToSinks_eq_completions hroot hlt
    rw [hall] at hlt ⊢
    rw [chainsToSinks_eq t' k maxPaths hroot', ← h.isSink, List.take_of_length_le]
    · exact hperm
    · rw [← hperm.length_eq]
      exact hlt.le
  · have hroot' : ¬ t'.contains root = true := h.contains ▸ hroot
    rw [CallTable.chainsToSinks, CallTable.chainsToSinks, if_neg hroot, if_neg hroot']

end Reordered
end CallTable
end TaintGraph
