/-
# Tables that are built differently

Two tables may hold the same rows, lists and counts in trees of different shape,
since trees remember the order in which they were filled. `CallTable.Alike` says
that nothing but that differs. No question can tell such tables apart, and no
operation takes them apart; their wiring is the same (`CallTable.Alike.wiring`).

Tables with the same views are alike, provided that their redundant parts are in
step and that rows are kept for named IDs only (`CallTable.Alike.of_views`).

Key definitions: `CallTable.Alike`, `CallTable.Trim`.
Key theorems: `CallTable.Alike.wiring`, `CallTable.Alike.insert`,
`CallTable.Alike.record`, `CallTable.Alike.of_views`.
-/
import TaintGraph.Proofs.Table.WellFormed
import TaintGraph.Proofs.Table.Wiring

namespace TaintGraph

open Std (TreeMap TreeSet)

namespace CallTable

/-- The tables hold the same, in trees that may be built differently. -/
structure Alike (t t' : CallTable) : Prop where
  rows : t.rows.Equiv t'.rows
  live : t.live = t'.live
  calls : t.calls = t'.calls
  entryPoints : t.entryPoints.Equiv t'.entryPoints
  sources : t.sources.Equiv t'.sources
  sinks : t.sinks.Equiv t'.sinks

/-- Rows are kept for those IDs only that a callable or a call names. How many there are
matters: it bounds the levels of a search. -/
def Trim (t : CallTable) : Prop :=
  ∀ id, id ∈ t.rows ↔ t.contains id = true ∨ t.outgoing id ≠ [] ∨ t.incoming id ≠ []

variable {t t' : CallTable}

theorem getElem?_rows {id : String} (h : id ∈ t.rows) : t.rows[id]? = some (t.row id) :=
  TreeMap.getElem?_eq_some_getD h

theorem Trim.empty : Trim {} := fun id => by
  simp [contains, callable?, outgoing, incoming, row]

theorem Trim.insert (h : t.Trim) (c : Callable) : (t.insert c).Trim := fun id => by
  simp [h id, or_assoc]

theorem Trim.record (h : t.Trim) (c : Call) : (t.record c).Trim := fun id => by
  by_cases hin : c.callee = id <;> by_cases hout : c.caller = id <;> simp [h id, hin, hout]

theorem Trim.enter (h : t.Trim) (e : Entry) : (e.enter t).Trim := by
  cases e with
  | add c => exact h.insert c
  | call c => exact h.record c
  | offer c =>
    rw [Entry.enter]
    split_ifs
    · exact h
    · exact h.insert c

namespace Alike

/-! ### Questions do not tell alike tables apart -/

theorem row (h : t.Alike t') (id : String) : t.row id = t'.row id :=
  h.rows.getD_eq

theorem callable? (h : t.Alike t') : t.callable? = t'.callable? :=
  funext fun id => congrArg Row.callable (h.row id)

theorem isSink (h : t.Alike t') : t.isSink = t'.isSink :=
  funext fun id => congrArg (Option.any Callable.isSink) (congrFun h.callable? id)

theorem wiring (h : t.Alike t') : t.SameWiring t' where
  named := fun _ => h.rows.mem_iff
  contains := funext fun id => congrArg Option.isSome (congrFun h.callable? id)
  outgoing := funext fun id => congrArg (fun r => r.outgoing.toList) (h.row id)
  incoming := funext fun id => congrArg (fun r => r.incoming.toList) (h.row id)

theorem callables (h : t.Alike t') : t.callables = t'.callables :=
  congrArg (List.filterMap Row.callable) h.rows.values_eq

theorem resolve (h : t.Alike t') : t.resolve = t'.resolve :=
  funext fun ids => congrArg (fun f => ids.filterMap f) h.callable?

theorem distinct (h : t.Alike t') : t.distinct = t'.distinct :=
  funext fun ids => congrArg (fun f => ids.eraseDups.filterMap f) h.callable?

theorem listed (h : t.Alike t') {ids ids' : TreeSet String} (hids : ids.Equiv ids') :
    t.listed ids = t'.listed ids' := by
  rw [CallTable.listed, CallTable.listed, hids.toList_eq, h.callable?]

theorem seeds (h : t.Alike t') (d : Direction) : (t.seeds d).Equiv (t'.seeds d) := by
  cases d with
  | fromEntry => exact h.entryPoints
  | toSink => exact h.sinks

theorem reachAll (h : t.Alike t') (d : Direction) : t.reachAll d = t'.reachAll d := by
  rw [CallTable.reachAll, CallTable.reachAll, h.wiring.reach, h.wiring.further,
    (h.seeds d).toList_eq]

theorem sinksFrom (h : t.Alike t') : t.sinksFrom = t'.sinksFrom :=
  funext fun source => by
    rw [CallTable.sinksFrom, CallTable.sinksFrom, h.wiring.reachFrom, h.isSink]

theorem chainsToSinks (h : t.Alike t') : t.chainsToSinks = t'.chainsToSinks :=
  funext fun maxDepth => funext fun maxPaths => funext fun source => by
    rw [CallTable.chainsToSinks, CallTable.chainsToSinks, h.wiring.contains, h.wiring.successors,
      h.isSink]

/-! ### Operations keep tables alike -/

theorem enlist (h : t.Alike t') (role : Role) (id : String) :
    (t.enlist role id).Alike (t'.enlist role id) := by
  cases role with
  | regular => exact h
  | entryPoint => exact { h with entryPoints := h.entryPoints.insert id }
  | source => exact { h with sources := h.sources.insert id }
  | sink => exact { h with sinks := h.sinks.insert id }

theorem delist (h : t.Alike t') (role : Role) (id : String) :
    (t.delist role id).Alike (t'.delist role id) := by
  cases role with
  | regular => exact h
  | entryPoint => exact { h with entryPoints := h.entryPoints.erase id }
  | source => exact { h with sources := h.sources.erase id }
  | sink => exact { h with sinks := h.sinks.erase id }

theorem makeRoom (h : t.Alike t') (c : Callable) : (t.makeRoom c).Alike (t'.makeRoom c) := by
  unfold CallTable.makeRoom
  rw [← h.callable?]
  cases t.callable? c.id with
  | none => exact { h with live := congrArg (· + 1) h.live }
  | some old =>
    simp only
    split_ifs
    · exact h
    · exact h.delist old.role c.id

theorem insert (h : t.Alike t') (c : Callable) : (t.insert c).Alike (t'.insert c) := by
  have hroom := (h.makeRoom c).enlist c.role c.id
  refine { hroom with rows := ?_ }
  simp only [CallTable.insert, h.row]
  exact hroom.rows.insert _ _

theorem record (h : t.Alike t') (c : Call) : (t.record c).Alike (t'.record c) :=
  { h with
    rows := (h.rows.alter _ _).alter _ _
    calls := congrArg (· + 1) h.calls }

theorem mapCallables (h : t.Alike t') (f : String → Callable → Callable) :
    (t.mapCallables f).Alike (t'.mapCallables f) :=
  { h with rows := h.rows.map _ }

/-! ### Tables with the same views -/

/-- Trim tables whose redundant parts are in step are alike when the same callables
and calls are seen. -/
theorem of_views (ht : t.Trim) (ht' : t'.Trim) (hwf : t.WellFormed) (hwf' : t'.WellFormed)
    (hcallable : ∀ id, t.callable? id = t'.callable? id)
    (hout : ∀ id, t.outgoing id = t'.outgoing id) (hin : ∀ id, t.incoming id = t'.incoming id)
    (hcalls : t.calls = t'.calls) : t.Alike t' := by
  have hcontains : ∀ id, t.contains id = t'.contains id := fun id =>
    congrArg Option.isSome (hcallable id)
  have hrow : ∀ id, t.row id = t'.row id := by
    intro id
    have h₁ : (t.row id).callable = (t'.row id).callable := hcallable id
    have h₂ : (t.row id).outgoing = (t'.row id).outgoing := Array.toList_inj.1 (hout id)
    have h₃ : (t.row id).incoming = (t'.row id).incoming := Array.toList_inj.1 (hin id)
    cases hr : t.row id
    cases hr' : t'.row id
    simp_all
  have hmem : ∀ id, id ∈ t.rows ↔ id ∈ t'.rows := fun id => by
    rw [ht id, ht' id, hcontains, hout, hin]
  have hlisted : ∀ role, role ≠ .regular → ∀ id, t.Listed role id ↔ t'.Listed role id := by
    intro role hrole id
    rw [hwf.listed_iff hrole, hwf'.listed_iff hrole, HasRole, HasRole, hcallable]
  refine ⟨TreeMap.Equiv.of_forall_constGet?_eq fun id => ?_, ?_, hcalls,
    TreeSet.Equiv.of_forall_mem_iff (hlisted .entryPoint (by decide)),
    TreeSet.Equiv.of_forall_mem_iff (hlisted .source (by decide)),
    TreeSet.Equiv.of_forall_mem_iff (hlisted .sink (by decide))⟩
  · by_cases hid : id ∈ t.rows
    · rw [getElem?_rows hid, getElem?_rows ((hmem id).1 hid), hrow]
    · rw [TreeMap.getElem?_eq_none hid, TreeMap.getElem?_eq_none (mt (hmem id).2 hid)]
  · rw [hwf.live_eq, hwf'.live_eq]
    exact known_length_congr fun id => by rw [hcontains]

end Alike
end CallTable

end TaintGraph
