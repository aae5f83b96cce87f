/-
# The lists of the roles are exact

A table keeps the IDs of its entry points, sources and sinks on lists of their own
and counts its callables. All of this is changed bit by bit: when a callable
arrives, when one replaces another of a different role, when a row that only calls
have named is filled. On every reachable scan the lists hold the IDs of the
callables that have the role now and no others, so what is listed and counted is
what is there (`Scan.role_lists_exact`).

Key definitions: `CallTable.Collects`, `Scan.ListsExactly`.
Key theorems: `CallTable.Collects.mem_listed`,
`CallTable.Collects.map_id_listed`, `Scan.role_lists_exact`.
-/
import TaintGraph.Proofs.Table.WellFormed

namespace TaintGraph

open Std (TreeSet)

namespace CallTable

/-- The set holds the IDs of the callables with the role, and no others. -/
def Collects (t : CallTable) (role : Role) (ids : TreeSet String) : Prop :=
  ∀ id, id ∈ ids ↔ t.HasRole role id

variable {t : CallTable} {role : Role} {ids : TreeSet String}

theorem WellFormed.collects (h : t.WellFormed) (hrole : role ≠ .regular)
    (hids : ∀ id, id ∈ ids ↔ t.Listed role id) : t.Collects role ids :=
  fun id => (hids id).trans (h.listed_iff hrole)

namespace Collects

theorem mem_listed (h : t.Collects role ids) (hwf : t.WellFormed) (c : Callable) :
    c ∈ t.listed ids ↔ t.callable? c.id = some c ∧ c.role = role := by
  rw [listed, List.mem_filterMap]
  simp only [TreeSet.mem_toList, h _, HasRole]
  constructor
  · intro hlisted
    obtain ⟨id, ⟨d, hd, hrole⟩, hc⟩ := hlisted
    obtain rfl : d = c := Option.some.inj (hd.symm.trans hc)
    rw [hwf.id_eq hd]
    exact ⟨hd, hrole⟩
  · intro hheld
    obtain ⟨hc, hrole⟩ := hheld
    exact ⟨c.id, ⟨c, hc, hrole⟩, hc⟩

/-- The callables of a list are those of its IDs, one for each. -/
theorem map_id_listed (h : t.Collects role ids) (hwf : t.WellFormed) :
    (t.listed ids).map Callable.id = ids.toList := by
  rw [listed, List.map_filterMap]
  have hid : ∀ id ∈ ids.toList, (t.callable? id).map Callable.id = some id := by
    intro id hid
    obtain ⟨c, hc, -⟩ := (h id).1 (TreeSet.mem_toList.1 hid)
    rw [hc, Option.map_some, hwf.id_eq hc]
  rw [List.filterMap_congr hid, List.filterMap_some]

theorem length_listed (h : t.Collects role ids) (hwf : t.WellFormed) :
    (t.listed ids).length = ids.size := by
  rw [← List.length_map (f := Callable.id), h.map_id_listed hwf, TreeSet.length_toList]

end Collects

/-- A callable counts once, in the row of its ID. -/
theorem known_length_eq (t : CallTable) :
    t.known.length = t.rows.values.countP fun r => r.callable.isSome := by
  have hcallables : t.callables.length = t.known.length := by
    rw [callables_eq, List.length_filterMap_eq_countP, List.countP_eq_length]
    exact fun id hid => mem_known.1 hid
  rw [← hcallables, callables, List.length_filterMap_eq_countP]

end CallTable

namespace Scan

/-- The request lists exactly the callables with the role, by ID, and the count is
their number. -/
def ListsExactly (s : Scan) (r : Request) (role : Role) (count : ℕ) : Prop :=
  ∃ cs, (s.perform r).1 = .callables cs ∧ cs.Pairwise (fun a b => a.id < b.id) ∧
    (∀ c, c ∈ cs ↔ s.table.callable? c.id = some c ∧ c.role = role) ∧ count = cs.length

theorem listsExactly_of_listed {s : Scan} (hwf : s.table.WellFormed) {r : Request} {role : Role}
    {ids : TreeSet String} (hrole : role ≠ .regular)
    (hids : ∀ id, id ∈ ids ↔ s.table.Listed role id)
    (hr : (s.perform r).1 = .callables (s.table.listed ids)) : s.ListsExactly r role ids.size := by
  have h := hwf.collects hrole hids
  exact ⟨_, hr, hwf.sorted_resolve TreeSet.ordered_toList, h.mem_listed hwf, (h.length_listed hwf).symm⟩

/-- **The lists of the roles are exact.** On a reachable scan the list of a role
holds the IDs whose callable has that role now, so no ID is on two lists; a callable
stands in the row of its own ID and in no other, and filling that row changes no
other; the count of callables is that of the filled rows. Hence entry points, sources
and sinks are listed without loss or repetition in the order of their IDs, and the
census counts them. -/
theorem role_lists_exact {s : Scan} (h : s.Reachable) :
    (∀ role id, role ≠ .regular → (s.table.Listed role id ↔ s.table.HasRole role id)) ∧
    (∀ role role' id, s.table.Listed role id → s.table.Listed role' id → role = role') ∧
    (∀ (id : String) (r : Row) (c : Callable),
      s.table.rows[id]? = some r → r.callable = some c → c.id = id) ∧
    (∀ c id, id ≠ c.id → (s.perform (.add c)).2.table.row id = s.table.row id) ∧
    s.table.live = s.table.rows.values.countP (fun r => r.callable.isSome) ∧
    s.ListsExactly .entryPoints .entryPoint s.census.entryPoints ∧
    s.ListsExactly .sources .source s.census.sources ∧
    s.ListsExactly .sinks .sink s.census.sinks := by
  have hwf := h.wellFormed
  refine ⟨fun role id hrole => hwf.listed_iff hrole, fun role role' id hrole hrole' => ?_,
    fun id r c hr hc => ?_, fun c id hid => ?_, ?_,
    listsExactly_of_listed hwf (by decide) (fun _ => Iff.rfl) rfl,
    listsExactly_of_listed hwf (by decide) (fun _ => Iff.rfl) rfl,
    listsExactly_of_listed hwf (by decide) (fun _ => Iff.rfl) rfl⟩
  · have hreg : ∀ {r : Role}, s.table.Listed r id → r ≠ .regular := by
      intro r hr he
      rw [he] at hr
      exact hr
    obtain ⟨c, hc, rfl⟩ := (hwf.listed_iff (hreg hrole)).1 hrole
    obtain ⟨d, hd, rfl⟩ := (hwf.listed_iff (hreg hrole')).1 hrole'
    rw [Option.some.inj (hc.symm.trans hd)]
  · apply hwf.id_eq
    rw [CallTable.callable?, CallTable.row_eq, hr]
    exact hc
  · have htable : (s.perform (.add c)).2.table = s.table.insert c :=
      congrArg Core.table (perform_core s (.add c))
    rw [htable, CallTable.row_insert, if_neg (Ne.symm hid)]
  · rw [hwf.live_eq, CallTable.known_length_eq]

/-- One ID takes every role in turn, first as the end of a call only, and ends as a
sink; others stay what they are. -/
def changing : List Request :=
  [.addCall { caller := "b", callee := "x" }, .add { id := "x", name := "x", role := .entryPoint },
    .add { id := "b", name := "b", role := .source }, .entryPass,
    .add { id := "x", name := "x", role := .source }, .add { id := "x", name := "x" },
    .addIfAbsent { id := "x", name := "y", role := .source },
    .add { id := "a", name := "a", role := .sink },
    .add { id := "x", name := "x", role := .sink }, .distance "b" "x"]

/-- The lists follow: one source and two sinks are left, by ID, and no entry point. -/
theorem role_lists_exact_changing :
    (new.run changing).Reachable ∧
    ((new.run changing).perform .entryPoints).1 = .callables [] ∧
    ((new.run changing).perform .sinks).1 =
      .callables [{ id := "a", name := "a", role := .sink, toSink := some 0 },
        { id := "x", name := "x", role := .sink, toSink := some 0 }] ∧
    (new.run changing).census.sources = 1 ∧ (new.run changing).census.sinks = 2 ∧
    (new.run changing).table.HasRole .sink "x" := by
  have hreach : (new.run changing).Reachable := ⟨{}, new, changing, rfl, rfl⟩
  obtain ⟨hlisted, -⟩ := role_lists_exact hreach
  refine ⟨hreach, congrArg Reply.callables (by decide +kernel),
    congrArg Reply.callables (by decide +kernel), by decide +kernel, by decide +kernel, ?_⟩
  refine (hlisted .sink "x" (by decide)).1 ?_
  have hmem : "x" ∈ (new.run changing).table.sinks := by decide +kernel
  exact hmem

end Scan
end TaintGraph
