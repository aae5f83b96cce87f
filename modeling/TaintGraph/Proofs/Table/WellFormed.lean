/-
# Tables keep their redundant parts in step

A table says some things twice. A callable carries its ID and stands in the row
of an ID; its role puts it on a list; a call stands with its caller and with its
callee; the known IDs are counted. `CallTable.WellFormed` says that these agree.
Every edit keeps it, so it holds of the table of every reachable scan
(`Scan.Reachable.wellFormed`).

Key definitions: `CallTable.WellFormed`.
Key theorems: `CallTable.WellFormed.insert`, `CallTable.WellFormed.record`,
`CallTable.WellFormed.withDistances`, `Scan.Reachable.wellFormed`.
-/
import TaintGraph.Proofs.Scan.Edit
import TaintGraph.Proofs.Table.View

namespace TaintGraph

open Std (TreeSet)

namespace CallTable

/-- The redundant parts of a table agree. -/
structure WellFormed (t : CallTable) : Prop where
  id_eq : ∀ {id c}, t.callable? id = some c → c.id = id
  listed_iff : ∀ {role id}, role ≠ .regular → (t.Listed role id ↔ t.HasRole role id)
  caller_eq : ∀ {id c}, c ∈ t.outgoing id → c.caller = id
  callee_eq : ∀ {id c}, c ∈ t.incoming id → c.callee = id
  outgoing_iff : ∀ {c : Call}, c ∈ t.outgoing c.caller ↔ c ∈ t.incoming c.callee
  live_eq : t.live = t.known.length

theorem known_length_congr {t t' : CallTable}
    (h : ∀ id, t'.contains id = true ↔ t.contains id = true) :
    t'.known.length = t.known.length := by
  refine List.Perm.length_eq ((List.perm_ext_iff_of_nodup (nodup_known t') (nodup_known t)).2 ?_)
  intro id
  simp [h]

theorem known_length_insert {t : CallTable} {c : Callable} (hc : ¬ t.contains c.id = true) :
    (t.insert c).known.length = t.known.length + 1 := by
  have hnodup : (c.id :: t.known).Nodup :=
    List.nodup_cons.2 ⟨fun hmem => hc (mem_known.1 hmem), nodup_known t⟩
  have hperm : (t.insert c).known.Perm (c.id :: t.known) := by
    refine (List.perm_ext_iff_of_nodup (nodup_known _) hnodup).2 fun id => ?_
    simp [eq_comm (a := c.id)]
  simpa using hperm.length_eq

namespace WellFormed

variable {t : CallTable}

theorem empty : WellFormed {} where
  id_eq := fun h => by simp [callable?, row] at h
  listed_iff := fun {role id} h => by
    cases role <;> simp [Listed, HasRole, callable?, row]
  caller_eq := fun h => by simp [outgoing, row] at h
  callee_eq := fun h => by simp [incoming, row] at h
  outgoing_iff := fun {c} => by simp [outgoing, incoming, row]
  live_eq := rfl

theorem insert (h : WellFormed t) (c : Callable) : WellFormed (t.insert c) where
  id_eq := fun {id d} hd => by
    rw [callable?_insert] at hd
    split_ifs at hd with hid
    · cases hd
      exact hid
    · exact h.id_eq hd
  listed_iff := fun {role id} hrole => by
    rw [listed_insert, h.listed_iff hrole]
    by_cases hid : c.id = id
    · subst hid
      -- At the ID of the callable only its own role is left.
      have hhas : (t.insert c).HasRole role c.id ↔ c.role = role := by
        simp [HasRole]
      rw [hhas]
      constructor
      · rintro (⟨hr, -, -⟩ | ⟨hold, hn⟩)
        · exact hr.symm
        · by_contra hne
          exact hn ⟨rfl, fun he => hne he.symm, hold⟩
      · rintro rfl
        exact .inl ⟨rfl, hrole, rfl⟩
    · have hne : ¬ id = c.id := fun he => hid he.symm
      simp [HasRole, hid, hne]
  caller_eq := fun hd => h.caller_eq (by simpa using hd)
  callee_eq := fun hd => h.callee_eq (by simpa using hd)
  outgoing_iff := fun {d} => by simp [h.outgoing_iff]
  live_eq := by
    rw [live_insert, h.live_eq]
    split_ifs with hc
    · refine (known_length_congr fun id => ?_).symm
      rw [contains_insert]
      exact ⟨fun hor => hor.elim (fun he => he ▸ hc) fun hid => hid, .inr⟩
    · exact (known_length_insert hc).symm

theorem record (h : WellFormed t) (c : Call) : WellFormed (t.record c) where
  id_eq := fun hd => h.id_eq (by simpa using hd)
  listed_iff := fun {role id} hrole => by simp [h.listed_iff hrole, HasRole]
  caller_eq := fun {id d} hd => by
    rw [outgoing_record] at hd
    split_ifs at hd with hc
    · rcases List.mem_append.1 hd with hd | hd
      · exact h.caller_eq hd
      · rw [List.mem_singleton.1 hd, hc]
    · exact h.caller_eq hd
  callee_eq := fun {id d} hd => by
    rw [incoming_record] at hd
    split_ifs at hd with hc
    · rcases List.mem_append.1 hd with hd | hd
      · exact h.callee_eq hd
      · rw [List.mem_singleton.1 hd, hc]
    · exact h.callee_eq hd
  outgoing_iff := fun {d} => by
    by_cases hd : d = c
    · subst hd
      simp
    · rw [outgoing_record, incoming_record]
      split_ifs <;> simp [hd, h.outgoing_iff]
  live_eq := h.live_eq.trans (known_length_congr fun id => by simp).symm

theorem mapCallables (h : WellFormed t) {f : String → Callable → Callable}
    (hid : ∀ id c, (f id c).id = c.id) (hrole : ∀ id c, (f id c).role = c.role) :
    WellFormed (t.mapCallables f) where
  id_eq := fun {id d} hd => by
    rw [callable?_mapCallables] at hd
    obtain ⟨c, hc, rfl⟩ := Option.map_eq_some_iff.1 hd
    exact (hid id c).trans (h.id_eq hc)
  listed_iff := fun {role id} hr => by
    simp [h.listed_iff hr, HasRole, hrole]
  caller_eq := fun hd => h.caller_eq (by simpa using hd)
  callee_eq := fun hd => h.callee_eq (by simpa using hd)
  outgoing_iff := fun {d} => by simp [h.outgoing_iff]
  live_eq := h.live_eq.trans (by simp)

/-- Measuring changes neither an ID nor a role. -/
theorem withDistances (h : WellFormed t) (d : Direction) (s : Search) :
    WellFormed (t.withDistances d s) :=
  h.mapCallables (fun _ _ => Callable.setHops_id _ _ _) fun _ _ => Callable.setHops_role _ _ _

theorem enter (h : WellFormed t) (e : Entry) : WellFormed (e.enter t) := by
  cases e with
  | add c => exact h.insert c
  | offer c =>
    rw [Entry.enter]
    split_ifs
    · exact h
    · exact h.insert c
  | call c => exact h.record c

theorem edit (h : WellFormed t) (e : Edit) : WellFormed (e.table t) := by
  cases e with
  | enter e => exact h.enter e
  | measure d => exact h.withDistances d _
  | ask source target => exact h

/-- A call into an ID is a call from its caller. -/
theorem calls_iff_incoming (h : WellFormed t) {a b : String} :
    t.Calls a b ↔ ∃ c ∈ t.incoming b, c.caller = a := by
  constructor
  · rintro ⟨c, hc, rfl⟩
    obtain rfl := h.caller_eq hc
    exact ⟨c, h.outgoing_iff.1 hc, rfl⟩
  · rintro ⟨c, hc, rfl⟩
    obtain rfl := h.callee_eq hc
    exact ⟨c, h.outgoing_iff.2 hc, rfl⟩

theorem mem_predecessors (h : WellFormed t) {a b : String} :
    a ∈ t.predecessors b ↔ t.Calls a b ∧ t.contains a = true := by
  rw [CallTable.mem_predecessors, h.calls_iff_incoming]

/-- The seeds of a direction are the callables of its role. -/
theorem mem_seeds (h : WellFormed t) {d : Direction} {id : String} :
    id ∈ (t.seeds d).toList ↔ t.HasRole d.role id := by
  cases d with
  | fromEntry => exact TreeSet.mem_toList.trans (h.listed_iff (by decide : Role.entryPoint ≠ .regular))
  | toSink => exact TreeSet.mem_toList.trans (h.listed_iff (by decide : Role.sink ≠ .regular))

/-- The callables of a list of IDs have those IDs that are known. -/
theorem map_id_resolve (h : WellFormed t) (ids : List String) :
    (t.resolve ids).map Callable.id = ids.filter t.contains := by
  rw [resolve, List.map_filterMap, ← List.filterMap_eq_filter]
  refine List.filterMap_congr fun id _ => ?_
  cases hc : t.callable? id with
  | none => simp [Option.guard, contains, hc]
  | some c => simp [Option.guard, contains, hc, h.id_eq hc]

/-- The callables of a list of IDs in order stand in the order of their IDs. -/
theorem sorted_resolve (h : WellFormed t) {ids : List String}
    (hids : ids.Pairwise fun a b => compare a b = .lt) :
    (t.resolve ids).Pairwise fun c d => c.id < d.id := by
  have hsorted : (ids.filter t.contains).Pairwise fun a b => a < b :=
    (hids.filter _).imp fun hlt => compareOfLessAndEq_eq_lt.1 hlt
  rw [← h.map_id_resolve] at hsorted
  exact List.pairwise_map.1 hsorted

theorem map_id_callables (h : WellFormed t) : t.callables.map Callable.id = t.known := by
  have hresolve : t.callables = t.resolve t.known := t.callables_eq
  rw [hresolve, h.map_id_resolve, List.filter_eq_self]
  exact fun id hid => mem_known.1 hid

/-- The callables of a table are those that their own IDs lead to. -/
theorem mem_callables (h : WellFormed t) {c : Callable} :
    c ∈ t.callables ↔ t.callable? c.id = some c := by
  rw [callables_eq, List.mem_filterMap]
  constructor
  · intro hc
    obtain ⟨id, -, hid⟩ := hc
    rw [h.id_eq hid, hid]
  · intro hc
    exact ⟨c.id, mem_known.2 (by rw [contains, hc]; rfl), hc⟩

theorem length_callables (h : WellFormed t) : t.callables.length = t.live := by
  rw [h.live_eq, ← h.map_id_callables, List.length_map]

end WellFormed
end CallTable

theorem Scan.Reachable.wellFormed {s : Scan} (h : s.Reachable) : s.table.WellFormed :=
  h.induction (P := fun k => k.table.WellFormed) (fun _ _ => .empty) fun _ e hk => hk.edit e

end TaintGraph
