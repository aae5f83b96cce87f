/-
# What an operation changes in a table

A table is read through its views: the callable of an ID, the calls out of and
into it, the lists of the roles, and the two counts. This module says what
inserting a callable, recording a call and measuring do to each view, and that
they change no other. The lemmas are tagged for `simp`; later proofs use them and
never look at rows.

Key definitions: `CallTable.Calls`, `CallTable.Listed`, `CallTable.known`.
Key theorems: `CallTable.callable?_insert`, `CallTable.outgoing_record`,
`CallTable.incoming_record`, `CallTable.callable?_withDistances`,
`CallTable.mem_successors`, `CallTable.callables_eq`.
-/
import Mathlib.Data.List.Nodup
import TaintGraph.CallTable.Chains

namespace TaintGraph

namespace Callable

variable (d : Direction) (n : Option ℕ) (c : Callable)

@[simp]
theorem setHops_id : (c.setHops d n).id = c.id := by
  cases d <;> rfl

@[simp]
theorem setHops_role : (c.setHops d n).role = c.role := by
  cases d <;> rfl

@[simp]
theorem hops_setHops (d' : Direction) :
    (c.setHops d n).hops d' = if d = d' then n else c.hops d' := by
  cases d <;> cases d' <;> rfl

@[simp]
theorem reset_role : c.reset.role = c.role := rfl

/-- A callable that arrives has the distance zero or none. -/
@[simp]
theorem hops_reset : c.reset.hops d = if c.role = d.role then some 0 else none := by
  by_cases h : c.role = d.role <;> cases d <;>
    simp_all [hops, reset, isEntryPoint, isSink, Direction.role]

end Callable

namespace CallTable

open Std (TreeMap TreeSet)

/-- A call from `a` to `b` is recorded. -/
def Calls (t : CallTable) (a b : String) : Prop :=
  ∃ c ∈ t.outgoing a, c.callee = b

/-- The ID is on the list of the role. There is no list of regular callables. -/
def Listed (t : CallTable) : Role → String → Prop
  | .regular, _ => False
  | .entryPoint, id => id ∈ t.entryPoints
  | .source, id => id ∈ t.sources
  | .sink, id => id ∈ t.sinks

/-- The callable of the ID has the role. -/
def HasRole (t : CallTable) (role : Role) (id : String) : Prop :=
  ∃ c, t.callable? id = some c ∧ c.role = role

/-- The IDs that have a callable, in order. -/
def known (t : CallTable) : List String :=
  t.rows.keys.filter t.contains

variable {t t' : CallTable} {id a b : String}

/-! ### Reading -/

theorem row_eq (t : CallTable) (id : String) : t.row id = (t.rows[id]?).getD {} := by
  rw [row, TreeMap.getD_eq_getD_getElem?]

theorem contains_iff : t.contains id = true ↔ ∃ c, t.callable? id = some c := by
  rw [contains, Option.isSome_iff_exists]

theorem contains_eq_false_iff : t.contains id = false ↔ t.callable? id = none := by
  simp [contains]

theorem mem_rows_of_contains (h : t.contains id = true) : id ∈ t.rows := by
  by_contra hid
  rw [contains, callable?, row_eq, TreeMap.getElem?_eq_none hid] at h
  cases h

@[simp]
theorem mem_known : id ∈ t.known ↔ t.contains id = true := by
  rw [known, List.mem_filter, TreeMap.mem_keys]
  exact ⟨fun h => h.2, fun h => ⟨mem_rows_of_contains h, h⟩⟩

theorem nodup_known (t : CallTable) : t.known.Nodup :=
  TreeMap.nodup_keys.filter _

theorem ordered_known (t : CallTable) : t.known.Pairwise fun a b => compare a b = .lt :=
  TreeMap.ordered_keys.filter _

theorem mem_successors : b ∈ t.successors a ↔ t.Calls a b ∧ t.contains b = true := by
  simp [successors, Calls]

theorem mem_predecessors :
    a ∈ t.predecessors b ↔ (∃ c ∈ t.incoming b, c.caller = a) ∧ t.contains a = true := by
  simp [predecessors]

theorem contains_of_mem_successors (hb : b ∈ t.successors a) : t.contains b = true :=
  (mem_successors.1 hb).2

/-- Hops are between known IDs. -/
theorem contains_of_mem_further {d : Direction} (hb : b ∈ t.further d a) : t.contains b = true := by
  cases d with
  | fromEntry => exact contains_of_mem_successors hb
  | toSink => exact (mem_predecessors.1 hb).2

/-- The callables of a table are those of its known IDs, in order. -/
theorem callables_eq (t : CallTable) : t.callables = t.known.filterMap t.callable? := by
  have hvalues : t.rows.values = t.rows.toList.map Prod.snd := by
    have hfold : t.rows.values = t.rows.foldr (fun _ r rs => r :: rs) [] := rfl
    rw [hfold, TreeMap.foldr_eq_foldr_toList, ← List.map_eq_foldr]
  have hrow : ∀ p ∈ t.rows.toList, p.2.callable = t.callable? p.1 := by
    intro p hp
    have hget : t.rows[p.1]? = some p.2 := TreeMap.mem_toList_iff_getElem?_eq_some.1 hp
    rw [callable?, row_eq, hget]
    rfl
  rw [callables, known, hvalues, List.filterMap_map, ← TreeMap.map_fst_toList_eq_keys,
    List.filter_map, List.filterMap_map, List.filterMap_filter]
  refine List.filterMap_congr fun p hp => ?_
  have hc : (t.contains ∘ Prod.fst) p = (t.callable? p.1).isSome := rfl
  simp only [Function.comp_apply, hrow p hp] at hc ⊢
  by_cases hsome : t.contains p.1 = true
  · rw [if_pos hsome]
  · rw [if_neg hsome]
    exact contains_eq_false_iff.1 (by simpa using hsome)

/-! ### The lists of the roles -/

@[simp]
theorem enlist_rows (role : Role) (id : String) (t : CallTable) :
    (t.enlist role id).rows = t.rows := by
  cases role <;> rfl

@[simp]
theorem enlist_live (role : Role) (id : String) (t : CallTable) :
    (t.enlist role id).live = t.live := by
  cases role <;> rfl

@[simp]
theorem enlist_calls (role : Role) (id : String) (t : CallTable) :
    (t.enlist role id).calls = t.calls := by
  cases role <;> rfl

@[simp]
theorem delist_rows (role : Role) (id : String) (t : CallTable) :
    (t.delist role id).rows = t.rows := by
  cases role <;> rfl

@[simp]
theorem delist_live (role : Role) (id : String) (t : CallTable) :
    (t.delist role id).live = t.live := by
  cases role <;> rfl

@[simp]
theorem delist_calls (role : Role) (id : String) (t : CallTable) :
    (t.delist role id).calls = t.calls := by
  cases role <;> rfl

@[simp]
theorem listed_enlist {role r : Role} {q : String} :
    (t.enlist role id).Listed r q ↔ t.Listed r q ∨ (r = role ∧ r ≠ .regular ∧ q = id) := by
  cases role <;> cases r <;> simp [enlist, Listed, or_comm, eq_comm (a := q)]

@[simp]
theorem listed_delist {role r : Role} {q : String} :
    (t.delist role id).Listed r q ↔ t.Listed r q ∧ ¬ (r = role ∧ q = id) := by
  cases role <;> cases r <;> simp [delist, Listed, and_comm, eq_comm (a := q)]

/-! ### Inserting a callable -/

/-- The two ways to make room. -/
theorem makeRoom_cases (c : Callable) (t : CallTable) :
    (t.callable? c.id = none ∧ t.makeRoom c = { t with live := t.live + 1 }) ∨
    ∃ old, t.callable? c.id = some old ∧
      t.makeRoom c = if old.role = c.role then t else t.delist old.role c.id := by
  unfold makeRoom
  cases h : t.callable? c.id with
  | none => exact .inl ⟨rfl, rfl⟩
  | some old => exact .inr ⟨old, rfl, rfl⟩

@[simp]
theorem makeRoom_rows (c : Callable) (t : CallTable) : (t.makeRoom c).rows = t.rows := by
  obtain ⟨-, h⟩ | ⟨old, -, h⟩ := makeRoom_cases c t
  · rw [h]
  · rw [h]
    split_ifs <;> simp

theorem insert_rows (c : Callable) (t : CallTable) :
    (t.insert c).rows = t.rows.insert c.id { t.row c.id with callable := some c.reset } := by
  simp only [insert, enlist_rows, makeRoom_rows]

@[simp]
theorem mem_rows_insert (c : Callable) (t : CallTable) (id : String) :
    id ∈ (t.insert c).rows ↔ c.id = id ∨ id ∈ t.rows := by
  rw [insert_rows, TreeMap.mem_insert, Std.LawfulEqCmp.compare_eq_iff_eq]

theorem row_insert (c : Callable) (t : CallTable) (id : String) :
    (t.insert c).row id =
      if c.id = id then { t.row id with callable := some c.reset } else t.row id := by
  rw [row, insert_rows, TreeMap.getD_insert]
  by_cases hid : c.id = id
  · simp [hid]
  · simp [hid, row]

@[simp]
theorem callable?_insert (c : Callable) (t : CallTable) (id : String) :
    (t.insert c).callable? id = if c.id = id then some c.reset else t.callable? id := by
  rw [callable?, row_insert]
  split_ifs <;> rfl

@[simp]
theorem outgoing_insert (c : Callable) (t : CallTable) (id : String) :
    (t.insert c).outgoing id = t.outgoing id := by
  rw [outgoing, row_insert]
  split_ifs <;> rfl

@[simp]
theorem incoming_insert (c : Callable) (t : CallTable) (id : String) :
    (t.insert c).incoming id = t.incoming id := by
  rw [incoming, row_insert]
  split_ifs <;> rfl

@[simp]
theorem contains_insert (c : Callable) (t : CallTable) (id : String) :
    (t.insert c).contains id = true ↔ c.id = id ∨ t.contains id = true := by
  rw [contains, callable?_insert]
  split_ifs with hid <;> simp [hid, contains]

@[simp]
theorem live_insert (c : Callable) (t : CallTable) :
    (t.insert c).live = if t.contains c.id then t.live else t.live + 1 := by
  simp only [insert, enlist_live]
  obtain ⟨hc, h⟩ | ⟨old, hc, h⟩ := makeRoom_cases c t
  · have hnew : ¬ t.contains c.id = true := by simp [contains, hc]
    rw [h, if_neg hnew]
  · have hold : t.contains c.id = true := contains_iff.2 ⟨old, hc⟩
    rw [h, if_pos hold]
    split_ifs <;> simp

@[simp]
theorem calls_insert (c : Callable) (t : CallTable) : (t.insert c).calls = t.calls := by
  simp only [insert, enlist_calls]
  obtain ⟨-, h⟩ | ⟨old, -, h⟩ := makeRoom_cases c t
  · rw [h]
  · rw [h]
    split_ifs <;> simp

/-- A callable leaves the list of its old role and joins that of its new one. -/
@[simp]
theorem listed_insert (c : Callable) (t : CallTable) (r : Role) (q : String) :
    (t.insert c).Listed r q ↔
      (r = c.role ∧ r ≠ .regular ∧ q = c.id) ∨
      (t.Listed r q ∧ ¬ (q = c.id ∧ r ≠ c.role ∧ t.HasRole r c.id)) := by
  have hrows : (t.insert c).Listed r q ↔ ((t.makeRoom c).enlist c.role c.id).Listed r q := by
    cases r <;> exact Iff.rfl
  rw [hrows, listed_enlist]
  obtain ⟨hc, h⟩ | ⟨old, hc, h⟩ := makeRoom_cases c t
  · have hroom : (t.makeRoom c).Listed r q ↔ t.Listed r q := by
      rw [h]
      cases r <;> exact Iff.rfl
    rw [hroom]
    simp [HasRole, hc, or_comm]
  · have hhas : t.HasRole r c.id ↔ old.role = r := by simp [HasRole, hc]
    rw [h, hhas]
    split_ifs with hrole
    · rw [hrole]
      tauto
    · rw [listed_delist]
      have hne : c.role ≠ old.role := fun he => hrole he.symm
      constructor
      · rintro (⟨hl, hn⟩ | hl)
        · exact .inr ⟨hl, fun hq => hn ⟨hq.2.2.symm, hq.1⟩⟩
        · exact .inl hl
      · rintro (hl | ⟨hl, hn⟩)
        · exact .inr hl
        · by_cases hr : r = c.role
          · exact .inl ⟨hl, fun hq => hne (hr ▸ hq.1)⟩
          · exact .inl ⟨hl, fun hq => hn ⟨hq.2, hr, hq.1.symm⟩⟩

/-! ### Recording a call -/

@[simp]
theorem mem_rows_record (c : Call) (t : CallTable) (id : String) :
    id ∈ (t.record c).rows ↔ c.callee = id ∨ c.caller = id ∨ id ∈ t.rows := by
  by_cases hin : c.callee = id
  · simp [record, hin]
  · by_cases hout : c.caller = id
    · simp [record, TreeMap.mem_alter, hin, hout]
    · simp [record, TreeMap.mem_alter, hin, hout]

theorem row_record (c : Call) (t : CallTable) (id : String) :
    (t.record c).row id =
      { callable := t.callable? id
        outgoing := if c.caller = id then (t.row id).outgoing.push c else (t.row id).outgoing
        incoming :=
          if c.callee = id then (t.row id).incoming.push c else (t.row id).incoming } := by
  rw [row_eq]
  simp only [record, TreeMap.getElem?_alter, Std.LawfulEqCmp.compare_eq_iff_eq, callable?, row_eq]
  by_cases hout : c.caller = id
  · by_cases hin : c.callee = id
    · subst hout
      simp [hin, Row.pushOutgoing, Row.pushIncoming]
    · simp [hout, hin, Row.pushOutgoing]
  · by_cases hin : c.callee = id
    · subst hin
      simp [hout, Row.pushIncoming]
    · simp [hout, hin]

@[simp]
theorem callable?_record (c : Call) (t : CallTable) (id : String) :
    (t.record c).callable? id = t.callable? id := by
  rw [callable?, row_record]

@[simp]
theorem contains_record (c : Call) (t : CallTable) (id : String) :
    (t.record c).contains id = t.contains id := by
  rw [contains, callable?_record, contains]

@[simp]
theorem outgoing_record (c : Call) (t : CallTable) (id : String) :
    (t.record c).outgoing id = if c.caller = id then t.outgoing id ++ [c] else t.outgoing id := by
  rw [outgoing, row_record]
  split_ifs <;> simp [outgoing]

@[simp]
theorem incoming_record (c : Call) (t : CallTable) (id : String) :
    (t.record c).incoming id = if c.callee = id then t.incoming id ++ [c] else t.incoming id := by
  rw [incoming, row_record]
  split_ifs <;> simp [incoming]

@[simp]
theorem listed_record (c : Call) (t : CallTable) (r : Role) (q : String) :
    (t.record c).Listed r q ↔ t.Listed r q := by
  cases r <;> exact Iff.rfl

@[simp]
theorem calls_of_record (c : Call) (t : CallTable) (a b : String) :
    (t.record c).Calls a b ↔ t.Calls a b ∨ (c.caller = a ∧ c.callee = b) := by
  rw [Calls, outgoing_record]
  split_ifs with hc <;> simp [Calls, hc, or_and_right, exists_or]

/-! ### Changing every callable -/

section MapCallables

variable (f : String → Callable → Callable)

theorem row_mapCallables (t : CallTable) (id : String) :
    (t.mapCallables f).row id = { t.row id with callable := (t.callable? id).map (f id) } := by
  rw [row_eq, mapCallables, TreeMap.getElem?_map, callable?, row_eq]
  cases t.rows[id]? <;> rfl

@[simp]
theorem callable?_mapCallables (t : CallTable) (id : String) :
    (t.mapCallables f).callable? id = (t.callable? id).map (f id) := by
  rw [callable?, row_mapCallables]

@[simp]
theorem contains_mapCallables (t : CallTable) (id : String) :
    (t.mapCallables f).contains id = t.contains id := by
  rw [contains, callable?_mapCallables, contains, Option.isSome_map]

@[simp]
theorem outgoing_mapCallables (t : CallTable) (id : String) :
    (t.mapCallables f).outgoing id = t.outgoing id := by
  rw [outgoing, row_mapCallables, outgoing]

@[simp]
theorem incoming_mapCallables (t : CallTable) (id : String) :
    (t.mapCallables f).incoming id = t.incoming id := by
  rw [incoming, row_mapCallables, incoming]

@[simp]
theorem listed_mapCallables (t : CallTable) (r : Role) (q : String) :
    (t.mapCallables f).Listed r q ↔ t.Listed r q := by
  cases r <;> exact Iff.rfl

@[simp]
theorem mem_rows_mapCallables (t : CallTable) (id : String) :
    id ∈ (t.mapCallables f).rows ↔ id ∈ t.rows := by
  simp [mapCallables]

@[simp]
theorem known_mapCallables (t : CallTable) : (t.mapCallables f).known = t.known := by
  have hkeys : (t.mapCallables f).rows.keys = t.rows.keys := TreeMap.keys_map
  rw [known, hkeys, known]
  exact List.filter_congr fun id _ => contains_mapCallables f t id

end MapCallables

/-! ### Measuring -/

section Measuring

variable (d : Direction) (s : Search) (t : CallTable)

@[simp]
theorem callable?_withDistances (id : String) :
    (t.withDistances d s).callable? id =
      (t.callable? id).map (Callable.setHops d ((s.visits[id]?).map Visit.depth)) :=
  callable?_mapCallables _ t id

@[simp]
theorem contains_withDistances (id : String) :
    (t.withDistances d s).contains id = t.contains id :=
  contains_mapCallables _ t id

@[simp]
theorem outgoing_withDistances (id : String) :
    (t.withDistances d s).outgoing id = t.outgoing id :=
  outgoing_mapCallables _ t id

@[simp]
theorem incoming_withDistances (id : String) :
    (t.withDistances d s).incoming id = t.incoming id :=
  incoming_mapCallables _ t id

end Measuring

end CallTable
end TaintGraph
