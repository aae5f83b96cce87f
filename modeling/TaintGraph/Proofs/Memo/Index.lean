/-
# The memo and its index agree

The memo keeps the same pairs twice: in its entries, and in the index that
lists the targets of each source. They are updated on different paths (a write
that pushes an entry out, a write of a pair that is already held, a drop of all
pairs of one source), and a pair that the index forgot could never be dropped
again. `Memo.Indexed` says that the two agree; every use of a memo keeps it
(`Indexed.after`), so it holds after every run of uses (`Indexed.run`).

On an indexed memo `dropFrom` does what it is for: it removes the entries of one
source, all of them and nothing else (`Indexed.dropFrom_entries`).

Key definitions: `Memo.Lists`, `Memo.Indexed`, `Memo.Use`, `Memo.run`.
Key theorems: `Memo.Indexed.after`, `Memo.Indexed.dropFrom_entries`,
`Memo.run_index_agrees`.
-/
import Mathlib.Data.List.Nodup
import TaintGraph.Memo

namespace TaintGraph
namespace Memo

open Std (TreeMap TreeSet)

/-- The pairs that the memo holds, the most recently used first. -/
def keys (m : Memo) : List Endpoints :=
  m.entries.map Prod.fst

/-- The index lists the pair. -/
def Lists (targets : TreeMap String (TreeSet String)) (pair : Endpoints) : Prop :=
  ∃ held, targets[pair.source]? = some held ∧ pair.target ∈ held

/-- No source without targets is kept. -/
def Tight (targets : TreeMap String (TreeSet String)) : Prop :=
  ∀ (source : String) (held : TreeSet String), targets[source]? = some held → held.isEmpty = false

/-! ### The index alone -/

section Index

variable {targets : TreeMap String (TreeSet String)} {pair q : Endpoints} {source : String}

theorem not_lists_of_none (h : targets[q.source]? = none) : ¬ Lists targets q := by
  rintro ⟨held, hheld, -⟩
  rw [h] at hheld
  cases hheld

theorem lists_iff_of_some {held : TreeSet String} (h : targets[q.source]? = some held) :
    Lists targets q ↔ q.target ∈ held := by
  simp [Lists, h]

theorem endpoints_eq_iff : q = pair ↔ q.source = pair.source ∧ q.target = pair.target := by
  cases q
  cases pair
  simp

@[simp]
theorem lists_enter : Lists (enter pair targets) q ↔ q = pair ∨ Lists targets q := by
  unfold enter
  by_cases hs : pair.source = q.source
  · have hins : (targets.insert pair.source ((targets.getD pair.source ∅).insert
        pair.target))[q.source]? = some ((targets.getD q.source ∅).insert pair.target) := by
      simp [hs]
    rw [lists_iff_of_some hins, endpoints_eq_iff, TreeMap.getD_eq_getD_getElem?]
    cases hq : targets[q.source]? with
    | none => simp [hs, eq_comm (a := q.target), not_lists_of_none hq]
    | some held => simp [hs, eq_comm (a := q.target), lists_iff_of_some hq]
  · have hne : q ≠ pair := fun h => hs (h ▸ rfl)
    simp [Lists, TreeMap.getElem?_insert, hs, hne]

@[simp]
theorem lists_leave : Lists (leave pair targets) q ↔ q ≠ pair ∧ Lists targets q := by
  unfold leave
  by_cases hs : pair.source = q.source
  · rw [ne_eq, endpoints_eq_iff, hs]
    cases hq : targets[q.source]? with
    | none => simp [not_lists_of_none hq]
    | some held =>
      have hrest : q.target ∈ held.erase pair.target ↔
          ¬ q.target = pair.target ∧ q.target ∈ held := by
        simp [eq_comm (a := q.target)]
      rw [lists_iff_of_some hq]
      simp only [true_and]
      rw [← hrest]
      split_ifs with he
      · have hgone : (targets.erase q.source)[q.source]? = none := by simp
        exact iff_of_false (not_lists_of_none hgone) (TreeSet.not_mem_of_isEmpty he)
      · exact lists_iff_of_some (by simp)
  · have hne : q ≠ pair := fun h => hs (h ▸ rfl)
    cases hp : targets[pair.source]? with
    | none => simp [hne]
    | some held =>
      simp only
      split_ifs <;>
        simp [Lists, TreeMap.getElem?_insert, TreeMap.getElem?_erase, hs, hne]

@[simp]
theorem lists_leaveAll (evicted : List Endpoints) :
    Lists (evicted.foldl (fun targets old => leave old targets) targets) q ↔
      q ∉ evicted ∧ Lists targets q := by
  induction evicted generalizing targets with
  | nil => simp
  | cons old evicted ih =>
    rw [List.foldl_cons, ih, lists_leave, List.mem_cons]
    tauto

@[simp]
theorem lists_erase : Lists (targets.erase source) q ↔ q.source ≠ source ∧ Lists targets q := by
  by_cases hs : source = q.source
  · simp [Lists, hs]
  · simp [Lists, TreeMap.getElem?_erase, hs, Ne.symm hs]

theorem Tight.enter (h : Tight targets) : Tight (enter pair targets) := by
  intro source held hheld
  unfold Memo.enter at hheld
  rw [TreeMap.getElem?_insert] at hheld
  split_ifs at hheld with hs
  · cases hheld
    simp
  · exact h source held hheld

theorem Tight.erase (h : Tight targets) : Tight (targets.erase source) := by
  intro s held hheld
  rw [TreeMap.getElem?_erase] at hheld
  split_ifs at hheld
  exact h s held hheld

theorem Tight.leave (h : Tight targets) : Tight (leave pair targets) := by
  unfold Memo.leave
  cases hp : targets[pair.source]? with
  | none => exact h
  | some held =>
    simp only
    split_ifs with he
    · exact h.erase
    · intro s rest hrest
      rw [TreeMap.getElem?_insert] at hrest
      split_ifs at hrest with hs
      · cases hrest
        exact Bool.eq_false_iff.mpr he
      · exact h s rest hrest

theorem Tight.leaveAll (h : Tight targets) (evicted : List Endpoints) :
    Tight (evicted.foldl (fun targets old => Memo.leave old targets) targets) := by
  induction evicted generalizing targets with
  | nil => exact h
  | cons old evicted ih => exact ih h.leave

end Index

/-! ### What a use leaves alone, and what it counts -/

section Fields

variable (m : Memo) (pair : Endpoints) (distance : Option ℕ) (source : String)

@[simp]
theorem find_fst : (m.find pair).1 = m.peek? pair := by
  unfold find
  cases m.peek? pair <;> rfl

@[simp]
theorem capacity_find : (m.find pair).2.capacity = m.capacity := by
  unfold find
  cases m.peek? pair <;> rfl

@[simp]
theorem hits_find : (m.find pair).2.hits = if (m.peek? pair).isSome then m.hits + 1 else m.hits := by
  unfold find
  cases m.peek? pair <;> rfl

@[simp]
theorem misses_find :
    (m.find pair).2.misses = if (m.peek? pair).isSome then m.misses else m.misses + 1 := by
  unfold find
  cases m.peek? pair <;> rfl

@[simp]
theorem capacity_write : (m.write pair distance).1.capacity = m.capacity := rfl

@[simp]
theorem hits_write : (m.write pair distance).1.hits = m.hits := rfl

@[simp]
theorem misses_write : (m.write pair distance).1.misses = m.misses := rfl

@[simp]
theorem capacity_dropFrom : (m.dropFrom source).2.1.capacity = m.capacity := by
  unfold dropFrom
  cases m.targets[source]? <;> rfl

@[simp]
theorem hits_dropFrom : (m.dropFrom source).2.1.hits = m.hits := by
  unfold dropFrom
  cases m.targets[source]? <;> rfl

@[simp]
theorem misses_dropFrom : (m.dropFrom source).2.1.misses = m.misses := by
  unfold dropFrom
  cases m.targets[source]? <;> rfl

end Fields

/-! ### Entries and index together -/

/-- The index lists the pairs of the entries and no other pair, every pair has
one entry, and the entries fit. -/
structure Indexed (m : Memo) : Prop where
  nodup : m.keys.Nodup
  lists_iff : ∀ pair, Lists m.targets pair ↔ pair ∈ m.keys
  tight : Tight m.targets
  size_le : m.size ≤ m.capacity

theorem mem_keys_iff {m : Memo} {pair : Endpoints} :
    pair ∈ m.keys ↔ ∃ d, (pair, d) ∈ m.entries := by
  simp [keys]

theorem mem_entries_of_peek? {m : Memo} {pair : Endpoints} {d : Option ℕ}
    (h : m.peek? pair = some d) : (pair, d) ∈ m.entries := by
  obtain ⟨before, after, he, -⟩ := List.lookup_eq_some_iff.1 h
  rw [he]
  simp

theorem Indexed.peek?_eq_some_iff {m : Memo} (h : Indexed m) {pair : Endpoints} {d : Option ℕ} :
    m.peek? pair = some d ↔ (pair, d) ∈ m.entries := by
  refine ⟨mem_entries_of_peek?, fun hd => ?_⟩
  obtain ⟨before, after, he⟩ := List.append_of_mem hd
  refine List.lookup_eq_some_iff.2 ⟨before, after, he, fun e hmem => ?_⟩
  have hnodup := h.nodup
  rw [keys, he, List.map_append, List.nodup_append] at hnodup
  have hne : e.1 ≠ pair := hnodup.2.2 _ (List.mem_map_of_mem hmem) _ (by simp)
  simpa using hne.symm

theorem peek?_eq_none_iff {m : Memo} {pair : Endpoints} : m.peek? pair = none ↔ pair ∉ m.keys := by
  rw [peek?, List.lookup_eq_none_iff, keys, List.mem_map, not_exists]
  simp only [bne_iff_ne, not_and]
  exact ⟨fun h e he heq => h e he heq.symm, fun h e he heq => h e he heq.symm⟩

@[simp]
theorem map_fst_others (m : Memo) (pair : Endpoints) :
    (m.others pair).map Prod.fst = m.keys.filter (· ≠ pair) := by
  simp [others, keys, List.filter_map, Function.comp_def]

theorem others_eq_of_peek?_none {m : Memo} {pair : Endpoints} (h : m.peek? pair = none) :
    m.others pair = m.entries := by
  refine List.filter_eq_self.2 fun e he => ?_
  have hne : pair ≠ e.1 := bne_iff_ne.1 (List.lookup_eq_none_iff.1 h e he)
  exact decide_eq_true hne.symm

/-! ### What a look-up and a write leave -/

theorem keys_find_of_mem {m : Memo} {pair : Endpoints} (h : pair ∈ m.keys) :
    (m.find pair).2.keys = pair :: m.keys.filter (· ≠ pair) := by
  unfold find
  cases hp : m.peek? pair with
  | none => exact absurd h (peek?_eq_none_iff.1 hp)
  | some d =>
    rw [← map_fst_others]
    rfl

theorem keys_find_of_notMem {m : Memo} {pair : Endpoints} (h : pair ∉ m.keys) :
    (m.find pair).2.keys = m.keys := by
  unfold find
  rw [peek?_eq_none_iff.2 h]
  rfl

@[simp]
theorem keys_write (m : Memo) (pair : Endpoints) (distance : Option ℕ) :
    (m.write pair distance).1.keys =
      pair :: (m.keys.filter (· ≠ pair)).take (m.capacity - 1) := by
  rw [← map_fst_others, ← List.map_take]
  rfl

theorem entries_find_subset (m : Memo) (pair : Endpoints) :
    (m.find pair).2.entries ⊆ m.entries := by
  intro e he
  unfold find at he
  cases hp : m.peek? pair with
  | none =>
    rw [hp] at he
    exact he
  | some d =>
    rw [hp] at he
    rcases List.mem_cons.1 he with rfl | hother
    · exact mem_entries_of_peek? hp
    · exact List.mem_of_mem_filter hother

theorem mem_entries_write {m : Memo} {pair : Endpoints} {distance : Option ℕ}
    {e : Endpoints × Option ℕ} (he : e ∈ (m.write pair distance).1.entries) :
    e = (pair, distance) ∨ (e ∈ m.entries ∧ e.1 ≠ pair) := by
  refine (List.mem_cons.1 he).imp_right fun hother => ?_
  obtain ⟨hold, hne⟩ := List.mem_filter.1 (List.mem_of_mem_take hother)
  exact ⟨hold, of_decide_eq_true hne⟩

/-! ### The index is kept -/

theorem mem_take_iff {l : List Endpoints} (h : l.Nodup) (n : ℕ) (q : Endpoints) :
    q ∈ l.take n ↔ q ∈ l ∧ q ∉ l.drop n := by
  have hsplit := List.take_append_drop n l
  rw [← hsplit, List.nodup_append] at h
  constructor
  · intro hq
    exact ⟨List.mem_of_mem_take hq, fun hd => h.2.2 q hq q hd rfl⟩
  · rintro ⟨hq, hd⟩
    rw [← hsplit, List.mem_append] at hq
    exact hq.resolve_right hd

theorem Indexed.empty {capacity : ℕ} (h : 0 < capacity) : Indexed (Memo.empty capacity h) where
  nodup := List.nodup_nil
  lists_iff := fun pair => by simp [Lists, Memo.empty, keys]
  tight := fun source held hheld => by simp [Memo.empty] at hheld
  size_le := Nat.zero_le _

theorem Indexed.clear {m : Memo} : Indexed m.clear where
  nodup := List.nodup_nil
  lists_iff := fun pair => by simp [Lists, Memo.clear, keys]
  tight := fun source held hheld => by simp [Memo.clear] at hheld
  size_le := Nat.zero_le _

theorem Indexed.length_others {m : Memo} (h : Indexed m) {pair : Endpoints} (hp : pair ∈ m.keys) :
    (m.others pair).length + 1 = m.size := by
  have hothers : (m.others pair).map Prod.fst = m.keys.erase pair := by
    rw [map_fst_others, h.nodup.erase_eq_filter]
    exact List.filter_congr fun q _ => by simp [bne, beq_eq_decide]
  have hlen := List.length_erase_of_mem hp
  have hpos := List.length_pos_of_mem hp
  rw [← hothers, List.length_map] at hlen
  have hsize : m.keys.length = m.size := List.length_map ..
  omega

/-- A hit moves one entry to the front. -/
theorem Indexed.find {m : Memo} (h : Indexed m) (pair : Endpoints) : Indexed (m.find pair).2 := by
  unfold Memo.find
  cases hp : m.peek? pair with
  | none => exact ⟨h.nodup, h.lists_iff, h.tight, h.size_le⟩
  | some d =>
    have hmem : pair ∈ m.keys := mem_keys_iff.2 ⟨d, mem_entries_of_peek? hp⟩
    have hkeys : ((pair, d) :: m.others pair).map Prod.fst = pair :: m.keys.filter (· ≠ pair) := by
      rw [List.map_cons, map_fst_others]
    refine ⟨?_, fun q => ?_, h.tight, ?_⟩
    · rw [keys, hkeys, List.nodup_cons]
      exact ⟨by simp, h.nodup.filter _⟩
    · rw [keys, hkeys, h.lists_iff]
      by_cases hq : q = pair
      · simp [hq, hmem]
      · simp [hq]
    · have hlen := h.length_others hmem
      have hle := h.size_le
      simp only [Memo.size, List.length_cons] at hlen hle ⊢
      omega

/-- A look-up moves at most one entry and neither adds nor removes one. -/
theorem Indexed.size_find {m : Memo} (h : Indexed m) (pair : Endpoints) :
    (m.find pair).2.size = m.size := by
  unfold Memo.find
  cases hp : m.peek? pair with
  | none => rfl
  | some d => exact h.length_others (mem_keys_iff.2 ⟨d, mem_entries_of_peek? hp⟩)

/-- A write puts its pair in front and drops from both sides what no longer
fits. -/
theorem Indexed.write {m : Memo} (h : Indexed m) (pair : Endpoints) (distance : Option ℕ) :
    Indexed (m.write pair distance).1 := by
  have hrest : (m.keys.filter (· ≠ pair)).Nodup := h.nodup.filter _
  have hkeys := m.keys_write pair distance
  have hevicted : ((m.others pair).drop (m.capacity - 1)).map Prod.fst =
      (m.keys.filter (· ≠ pair)).drop (m.capacity - 1) := by
    rw [List.map_drop, map_fst_others]
  refine ⟨?_, fun q => ?_, h.tight.leaveAll _ |>.enter, ?_⟩
  · rw [hkeys, List.nodup_cons]
    refine ⟨fun hp => ?_, hrest.sublist (List.take_sublist _ _)⟩
    simpa using List.mem_of_mem_take hp
  · rw [hkeys, List.mem_cons, mem_take_iff hrest, List.mem_filter]
    simp only [Memo.write]
    rw [lists_enter, lists_leaveAll, hevicted, h.lists_iff]
    by_cases hq : q = pair
    · simp [hq]
    · simp [hq, and_comm]
  · have hpos := m.capacity_pos
    simp only [Memo.write, Memo.size, List.length_cons, List.length_take]
    omega

/-- What `dropFrom` leaves of the entries. -/
theorem Indexed.dropFrom_entries {m : Memo} (h : Indexed m) (source : String) :
    (m.dropFrom source).2.1.entries = m.entries.filter fun e => e.1.source ≠ source := by
  unfold Memo.dropFrom
  -- The index answers for every entry of the source, so the filter keeps none of them.
  cases hs : m.targets[source]? with
  | none =>
    refine (List.filter_eq_self.2 fun e he => ?_).symm
    have hlist : Lists m.targets e.1 := (h.lists_iff _).2 (List.mem_map_of_mem he)
    rw [decide_eq_true_eq]
    rintro rfl
    exact not_lists_of_none hs hlist
  | some held =>
    refine List.filter_congr fun e he => ?_
    have hlist : Lists m.targets e.1 := (h.lists_iff _).2 (List.mem_map_of_mem he)
    by_cases hsrc : e.1.source = source
    · subst hsrc
      have hheld : e.1.target ∈ held := (lists_iff_of_some hs).1 hlist
      simp [TreeSet.contains_iff_mem.2 hheld]
    · simp [hsrc]

theorem Indexed.dropFrom_keys {m : Memo} (h : Indexed m) (source : String) :
    (m.dropFrom source).2.1.keys = m.keys.filter fun pair => pair.source ≠ source := by
  rw [keys, h.dropFrom_entries, keys, List.filter_map]
  rfl

/-- `dropFrom` counts the pairs of its source. -/
theorem Indexed.dropFrom_count {m : Memo} (h : Indexed m) (source : String) :
    (m.dropFrom source).1 = m.keys.countP fun pair => pair.source = source := by
  have hcount : (m.dropFrom source).1 =
      m.entries.length - (m.dropFrom source).2.1.entries.length := by
    unfold Memo.dropFrom
    cases m.targets[source]? with
    | none => simp
    | some held => rfl
  have hsplit := List.length_eq_countP_add_countP (fun pair : Endpoints => pair.source = source)
    (l := m.keys)
  have hkept := congrArg List.length (h.dropFrom_keys source)
  rw [← List.countP_eq_length_filter] at hkept
  simp only [keys, List.length_map, decide_not, ne_eq, decide_eq_true_eq] at hsplit hkept ⊢
  omega

@[simp]
theorem dropFrom_targets (m : Memo) (source : String) (pair : Endpoints) :
    Lists (m.dropFrom source).2.1.targets pair ↔ pair.source ≠ source ∧ Lists m.targets pair := by
  unfold Memo.dropFrom
  cases hs : m.targets[source]? with
  | none =>
    refine ⟨fun hl => ⟨?_, hl⟩, fun hl => hl.2⟩
    rintro rfl
    exact not_lists_of_none hs hl
  | some held => exact lists_erase

theorem Indexed.dropFrom {m : Memo} (h : Indexed m) (source : String) :
    Indexed (m.dropFrom source).2.1 := by
  refine ⟨?_, fun pair => ?_, ?_, ?_⟩
  · rw [h.dropFrom_keys]
    exact h.nodup.filter _
  · rw [dropFrom_targets, h.dropFrom_keys, h.lists_iff, List.mem_filter, decide_eq_true_eq,
      and_comm]
  · unfold Memo.dropFrom
    cases m.targets[source]? with
    | none => exact h.tight
    | some held => exact h.tight.erase
  · rw [capacity_dropFrom, Memo.size, h.dropFrom_entries]
    exact Nat.le_trans (List.length_filter_le _ _) h.size_le

/-! ### Runs -/

/-- Something done with a memo. -/
inductive Use where
  /-- Look a pair up. -/
  | find (pair : Endpoints)
  /-- Write the distance of a pair. -/
  | write (pair : Endpoints) (distance : Option ℕ)
  /-- Drop every distance from a source. -/
  | dropFrom (source : String)
  /-- Drop everything. -/
  | clear

/-- The memo after one use. -/
def after (m : Memo) : Use → Memo
  | .find pair => (m.find pair).2
  | .write pair distance => (m.write pair distance).1
  | .dropFrom source => (m.dropFrom source).2.1
  | .clear => m.clear

/-- The memo after a list of uses, in order. -/
def run (m : Memo) (uses : List Use) : Memo :=
  uses.foldl after m

theorem Indexed.after {m : Memo} (h : Indexed m) (u : Use) : Indexed (m.after u) := by
  cases u with
  | find pair => exact h.find pair
  | write pair distance => exact h.write pair distance
  | dropFrom source => exact h.dropFrom source
  | clear => exact Indexed.clear

theorem Indexed.run {m : Memo} (h : Indexed m) (uses : List Use) : Indexed (m.run uses) := by
  induction uses generalizing m with
  | nil => exact h
  | cons u uses ih => exact ih (h.after u)

@[simp]
theorem after_capacity (m : Memo) (u : Use) : (m.after u).capacity = m.capacity := by
  cases u with
  | find pair => simp [Memo.after]
  | write pair distance => rfl
  | dropFrom source => simp [Memo.after]
  | clear => rfl

@[simp]
theorem run_capacity (m : Memo) (uses : List Use) : (m.run uses).capacity = m.capacity := by
  induction uses generalizing m with
  | nil => rfl
  | cons u uses ih => exact (ih _).trans (after_capacity m u)

/-- **The index and the entries agree after every run.** A pair is listed
exactly when it has an entry, no source is kept without targets, and the memo is
within the capacity it was made with. Hence dropping a source removes the entries
of that source and counts them, and leaves the other entries as they stand, in
their order. -/
theorem run_index_agrees {capacity : ℕ} (hpos : 0 < capacity) (uses : List Use) {m : Memo}
    (hm : m = (Memo.empty capacity hpos).run uses) :
    (∀ source target : String,
      (∃ held, m.targets[source]? = some held ∧ target ∈ held) ↔
        (⟨source, target⟩ : Endpoints) ∈ m.entries.map Prod.fst) ∧
    (∀ (source : String) (held : TreeSet String),
      m.targets[source]? = some held → held.isEmpty = false) ∧
    m.entries.length ≤ capacity ∧
    (m.entries.map Prod.fst).Nodup ∧
    ∀ source : String,
      (m.dropFrom source).1 = (m.entries.map Prod.fst).countP (fun pair => pair.source = source) ∧
      (m.dropFrom source).2.1.entries = m.entries.filter fun e => e.1.source ≠ source := by
  subst hm
  have h := (Indexed.empty hpos).run uses
  have hsize := h.size_le
  rw [run_capacity] at hsize
  refine ⟨fun source target => h.lists_iff ⟨source, target⟩, h.tight, hsize, h.nodup,
    fun source => ?_⟩
  exact ⟨h.dropFrom_count source, h.dropFrom_entries source⟩

/-- A full memo of two: the third write pushes out one pair of the source that
is dropped afterwards. -/
theorem run_index_agrees_evicting :
    ∃ m, m = (Memo.empty 2 Nat.two_pos).run [.write ⟨"a", "b"⟩ (some 1), .write ⟨"a", "c"⟩ none,
        .find ⟨"a", "b"⟩, .write ⟨"d", "b"⟩ (some 3)] ∧
      (∃ held, m.targets["a"]? = some held ∧ "b" ∈ held) ∧
      (¬ ∃ held, m.targets["a"]? = some held ∧ "c" ∈ held) ∧
      (m.dropFrom "a").1 = 1 ∧
      (m.dropFrom "a").2.1.entries = [(⟨"d", "b"⟩, some 3)] := by
  refine ⟨_, rfl, ?_, ?_, ?_, ?_⟩
  · exact ((run_index_agrees Nat.two_pos _ rfl).1 "a" "b").2 (by decide)
  · rw [(run_index_agrees Nat.two_pos _ rfl).1 "a" "c"]
    decide
  · rw [((run_index_agrees Nat.two_pos _ rfl).2.2.2.2 "a").1]
    decide
  · rw [((run_index_agrees Nat.two_pos _ rfl).2.2.2.2 "a").2]
    decide

end Memo
end TaintGraph
