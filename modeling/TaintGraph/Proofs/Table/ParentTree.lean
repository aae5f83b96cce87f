/-
# The parents of a search form a tree

The search for a chain keeps one parent for every ID it visits, and the chain is read off by
going from parent to parent until there is none. Nothing counts these steps. That they come to
an end, at the ID the search started from, rests on the whole search: the ID it started from is
never given a parent, also when calls lead back to it, and every other ID is given one that was
visited before it, one level up.

All of this holds between any two steps of the search by a queue (`Sweep`), since its tree is
then a part of the tree of the finished search that is closed under parents (`Search.Subtree`,
`Sweep.subtree_after`): going up from an ID gives the same at that moment as at the end.

Key definitions: `Search.ancestor?`, `Search.Subtree`, `CallTable.sweep`.
Key theorems: `Search.Levelled.exists_ancestor`, `Search.Levelled.climb_of_le`,
`Sweep.subtree_after`, `CallTable.parents_form_tree`.
-/
import TaintGraph.Proofs.Scan.ShortestChain
import TaintGraph.Proofs.Search.Queue

namespace TaintGraph

/-! ### Going up in a tree -/

namespace Search

/-- The ID that `k` steps from parent to parent lead to. -/
def ancestor? (s : Search) : (k : ℕ) → (id : String) → Option String
  | 0, id => some id
  | k + 1, id => (s.parent? id).bind (s.ancestor? k)

variable {next : String → List String} {seeds : List String} {s : Search} {id : String} {v : Visit}
  {k : ℕ}

theorem Levelled.parent?_eq_none (h : Levelled next seeds s) (hv : s.visits[id]? = some v)
    (hd : v.depth = 0) : s.parent? id = none := by
  rw [parent?_of_visits hv, Option.eq_none_iff_forall_ne_some]
  intro p hp
  obtain ⟨-, u, -, hu⟩ := h.parent hv hp
  omega

/-- As many steps up as the depth allows lead to an ID so many levels up. -/
theorem Levelled.exists_ancestor (h : Levelled next seeds s) (hv : s.visits[id]? = some v)
    (hk : k ≤ v.depth) :
    ∃ a u, s.ancestor? k id = some a ∧ s.visits[a]? = some u ∧ u.depth + k = v.depth := by
  induction k generalizing id v with
  | zero => exact ⟨id, v, rfl, hv, rfl⟩
  | succ k ih =>
    obtain ⟨d, hd⟩ : ∃ d, v.depth = d + 1 := ⟨v.depth - 1, by omega⟩
    obtain ⟨p, u, hp, hu, hdu, -⟩ := h.parent? hv hd
    obtain ⟨a, u', ha, hu', hdu'⟩ := ih hu (by omega)
    refine ⟨a, u', ?_, hu', by omega⟩
    rw [ancestor?, hp, Option.bind_some, ha]

/-- More steps up than the depth lead nowhere. -/
theorem Levelled.ancestor?_eq_none (h : Levelled next seeds s) (hv : s.visits[id]? = some v)
    (hk : v.depth < k) : s.ancestor? k id = none := by
  induction k generalizing id v with
  | zero => omega
  | succ k ih =>
    rw [ancestor?]
    cases hd : v.depth with
    | zero => rw [h.parent?_eq_none hv hd, Option.bind_none]
    | succ d =>
      obtain ⟨p, u, hp, hu, hdu, -⟩ := h.parent? hv hd
      rw [hp, Option.bind_some]
      exact ih hu (by omega)

theorem Levelled.ancestor?_eq_none_iff (h : Levelled next seeds s) (hv : s.visits[id]? = some v)
    (k : ℕ) : s.ancestor? k id = none ↔ v.depth < k := by
  refine ⟨fun hnone => ?_, h.ancestor?_eq_none hv⟩
  by_contra hle
  obtain ⟨a, u, ha, -⟩ := h.exists_ancestor hv (Nat.le_of_not_lt hle)
  rw [ha] at hnone
  cases hnone

theorem Levelled.depth_root {root : String} (h : Levelled next [root] s)
    (hv : s.visits[root]? = some v) : v.depth = 0 := by
  obtain ⟨u, hu, hle⟩ := h.reached (.seed List.mem_cons_self) (Nat.zero_le _)
  obtain rfl : u = v := Option.some.inj (hu.symm.trans hv)
  exact Nat.le_zero.1 hle

theorem Levelled.eq_root {root : String} (h : Levelled next [root] s)
    (hv : s.visits[id]? = some v) (hd : v.depth = 0) : id = root := by
  have hhops := h.hops hv
  rw [hd] at hhops
  cases hhops with
  | seed hmem => exact List.mem_singleton.1 hmem

/-- The steps up to the only seed are as many as the depth. -/
theorem Levelled.ancestor?_eq_some_iff {root : String} (h : Levelled next [root] s)
    (hv : s.visits[id]? = some v) (k : ℕ) : s.ancestor? k id = some root ↔ k = v.depth := by
  constructor
  · intro hk
    by_cases hle : k ≤ v.depth
    · obtain ⟨a, u, ha, hu, hd⟩ := h.exists_ancestor hv hle
      obtain rfl : a = root := Option.some.inj (ha.symm.trans hk)
      have hzero := h.depth_root hu
      omega
    · rw [h.ancestor?_eq_none hv (Nat.lt_of_not_le hle)] at hk
      cases hk
  · rintro rfl
    obtain ⟨a, u, ha, hu, hd⟩ := h.exists_ancestor hv (Nat.le_refl _)
    rw [ha, h.eq_root hu (by omega)]

/-- Climbing stops by itself: a larger bound on its steps changes nothing. -/
theorem Levelled.climb_of_le (h : Levelled next seeds s) (hv : s.visits[id]? = some v) {steps : ℕ}
    (hle : v.depth ≤ steps) (tail : List String) :
    s.climb steps id tail = s.climb v.depth id tail := by
  generalize hd : v.depth = d at hle
  induction d generalizing id v tail steps with
  | zero =>
    cases steps with
    | zero => rfl
    | succ steps => simp only [climb, h.parent?_eq_none hv hd]
  | succ d ih =>
    obtain ⟨p, u, hp, hu, hdu, -⟩ := h.parent? hv hd
    cases steps with
    | zero => omega
    | succ steps =>
      simp only [climb, hp]
      exact ih hu (id :: tail) hdu (by omega)

/-! ### Parts of a tree -/

/-- The visits of one search are visits of the other, and so are the parents of what it has
visited. -/
structure Subtree (part whole : Search) : Prop where
  visits : ∀ {id : String} {v : Visit}, part.visits[id]? = some v → whole.visits[id]? = some v
  parents : ∀ {id p : String} {v : Visit}, part.visits[id]? = some v → v.parent = some p →
    ∃ u, part.visits[p]? = some u

namespace Subtree

variable {part : Search}

theorem parent? (h : Subtree part s) (hv : part.visits[id]? = some v) :
    part.parent? id = s.parent? id := by
  rw [parent?_of_visits hv, parent?_of_visits (h.visits hv)]

theorem ancestor? (h : Subtree part s) (hv : part.visits[id]? = some v) (k : ℕ) :
    part.ancestor? k id = s.ancestor? k id := by
  induction k generalizing id v with
  | zero => rfl
  | succ k ih =>
    rw [Search.ancestor?, Search.ancestor?, ← h.parent? hv, parent?_of_visits hv]
    cases hp : v.parent with
    | none => rfl
    | some p =>
      obtain ⟨u, hu⟩ := h.parents hv hp
      exact ih hu

theorem climb (h : Subtree part s) (hv : part.visits[id]? = some v) (steps : ℕ)
    (tail : List String) : part.climb steps id tail = s.climb steps id tail := by
  induction steps generalizing id v tail with
  | zero => rfl
  | succ steps ih =>
    rw [Search.climb, Search.climb, ← h.parent? hv, parent?_of_visits hv]
    cases hp : v.parent with
    | none => rfl
    | some p =>
      obtain ⟨u, hu⟩ := h.parents hv hp
      exact ih hu (id :: tail)

end Subtree
end Search

theorem Sweep.parent?_tree {w : Sweep} {id : String} {v : Visit} (hv : w.visits[id]? = some v) :
    w.tree.parent? id = v.parent :=
  Search.parent?_of_visits hv

/-- The tree of a sweep is at every moment a part of that of the closed search. -/
theorem Sweep.subtree_after {next : String → List String} {seeds : List String} {levels : ℕ}
    (hclosed : ((Search.start seeds).run next levels).fresh = []) (n : ℕ) :
    Search.Subtree (after next seeds n).tree ((Search.start seeds).run next levels) where
  visits := fun hv => visits_after hclosed hv
  parents := fun {id p v} hv hp => by
    obtain ⟨m, hm, hmem, -⟩ := exists_earlier hv hp
    obtain ⟨k, rfl⟩ := Nat.exists_eq_add_of_le' hm.le
    obtain ⟨u, hu⟩ := mem_visits_iff.1 hmem
    refine ⟨u, ?_⟩
    rw [after_add]
    exact visits_iterate next k hu

/-! ### Searches over a table -/

namespace CallTable

/-- The search from known IDs along `next` by a queue, after `n` steps. -/
def sweep (t : CallTable) (next : String → List String) (seeds : List String) (n : ℕ) : Sweep :=
  Sweep.after next (seeds.filter t.contains) n

variable {t : CallTable} {next : String → List String} {source id : String} {v : Visit}

theorem exists_sweep_finished (hnext : ∀ {a b}, b ∈ next a → t.contains b = true)
    (seeds : List String) :
    ∃ n, (t.sweep next seeds n).Finished ∧
      (t.sweep next seeds n).visits = (t.reach next seeds).visits :=
  Sweep.exists_finished (reach_closed hnext seeds)

theorem subtree_sweep (hnext : ∀ {a b}, b ∈ next a → t.contains b = true) (seeds : List String)
    (n : ℕ) : Search.Subtree (t.sweep next seeds n).tree (t.reach next seeds) :=
  Sweep.subtree_after (reach_closed hnext seeds) n

theorem subtree_reachFrom (t : CallTable) (source : String) (n : ℕ) :
    Search.Subtree (t.sweep t.successors [source] n).tree (t.reachFrom source) :=
  subtree_sweep contains_of_mem_successors [source] n

/-- A search that has visited anything starts from its source. -/
theorem reachFrom_levelled (hv : (t.reachFrom source).visits[id]? = some v) :
    (t.reachFrom source).Levelled t.successors [source] := by
  have hlevels := t.reach_levelled t.successors [source]
  cases hknown : t.contains source with
  | true => rwa [List.filter_cons_of_pos hknown, List.filter_nil] at hlevels
  | false =>
    have hlinked := (t.distance?_isFewest source id).isSome_iff.1 (by rw [distance?_eq, hv]; rfl)
    obtain ⟨n, hn⟩ := hlinked
    have hcontains := hn.contains_left
    rw [hknown] at hcontains
    cases hcontains

/-- The depth of a visit is the fewest hops. -/
theorem isLeast_of_visits (hv : (t.reachFrom source).visits[id]? = some v) :
    IsLeast {k | t.Linked k source id} v.depth := by
  have hfewest := t.distance?_isFewest source id
  rwa [distance?_eq, hv] at hfewest

theorem parent?_source (t : CallTable) (source : String) (n : ℕ) :
    (t.sweep t.successors [source] n).tree.parent? source = none := by
  have htree := t.subtree_reachFrom source n
  cases hv : (t.sweep t.successors [source] n).visits[source]? with
  | none => rw [Search.parent?, Sweep.tree, hv, Option.bind_none]
  | some v =>
    have hlevels := reachFrom_levelled (htree.visits hv)
    rw [htree.parent? hv]
    exact hlevels.parent?_eq_none (htree.visits hv) (hlevels.depth_root (htree.visits hv))

/-- Without a parent a visited ID is the source itself. -/
theorem exists_parent_of_ne (hv : (t.reachFrom source).visits[id]? = some v) (hne : id ≠ source) :
    ∃ p, v.parent = some p ∧ t.Calls p id := by
  have hlevels := reachFrom_levelled hv
  cases hp : v.parent with
  | none => exact absurd (hlevels.eq_root hv (hlevels.root hv hp)) hne
  | some p =>
    obtain ⟨hcall, -⟩ := hlevels.parent hv hp
    exact ⟨p, rfl, (mem_successors.1 hcall).1⟩

/-- **Parents form a tree.** The search from an ID, one step after the other, comes to an end,
with the visits that chains are read from. At every moment of it the source has no parent. Every
other visited ID has exactly one, from which a call to it is recorded and which was visited
at an earlier moment, when the ID was not. From a visited ID as many steps up as the fewest hops
to it lead to the source, no other number does, and more lead nowhere; so reading the chain off
stops by itself, and gives at that moment what it gives at the end. No chain is empty. -/
theorem parents_form_tree (t : CallTable) (source : String) :
    let sweep := t.sweep t.successors [source]
    (∃ last, (sweep last).Finished ∧ (sweep last).visits = (t.reachFrom source).visits) ∧
    (∀ n, (sweep n).tree.parent? source = none ∧
      (∀ id ∈ (sweep n).visits, id ≠ source →
        ∃! p, (sweep n).tree.parent? id = some p ∧ t.Calls p id ∧
          ∃ m < n, p ∈ (sweep m).visits ∧ id ∉ (sweep m).visits) ∧
      ∀ id v, (sweep n).visits[id]? = some v →
        IsLeast {k | t.Linked k source id} v.depth ∧
        (∀ k, (sweep n).tree.ancestor? k id = some source ↔ k = v.depth) ∧
        (∀ k, (sweep n).tree.ancestor? k id = none ↔ v.depth < k) ∧
        ∀ steps, v.depth ≤ steps →
          t.shortestChain? source id = some ((sweep n).tree.climb steps id [])) ∧
    ∀ target chain, t.shortestChain? source target = some chain → 1 ≤ chain.length := by
  intro sweep
  refine ⟨exists_sweep_finished contains_of_mem_successors [source], fun n => ?_,
    fun target chain hchain => (shortestChain?_liveChain hchain).length_pos⟩
  have htree : Search.Subtree (sweep n).tree (t.reachFrom source) := t.subtree_reachFrom source n
  refine ⟨parent?_source t source n, fun id hid hne => ?_, fun id v hv => ?_⟩
  · obtain ⟨v, hv⟩ := Sweep.mem_visits_iff.1 hid
    obtain ⟨p, hp, hcall⟩ := exists_parent_of_ne (htree.visits hv) hne
    have hparent := (Sweep.parent?_tree hv).trans hp
    refine ⟨p, ⟨hparent, hcall, Sweep.exists_earlier hv hp⟩, ?_⟩
    rintro q ⟨hq, -⟩
    exact Option.some.inj (hq.symm.trans hparent)
  · have hfinal := htree.visits hv
    have hlevels := reachFrom_levelled hfinal
    refine ⟨isLeast_of_visits hfinal, fun k => ?_, fun k => ?_, fun steps hle => ?_⟩
    · rw [htree.ancestor? hv]
      exact hlevels.ancestor?_eq_some_iff hfinal k
    · rw [htree.ancestor? hv]
      exact hlevels.ancestor?_eq_none_iff hfinal k
    · rw [htree.climb hv, hlevels.climb_of_le hfinal hle]
      exact Search.chainTo?_of_visits hfinal rfl

/-- A table with a call from an ID to itself and a cycle through it. -/
def circuit : CallTable :=
  (Scan.new.run Scan.looping).table

/-- The step in which the last ID is reached: its parent has been visited at an earlier moment,
two steps lead up to the source although calls lead back to it, and the third leads nowhere. -/
theorem parents_form_tree_circuit :
    circuit.Calls "a" "a" ∧ circuit.Calls "b" "a" ∧
    (circuit.sweep circuit.successors ["a"] 10).visits["d"]? = none ∧
    (circuit.sweep circuit.successors ["a"] 11).visits["d"]? = some ⟨2, some "c"⟩ ∧
    (circuit.sweep circuit.successors ["a"] 11).tree.parent? "a" = none ∧
    (∃ m < 11, "c" ∈ (circuit.sweep circuit.successors ["a"] m).visits ∧
      "d" ∉ (circuit.sweep circuit.successors ["a"] m).visits) ∧
    (circuit.sweep circuit.successors ["a"] 11).tree.ancestor? 2 "d" = some "a" ∧
    (circuit.sweep circuit.successors ["a"] 11).tree.ancestor? 3 "d" = none ∧
    circuit.shortestChain? "a" "d" =
      some ((circuit.sweep circuit.successors ["a"] 11).tree.climb 9 "d" []) ∧
    (circuit.sweep circuit.successors ["a"] 11).tree.climb 9 "d" [] = ["a", "c", "d"] := by
  have hself : circuit.Calls "a" "a" := ⟨{ caller := "a", callee := "a" }, by decide +kernel, rfl⟩
  have hback : circuit.Calls "b" "a" := ⟨{ caller := "b", callee := "a" }, by decide +kernel, rfl⟩
  have hbefore : (circuit.sweep circuit.successors ["a"] 10).visits["d"]? = none := by
    decide +kernel
  have hvisit : (circuit.sweep circuit.successors ["a"] 11).visits["d"]? = some ⟨2, some "c"⟩ := by
    decide +kernel
  have hchain : (circuit.sweep circuit.successors ["a"] 11).tree.climb 9 "d" [] =
      ["a", "c", "d"] := by
    decide +kernel
  obtain ⟨-, hmoments, -⟩ := parents_form_tree circuit "a"
  obtain ⟨hroot, hparents, hlevels⟩ := hmoments 11
  have hmem : "d" ∈ (circuit.sweep circuit.successors ["a"] 11).visits :=
    Sweep.mem_visits_iff.2 ⟨_, hvisit⟩
  obtain ⟨p, ⟨hp, -, hearlier⟩, -⟩ := hparents "d" hmem (by decide)
  obtain rfl : "c" = p := Option.some.inj ((Sweep.parent?_tree hvisit).symm.trans hp)
  obtain ⟨-, hup, hend, hread⟩ := hlevels "d" _ hvisit
  exact ⟨hself, hback, hbefore, hvisit, hroot, hearlier, (hup 2).2 rfl, (hend 3).2 (by decide),
    hread 9 (by decide), hchain⟩

end CallTable
end TaintGraph
