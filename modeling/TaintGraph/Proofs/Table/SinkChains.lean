/-
# Chains to other sinks

Two questions about a table are answered by different machines: which sinks can be
reached from an ID (a breadth-first search), and by which chains (a depth-first
walk that ends each chain at its first sink). Both are about the sinks other than
the ID itself; `CallTable.SinkAway root n id` says that one of them is `n` hops
from `id`.

A chain to a nearest such sink comes one hop closer with every ID on it, so it
meets no ID twice and no sink before its end (`CallTable.exists_sinkChain`). Hence
the walk cannot miss it: it finds a chain whenever its hops allow one
(`CallTable.chainsToSinks_ne_nil_iff`), and a shortest one unless it stops early
(`CallTable.chainsToSinks_isFewest`).

Key definitions: `CallTable.SinkAway`.
Key theorems: `CallTable.exists_sinkChain`, `CallTable.mem_sinksFrom`,
`CallTable.chainsToSinks_ne_nil_iff`, `CallTable.chainsToSinks_isFewest`,
`CallTable.sinkAway_lt_known`.
-/
import Mathlib.Data.Nat.Find
import TaintGraph.Proofs.Table.LiveChain
import TaintGraph.Proofs.Walk.Enumeration

namespace TaintGraph

open Std (TreeMap)

namespace CallTable

/-- A sink other than `root` is `n` hops from the ID. -/
def SinkAway (t : CallTable) (root : String) (n : ℕ) (id : String) : Prop :=
  ∃ b, b ≠ root ∧ t.HasRole .sink b ∧ t.Linked n id b

variable {t : CallTable} {root id : String} {n k maxPaths : ℕ} {chain : List String}

theorem SinkAway.contains (h : t.SinkAway root n id) : t.contains id = true := by
  obtain ⟨b, -, -, hlinked⟩ := h
  exact hlinked.contains_left

theorem isSink_iff : t.isSink id = true ↔ t.HasRole .sink id := by
  simp [isSink, HasRole, Callable.isSink, Option.any_eq_true]

theorem mem_sinksFrom {b : String} :
    b ∈ t.sinksFrom root ↔ b ≠ root ∧ t.HasRole .sink b ∧ ∃ n, t.Linked n root b := by
  have hvisit : b ∈ (t.reachFrom root).visits ↔ ∃ n, t.Linked n root b := by
    rw [TreeMap.mem_iff_isSome_getElem?, ← (t.distance?_isFewest root b).isSome_iff, distance?_eq,
      Option.isSome_map]
  rw [sinksFrom, List.mem_filter, TreeMap.mem_keys, hvisit, decide_eq_true_eq, isSink_iff]
  tauto

theorem ordered_sinksFrom (t : CallTable) (root : String) :
    (t.sinksFrom root).Pairwise fun a b => compare a b = .lt :=
  TreeMap.ordered_keys.filter _

theorem sinksFrom_ne_nil_iff : t.sinksFrom root ≠ [] ↔ ∃ n, t.SinkAway root n root := by
  rw [← List.isEmpty_eq_false_iff, List.isEmpty_eq_false_iff_exists_mem]
  simp only [mem_sinksFrom, SinkAway]
  constructor
  · intro hreach
    obtain ⟨b, hne, hsink, n, hn⟩ := hreach
    exact ⟨n, b, hne, hsink, hn⟩
  · intro haway
    obtain ⟨n, b, hne, hsink, hn⟩ := haway
    exact ⟨b, hne, hsink, n, hn⟩

/-! ### What completes a chain in a table -/

theorem known_of_sinkChain {seen tail : List String}
    (h : SinkChain t.successors t.isSink seen id tail) : ∀ x ∈ tail, t.contains x = true := by
  induction tail generalizing seen id with
  | nil => exact fun x hx => absurd hx List.not_mem_nil
  | cons c tail ih =>
    obtain ⟨hc, -, ⟨-, rfl⟩ | ⟨-, h⟩⟩ := SinkChain.cons_iff.1 h
    · simpa using (mem_successors.1 hc).2
    · intro x hx
      rcases List.mem_cons.1 hx with rfl | hx
      · exact (mem_successors.1 hc).2
      · exact ih h x hx

theorem sinkAway_of_sinkChain {seen tail : List String} (hid : t.contains id = true)
    (hroot : root ∈ seen) (h : SinkChain t.successors t.isSink seen id tail) :
    t.SinkAway root tail.length id := by
  obtain ⟨front, b, rfl, hsink, -⟩ := h.last
  refine ⟨b, fun he => ?_, isSink_iff.1 hsink, id :: (front ++ [b]), ⟨rfl, ?_, ?_, ?_⟩, rfl⟩
  · exact h.fresh b (by simp) (he ▸ hroot)
  · rw [← List.cons_append, List.getLast?_append]
    rfl
  · intro x hx
    rcases List.mem_cons.1 hx with rfl | hx
    · exact hid
    · exact known_of_sinkChain h x hx
  · exact h.joined.imp fun a b hab => (mem_successors.1 hab).1

/-- **A nearest sink is reached by a chain that a walk tries.** When a sink other
than `root` is `n + 1` hops from an ID and none is nearer, and all that was seen is
further away from such sinks than the next hop, some chain of `n + 1` hops meets
nothing that was seen, no ID twice, and no sink before its end. -/
theorem exists_sinkChain {seen : List String} (hroot : root ∈ seen)
    (hleast : IsLeast {m | t.SinkAway root m id} (n + 1))
    (hseen : ∀ y ∈ seen, ∀ m, t.SinkAway root m y → n < m) :
    ∃ tail, tail.length = n + 1 ∧ SinkChain t.successors t.isSink seen id tail := by
  induction n generalizing id seen with
  | zero =>
    obtain ⟨⟨b, hne, hsink, hlinked⟩, -⟩ := hleast
    obtain ⟨-, hb, hcall⟩ := linked_one.1 hlinked
    have hnew : b ∉ seen := fun hmem =>
      absurd (hseen b hmem 0 ⟨b, hne, hsink, linked_zero.2 ⟨rfl, hb⟩⟩) (Nat.lt_irrefl 0)
    refine ⟨[b], rfl, SinkChain.cons_iff.2 ⟨mem_successors.2 ⟨hcall, hb⟩, hnew, ?_⟩⟩
    exact Or.inl ⟨isSink_iff.2 hsink, rfl⟩
  | succ n ih =>
    obtain ⟨⟨b, hne, hsink, hlinked⟩, hmin⟩ := hleast
    obtain ⟨c, hid, hcall, hrest⟩ := linked_succ_left.1 hlinked
    have hc : t.contains c = true := hrest.contains_left
    -- The next ID is exactly one hop closer, so it is not among what was seen.
    have hcloser : IsLeast {m | t.SinkAway root m c} (n + 1) := by
      refine ⟨⟨b, hne, hsink, hrest⟩, fun m hm => ?_⟩
      obtain ⟨b', hne', hsink', hlinked'⟩ := hm
      have hle := hmin ⟨b', hne', hsink', linked_succ_left.2 ⟨c, hid, hcall, hlinked'⟩⟩
      omega
    have hnew : c ∉ seen := fun hmem =>
      absurd (hseen c hmem (n + 1) hcloser.1) (Nat.lt_irrefl _)
    have hpass : t.isSink c = false := by
      by_contra hsink'
      have hcroot : c ≠ root := fun he => hnew (he ▸ hroot)
      have hzero : t.SinkAway root 0 c :=
        ⟨c, hcroot, isSink_iff.1 (by simpa using hsink'), linked_zero.2 ⟨rfl, hc⟩⟩
      exact absurd (hcloser.2 hzero) (by omega)
    have hseen' : ∀ y ∈ c :: seen, ∀ m, t.SinkAway root m y → n < m := by
      intro y hy m hm
      rcases List.mem_cons.1 hy with rfl | hy
      · exact hcloser.2 hm
      · have := hseen y hy m hm
        omega
    obtain ⟨tail, hlen, htail⟩ := ih (List.mem_cons_of_mem _ hroot) hcloser hseen'
    refine ⟨c :: tail, by rw [List.length_cons, hlen], SinkChain.cons_iff.2 ⟨?_, hnew, ?_⟩⟩
    · exact mem_successors.2 ⟨hcall, hc⟩
    · exact Or.inr ⟨hpass, htail⟩

/-- From its own root, a nearest other sink is reached by a chain of the fewest hops
that a walk tries. -/
theorem exists_sinkChain_root (hleast : IsLeast {m | t.SinkAway root m root} n) :
    ∃ tail, tail.length = n ∧ SinkChain t.successors t.isSink [root] root tail := by
  cases n with
  | zero =>
    obtain ⟨b, hne, -, hlinked⟩ := hleast.1
    exact absurd (linked_zero.1 hlinked).1.symm hne
  | succ n =>
    refine exists_sinkChain List.mem_cons_self hleast fun y hy m hm => ?_
    rw [List.mem_singleton.1 hy] at hm
    exact hleast.2 hm

/-! ### What a walk over a table finds -/

theorem chainsToSinks_eq (t : CallTable) (k maxPaths : ℕ) (hroot : t.contains root = true) :
    t.chainsToSinks k maxPaths root =
      (Walk.completions t.successors t.isSink k root []).take maxPaths := by
  rw [chainsToSinks, if_pos hroot, Walk.chains_eq_take]

/-- A walk that finds fewer chains than it may has found them all. -/
theorem chainsToSinks_eq_completions (hroot : t.contains root = true)
    (hlt : (t.chainsToSinks k maxPaths root).length < maxPaths) :
    t.chainsToSinks k maxPaths root = Walk.completions t.successors t.isSink k root [] := by
  rw [chainsToSinks_eq t k maxPaths hroot, List.length_take] at hlt
  rw [chainsToSinks_eq t k maxPaths hroot, List.take_of_length_le (by omega)]

/-- A chain that a walk finds leads to a sink other than its start, within the
hops allowed, through known IDs. -/
theorem sinkAway_of_mem_chainsToSinks (hchain : chain ∈ t.chainsToSinks k maxPaths root) :
    ∃ n ≤ k, chain.length = n + 1 ∧ t.SinkAway root n root ∧
      ∀ x ∈ chain, t.contains x = true := by
  by_cases hroot : t.contains root = true
  · rw [chainsToSinks_eq t k maxPaths hroot] at hchain
    obtain ⟨tail, rfl, hlen, htail⟩ := Walk.mem_completions.1 (List.mem_of_mem_take hchain)
    refine ⟨tail.length, hlen, by simp, ?_, fun x hx => ?_⟩
    · exact sinkAway_of_sinkChain hroot List.mem_cons_self htail
    · simp only [List.reverse_singleton, List.singleton_append, List.mem_cons] at hx
      rcases hx with rfl | hx
      · exact hroot
      · exact known_of_sinkChain htail x hx
  · rw [chainsToSinks, if_neg hroot] at hchain
    exact absurd hchain List.not_mem_nil

/-- A nearest other sink within the hops allowed is on the list of completions. -/
theorem exists_completion (hleast : IsLeast {m | t.SinkAway root m root} n) (hk : n ≤ k) :
    ∃ chain ∈ Walk.completions t.successors t.isSink k root [], chain.length = n + 1 := by
  obtain ⟨tail, hlen, htail⟩ := exists_sinkChain_root hleast
  refine ⟨root :: tail, Walk.mem_completions.2 ⟨tail, rfl, ?_, htail⟩, ?_⟩
  · omega
  · rw [List.length_cons, hlen]

theorem exists_least_sinkAway (h : t.SinkAway root n id) :
    ∃ m ≤ n, IsLeast {m | t.SinkAway root m id} m := by
  classical
  have hex : ∃ m, t.SinkAway root m id := ⟨n, h⟩
  exact ⟨Nat.find hex, Nat.find_min' hex h, Nat.find_spec hex, fun m hm => Nat.find_min' hex hm⟩

/-- A walk that may find a chain finds one just when some other sink is within the
hops allowed. -/
theorem chainsToSinks_ne_nil_iff (hpos : 0 < maxPaths) :
    t.chainsToSinks k maxPaths root ≠ [] ↔ ∃ n ≤ k, t.SinkAway root n root := by
  constructor
  · intro hne
    obtain ⟨chain, hchain⟩ := List.exists_mem_of_ne_nil _ hne
    obtain ⟨n, hn, -, haway, -⟩ := sinkAway_of_mem_chainsToSinks hchain
    exact ⟨n, hn, haway⟩
  · intro hbounded
    obtain ⟨n, hn, haway⟩ := hbounded
    obtain ⟨m, hm, hleast⟩ := exists_least_sinkAway haway
    obtain ⟨chain, hchain, -⟩ := exists_completion hleast (hm.trans hn)
    rw [chainsToSinks_eq t k maxPaths haway.contains, ne_eq, List.take_eq_nil_iff, not_or]
    exact ⟨by omega, List.ne_nil_of_mem hchain⟩

/-- A walk that finds chains, and fewer than it may, finds one of fewest hops. -/
theorem chainsToSinks_isFewest {d : Option ℕ}
    (hd : IsFewest (fun n => t.SinkAway root n root) d)
    (hne : t.chainsToSinks k maxPaths root ≠ [])
    (hlt : (t.chainsToSinks k maxPaths root).length < maxPaths) :
    IsFewest (fun n => ∃ chain ∈ t.chainsToSinks k maxPaths root, chain.length = n + 1) d := by
  obtain ⟨chain, hchain⟩ := List.exists_mem_of_ne_nil _ hne
  obtain ⟨n, hn, -, haway, -⟩ := sinkAway_of_mem_chainsToSinks hchain
  cases d with
  | none => exact absurd haway (hd n)
  | some d =>
    refine ⟨?_, fun m hm => ?_⟩
    · obtain ⟨shortest, hmem, hlen⟩ := exists_completion hd ((hd.2 haway).trans hn)
      refine ⟨shortest, ?_, hlen⟩
      rwa [chainsToSinks_eq_completions haway.contains hlt]
    · obtain ⟨chain, hchain, hlen⟩ := hm
      obtain ⟨n, -, hlen', haway, -⟩ := sinkAway_of_mem_chainsToSinks hchain
      obtain rfl : m = n := by omega
      exact hd.2 haway

/-- A nearest other sink is fewer hops away than there are callables. -/
theorem sinkAway_lt_known (hleast : IsLeast {m | t.SinkAway root m root} n) :
    n < t.known.length := by
  obtain ⟨tail, hlen, htail⟩ := exists_sinkChain_root hleast
  have hnodup : (root :: tail).Nodup :=
    List.nodup_cons.2 ⟨fun hmem => htail.fresh root hmem List.mem_cons_self, htail.nodup⟩
  have hsub : root :: tail ⊆ t.known := fun x hx => by
    rw [mem_known]
    rcases List.mem_cons.1 hx with rfl | hx
    · exact hleast.1.contains
    · exact known_of_sinkChain htail x hx
  have hle := (List.subperm_of_subset hnodup hsub).length_le
  rw [List.length_cons, hlen] at hle
  exact hle

/-! ### The IDs of what is answered -/

/-- Every reachable sink is answered by its callable. -/
theorem WellFormed.map_id_sinksFrom (h : t.WellFormed) (root : String) :
    (t.resolve (t.sinksFrom root)).map Callable.id = t.sinksFrom root := by
  rw [h.map_id_resolve, List.filter_eq_self]
  intro b hb
  obtain ⟨-, ⟨c, hc, -⟩, -⟩ := mem_sinksFrom.1 hb
  exact contains_iff.2 ⟨c, hc⟩

/-- Every ID of a chain is answered by its callable. -/
theorem WellFormed.map_id_chainsToSinks (h : t.WellFormed) (k maxPaths : ℕ) (root : String) :
    ((t.chainsToSinks k maxPaths root).map t.resolve).map (List.map Callable.id) =
      t.chainsToSinks k maxPaths root := by
  have hids : ∀ chain ∈ t.chainsToSinks k maxPaths root,
      (List.map Callable.id ∘ t.resolve) chain = chain := by
    intro chain hchain
    obtain ⟨-, -, -, -, hknown⟩ := sinkAway_of_mem_chainsToSinks hchain
    rw [Function.comp_apply, h.map_id_resolve, List.filter_eq_self.2 hknown]
  rw [List.map_map, List.map_congr_left hids, List.map_id']

end CallTable
end TaintGraph
