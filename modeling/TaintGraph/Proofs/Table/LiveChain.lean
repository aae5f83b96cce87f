/-
# Live chains and their hops

A chain of IDs is live when every ID on it has a callable and every two
neighbours are joined by a recorded call. `CallTable.Linked n a b` says that a
live chain of `n` hops leads from `a` to `b`; chains grow at either end
(`linked_succ_right`, `linked_succ_left`), which is how searches along the calls
and against them find them.

A search over a table gives the fewest hops of live chains, whichever way it goes
(`Counts.reach_isFewest`, `reachAll_isFewest`), and the chain it returns is a live
one of so many hops (`shortestChain?_liveChain`, `distance?_isFewest`).

Key definitions: `IsFewest`, `CallTable.LiveChain`, `CallTable.Linked`,
`CallTable.Counts`, `CallTable.Away`.
Key theorems: `CallTable.distance?_isFewest`, `CallTable.shortestChain?_liveChain`,
`CallTable.WellFormed.reachAll_isFewest`.
-/
import Mathlib.Data.List.Chain
import Mathlib.Order.Bounds.Basic
import TaintGraph.Proofs.Search.Levels
import TaintGraph.Proofs.Table.WellFormed

namespace TaintGraph

open Std (TreeMap TreeSet)

/-- The least number with a property; `none` when no number has it. -/
def IsFewest (P : ℕ → Prop) : Option ℕ → Prop
  | some d => IsLeast {n | P n} d
  | none => ∀ n, ¬ P n

namespace IsFewest

variable {P Q : ℕ → Prop} {d : Option ℕ}

theorem congr (h : ∀ n, P n ↔ Q n) (hd : IsFewest P d) : IsFewest Q d := by
  have hPQ : P = Q := funext fun n => propext (h n)
  exact hPQ ▸ hd

theorem eq_zero_iff (hd : IsFewest P d) : d = some 0 ↔ P 0 := by
  constructor
  · intro hzero
    rw [hzero] at hd
    exact hd.1
  · intro hzero
    cases d with
    | none => exact absurd hzero (hd 0)
    | some n =>
      have hle : n ≤ 0 := hd.2 hzero
      rw [Nat.le_zero.1 hle]

theorem eq_one_iff (hd : IsFewest P d) (hzero : ¬ P 0) : d = some 1 ↔ P 1 := by
  constructor
  · rintro rfl
    exact hd.1
  · intro hone
    cases d with
    | none => exact absurd hone (hd 1)
    | some n =>
      have hle : n ≤ 1 := hd.2 hone
      have hne : n ≠ 0 := fun h => hzero (h ▸ hd.1)
      congr 1
      omega

theorem isSome_iff (hd : IsFewest P d) : d.isSome ↔ ∃ n, P n := by
  cases d with
  | none =>
    have hnone : ∀ n, ¬ P n := hd
    simpa using hnone
  | some n => simpa using ⟨n, hd.1⟩

theorem exists_le_iff (hd : IsFewest P d) (k : ℕ) : (∃ n ≤ k, P n) ↔ ∃ n ≤ k, d = some n := by
  constructor
  · rintro ⟨n, hn, hP⟩
    cases d with
    | none => exact absurd hP (hd n)
    | some m => exact ⟨m, (hd.2 hP).trans hn, rfl⟩
  · rintro ⟨n, hn, rfl⟩
    exact ⟨n, hn, hd.1⟩

theorem unique {e : Option ℕ} (hd : IsFewest P d) (he : IsFewest P e) : d = e := by
  cases d with
  | none =>
    cases e with
    | none => rfl
    | some n => exact absurd he.1 (hd n)
  | some m =>
    cases e with
    | none => exact absurd hd.1 (he m)
    | some n => rw [IsLeast.unique hd he]

end IsFewest

theorem Search.Levelled.isFewest {next : String → List String} {seeds : List String} {s : Search}
    (h : s.Levelled next seeds) (hclosed : s.fresh = []) (id : String) :
    IsFewest (fun n => Search.Hops next seeds n id) ((s.visits[id]?).map Visit.depth) := by
  cases hv : s.visits[id]? with
  | none =>
    intro n hn
    obtain ⟨u, hu, -⟩ := h.exists_visit hclosed hn
    rw [hv] at hu
    cases hu
  | some v =>
    refine ⟨h.hops hv, fun n hn => ?_⟩
    obtain ⟨u, hu, hle⟩ := h.exists_visit hclosed hn
    rw [hv] at hu
    cases hu
    exact hle

namespace CallTable

/-- A chain of IDs from `a` to `b`: each of them has a callable, and a call is
recorded from each to the next. -/
structure LiveChain (t : CallTable) (a b : String) (chain : List String) : Prop where
  head : chain.head? = some a
  last : chain.getLast? = some b
  known : ∀ id ∈ chain, t.contains id = true
  joined : chain.IsChain t.Calls

/-- A live chain of `n` hops leads from `a` to `b`. -/
def Linked (t : CallTable) (n : ℕ) (a b : String) : Prop :=
  ∃ chain, t.LiveChain a b chain ∧ chain.length = n + 1

variable {t : CallTable} {n : ℕ} {a b c : String}

theorem LiveChain.length_pos {chain : List String} (h : t.LiveChain a b chain) :
    0 < chain.length := by
  cases chain with
  | nil => cases h.head
  | cons id chain => exact Nat.succ_pos _

theorem LiveChain.cons {rest : List String} (h : t.LiveChain b c (b :: rest))
    (ha : t.contains a = true) (hcall : t.Calls a b) : t.LiveChain a c (a :: b :: rest) where
  head := rfl
  last := h.last
  known := List.forall_mem_cons.2 ⟨ha, h.known⟩
  joined := List.isChain_cons_cons.2 ⟨hcall, h.joined⟩

theorem linked_zero : t.Linked 0 a b ↔ a = b ∧ t.contains a = true := by
  constructor
  · rintro ⟨chain, h, hlen⟩
    obtain ⟨x, rfl⟩ := List.length_eq_one_iff.1 hlen
    obtain rfl : x = a := by simpa using h.head
    obtain rfl : x = b := by simpa using h.last
    exact ⟨rfl, h.known x (by simp)⟩
  · rintro ⟨rfl, ha⟩
    exact ⟨[a], ⟨rfl, rfl, by simpa using ha, List.isChain_singleton a⟩, rfl⟩

theorem linked_succ_right :
    t.Linked (n + 1) a c ↔ ∃ b, t.Linked n a b ∧ t.Calls b c ∧ t.contains c = true := by
  constructor
  · rintro ⟨chain, h, hlen⟩
    obtain ⟨front, rfl⟩ := List.getLast?_eq_some_iff.1 h.last
    rw [List.length_append, List.length_singleton, Nat.add_right_cancel_iff] at hlen
    have hne : front ≠ [] := List.ne_nil_of_length_pos (by omega)
    obtain ⟨b, hb⟩ := Option.isSome_iff_exists.1 (List.getLast?_isSome.2 hne)
    have hjoined := List.isChain_append.1 h.joined
    refine ⟨b, ⟨front, ⟨?_, hb, fun id hid => h.known id (by simp [hid]), hjoined.1⟩, hlen⟩, ?_, ?_⟩
    · have hhead := h.head
      rwa [List.head?_append_of_ne_nil _ hne] at hhead
    · exact hjoined.2.2 b hb c rfl
    · exact h.known c (by simp)
  · rintro ⟨b, ⟨chain, h, hlen⟩, hcall, hc⟩
    have hne : chain ≠ [] := List.ne_nil_of_length_pos (by omega)
    refine ⟨chain ++ [c], ⟨?_, by simp, ?_, ?_⟩, by simp [hlen]⟩
    · rw [List.head?_append_of_ne_nil _ hne, h.head]
    · intro id hid
      rcases List.mem_append.1 hid with hid | hid
      · exact h.known id hid
      · rw [List.mem_singleton.1 hid]
        exact hc
    · refine List.isChain_append.2 ⟨h.joined, List.isChain_singleton c, fun x hx y hy => ?_⟩
      rw [h.last] at hx
      cases hx
      cases hy
      exact hcall

theorem linked_succ_left :
    t.Linked (n + 1) a c ↔ ∃ b, t.contains a = true ∧ t.Calls a b ∧ t.Linked n b c := by
  -- Chains were taken apart at their end already; the induction moves that to the front.
  induction n generalizing c with
  | zero =>
    rw [linked_succ_right]
    simp only [linked_zero]
    constructor
    · rintro ⟨b, ⟨rfl, ha⟩, hcall, hc⟩
      exact ⟨c, ha, hcall, rfl, hc⟩
    · rintro ⟨b, ha, hcall, rfl, hb⟩
      exact ⟨a, ⟨rfl, ha⟩, hcall, hb⟩
  | succ n ih =>
    rw [linked_succ_right]
    constructor
    · rintro ⟨x, hx, hcall, hc⟩
      obtain ⟨b, ha, hab, hbx⟩ := ih.1 hx
      exact ⟨b, ha, hab, linked_succ_right.2 ⟨x, hbx, hcall, hc⟩⟩
    · rintro ⟨b, ha, hab, hbc⟩
      obtain ⟨x, hbx, hcall, hc⟩ := linked_succ_right.1 hbc
      exact ⟨x, ih.2 ⟨b, ha, hab, hbx⟩, hcall, hc⟩

theorem Linked.contains_left (h : t.Linked n a b) : t.contains a = true := by
  cases n with
  | zero => exact (linked_zero.1 h).2
  | succ n =>
    obtain ⟨x, ha, -⟩ := linked_succ_left.1 h
    exact ha

theorem Linked.contains_right (h : t.Linked n a b) : t.contains b = true := by
  cases n with
  | zero =>
    obtain ⟨rfl, ha⟩ := linked_zero.1 h
    exact ha
  | succ n =>
    obtain ⟨x, -, -, hb⟩ := linked_succ_right.1 h
    exact hb

theorem linked_one :
    t.Linked 1 a b ↔ t.contains a = true ∧ t.contains b = true ∧ t.Calls a b := by
  rw [linked_succ_right]
  simp only [linked_zero]
  constructor
  · rintro ⟨x, ⟨rfl, ha⟩, hcall, hb⟩
    exact ⟨ha, hb, hcall⟩
  · rintro ⟨ha, hb, hcall⟩
    exact ⟨a, ⟨rfl, ha⟩, hcall, hb⟩

/-! ### Searches over a table -/

/-- `L n a b` says that `n` hops along `next` lead from the known ID `a` to `b`. -/
structure Counts (t : CallTable) (next : String → List String)
    (L : ℕ → String → String → Prop) : Prop where
  zero : ∀ {a b}, L 0 a b ↔ a = b ∧ t.contains a = true
  succ : ∀ {n a c}, L (n + 1) a c ↔ ∃ b, L n a b ∧ c ∈ next b
  known : ∀ {a b}, b ∈ next a → t.contains b = true

/-- The ID is `n` hops away from the seed: a live chain of so many hops leads from the
seed to it, or from it to the seed when hops to a sink are counted. -/
def Away (t : CallTable) (d : Direction) (n : ℕ) (seed id : String) : Prop :=
  match d with
  | .fromEntry => t.Linked n seed id
  | .toSink => t.Linked n id seed

theorem counts_successors (t : CallTable) : t.Counts t.successors t.Linked where
  zero := linked_zero
  succ := by simp only [linked_succ_right, mem_successors, implies_true]
  known := contains_of_mem_successors

/-- Against the calls, live chains are counted from their far end. -/
theorem WellFormed.counts_predecessors (h : t.WellFormed) :
    t.Counts t.predecessors fun n b a => t.Linked n a b where
  zero := by
    intro b a
    rw [linked_zero]
    exact ⟨fun ⟨hab, ha⟩ => ⟨hab.symm, hab ▸ ha⟩, fun ⟨hba, hb⟩ => ⟨hba.symm, hba ▸ hb⟩⟩
  succ := by
    intro n c a
    simp only [linked_succ_left, h.mem_predecessors]
    exact exists_congr fun b => ⟨fun ⟨ha, hab, hbc⟩ => ⟨hbc, hab, ha⟩,
      fun ⟨hbc, hab, ha⟩ => ⟨ha, hab, hbc⟩⟩
  known := fun ha => (h.mem_predecessors.1 ha).2

theorem WellFormed.counts (h : t.WellFormed) (d : Direction) :
    t.Counts (t.further d) (t.Away d) := by
  cases d with
  | fromEntry => exact t.counts_successors
  | toSink => exact h.counts_predecessors

section Counts

variable {next : String → List String} {L : ℕ → String → String → Prop}

theorem Counts.contains_left (h : t.Counts next L) (hab : L n a b) : t.contains a = true := by
  induction n generalizing b with
  | zero => exact (h.zero.1 hab).2
  | succ n ih =>
    obtain ⟨x, hax, -⟩ := h.succ.1 hab
    exact ih hax

/-- The steps of a search are the hops. -/
theorem Counts.hops (h : t.Counts next L) {seeds : List String}
    (hseeds : ∀ id ∈ seeds, t.contains id = true) :
    Search.Hops next seeds n b ↔ ∃ a ∈ seeds, L n a b := by
  induction n generalizing b with
  | zero =>
    constructor
    · rintro (hb | _)
      exact ⟨b, hb, h.zero.2 ⟨rfl, hseeds b hb⟩⟩
    · rintro ⟨a, ha, hab⟩
      obtain ⟨rfl, -⟩ := h.zero.1 hab
      exact .seed ha
  | succ n ih =>
    constructor
    · rintro (_ | ⟨hx, hb⟩)
      obtain ⟨a, ha, hax⟩ := ih.1 hx
      exact ⟨a, ha, h.succ.2 ⟨_, hax, hb⟩⟩
    · rintro ⟨a, ha, hab⟩
      obtain ⟨x, hax, hb⟩ := h.succ.1 hab
      exact .step (ih.2 ⟨a, ha, hax⟩) hb

end Counts

theorem reach_levelled (t : CallTable) (next : String → List String) (seeds : List String) :
    (t.reach next seeds).Levelled next (seeds.filter t.contains) :=
  (Search.Levelled.start _ _).run _

theorem reach_closed {next : String → List String}
    (hnext : ∀ {a b}, b ∈ next a → t.contains b = true) (seeds : List String) :
    (t.reach next seeds).fresh = [] := by
  have hids : ∀ n id, Search.Hops next (seeds.filter t.contains) n id → id ∈ t.rows.keys := by
    intro n id hn
    rw [TreeMap.mem_keys]
    cases hn with
    | seed hid => exact mem_rows_of_contains (List.mem_filter.1 hid).2
    | step _ hid => exact mem_rows_of_contains (hnext hid)
  have hclosed := Search.run_closed hids
  rwa [TreeMap.length_keys] at hclosed

/-- A search finds the fewest hops from its seeds. -/
theorem Counts.reach_isFewest {next : String → List String} {L : ℕ → String → String → Prop}
    (h : t.Counts next L) (seeds : List String) (b : String) :
    IsFewest (fun n => ∃ a ∈ seeds, L n a b)
      (((t.reach next seeds).visits[b]?).map Visit.depth) := by
  have hclosed : (t.reach next seeds).fresh = [] := reach_closed h.known seeds
  refine ((t.reach_levelled _ _).isFewest hclosed b).congr fun n => ?_
  rw [h.hops fun id hid => (List.mem_filter.1 hid).2]
  constructor
  · rintro ⟨a, ha, hab⟩
    exact ⟨a, List.mem_of_mem_filter ha, hab⟩
  · rintro ⟨a, ha, hab⟩
    exact ⟨a, List.mem_filter.2 ⟨ha, h.contains_left hab⟩, hab⟩

/-- The search in a direction finds the fewest hops of live chains that join an ID to
a callable of the direction's role. -/
theorem WellFormed.reachAll_isFewest (h : t.WellFormed) (d : Direction) (id : String) :
    IsFewest (fun n => ∃ seed, t.HasRole d.role seed ∧ t.Away d n seed id)
      (((t.reachAll d).visits[id]?).map Visit.depth) := by
  refine ((h.counts d).reach_isFewest (t.seeds d).toList id).congr fun n => ?_
  simp only [h.mem_seeds]

theorem distance?_eq (t : CallTable) (a b : String) :
    t.distance? a b = ((t.reachFrom a).visits[b]?).map Visit.depth := by
  rw [distance?, shortestChain?, Search.chainTo?, Option.map_map]
  cases hv : (t.reachFrom a).visits[b]? with
  | none => rfl
  | some v =>
    have hlen := (t.reach_levelled t.successors [a]).length_climb hv rfl []
    simp only [Option.map_some, Function.comp_apply, Option.some.injEq]
    rw [reachFrom, hlen, List.length_nil]
    omega

/-- The length of the shortest chain is the fewest hops of any live chain. -/
theorem distance?_isFewest (t : CallTable) (a b : String) :
    IsFewest (fun n => t.Linked n a b) (t.distance? a b) := by
  rw [distance?_eq]
  refine (t.counts_successors.reach_isFewest [a] b).congr fun n => ?_
  simp

/-- A shortest chain is live: climbing puts a known ID before one that it calls. -/
theorem shortestChain?_liveChain {chain : List String} (h : t.shortestChain? a b = some chain) :
    t.LiveChain a b chain := by
  rw [shortestChain?, Search.chainTo?, Option.map_eq_some_iff] at h
  obtain ⟨v, hv, rfl⟩ := h
  have hlevels := t.reach_levelled t.successors [a]
  have hknown : ∀ {n id}, Search.Hops t.successors ([a].filter t.contains) n id →
      t.contains id = true := fun hn => by
    obtain ⟨x, -, hx⟩ := (t.counts_successors.hops fun id hid => (List.mem_filter.1 hid).2).1 hn
    exact hx.contains_right
  have hlast : t.LiveChain b b [b] :=
    ⟨rfl, rfl, by simpa using hknown (hlevels.hops hv), List.isChain_singleton b⟩
  obtain ⟨seed, hseed, rest, heq, hchain⟩ := hlevels.climb_induction
    (P := fun _ id rest => t.LiveChain id b (id :: rest))
    (fun hn hcall hrest => hrest.cons (hknown hn) (mem_successors.1 hcall).1) hv rfl hlast
  obtain rfl : seed = a := by simpa using List.mem_of_mem_filter hseed
  exact heq ▸ hchain

/-- A shortest chain has one ID more than hops. -/
theorem length_shortestChain? (t : CallTable) (a b : String) :
    (t.shortestChain? a b).map List.length = (t.distance? a b).map (· + 1) := by
  rw [distance?, Option.map_map]
  refine Option.map_congr fun chain hchain => ?_
  have hpos := (shortestChain?_liveChain hchain).length_pos
  rw [Function.comp_apply]
  omega

end CallTable
end TaintGraph
