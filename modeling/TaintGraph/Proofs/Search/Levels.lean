/-
# A search measures the hops from its seeds

`Search.Hops next seeds n id` says that `n` steps along `next` lead from some
seed to `id`. After `n` whole levels a search has visited the IDs that at most
`n` steps reach, each with the fewest steps (`Search.Levelled`): this holds of
the seeds alone and every level keeps it. A level that finds nothing closes the
search; since every level before it finds an ID, a search over `k` IDs is closed
after `k` levels (`Search.run_closed`).

A level gives an ID that it finds the first ID of the level before that leads to
it as parent (`Search.visits_expandAll`), so parents lead back to a seed in as
many steps as the depth says (`Search.Levelled.climb_induction`). The chain to an
ID on the way is the beginning of the whole (`Search.Levelled.chainTo?_of_front`).

Key definitions: `Search.Hops`, `Search.Levelled`.
Key theorems: `Search.Levelled.advance`, `Search.run_closed`,
`Search.Levelled.exists_visit`, `Search.Levelled.climb_induction`,
`Search.Levelled.chainTo?_of_front`.
-/
import Mathlib.Data.List.Perm.Subperm
import TaintGraph.Search

namespace TaintGraph
namespace Search

open Std (TreeMap)

/-- `n` steps along `next` lead from a seed to the ID. -/
inductive Hops (next : String → List String) (seeds : List String) : ℕ → String → Prop
  | seed {id : String} : id ∈ seeds → Hops next seeds 0 id
  | step {n : ℕ} {a b : String} : Hops next seeds n a → b ∈ next a → Hops next seeds (n + 1) b

variable {next : String → List String} {seeds : List String} {s : Search} {id : String}

/-! ### What is visited -/

theorem mem_visits_iff : id ∈ s.visits ↔ ∃ v, s.visits[id]? = some v := by
  rw [TreeMap.mem_iff_isSome_getElem?, Option.isSome_iff_exists]

theorem discover_depth (parent : Option String) (s : Search) (id : String) :
    (s.discover parent id).depth = s.depth := by
  unfold discover
  split_ifs <;> rfl

theorem visits_discover (parent : Option String) (s : Search) (a id : String) :
    (s.discover parent a).visits[id]? =
      (s.visits[id]?).or (if id = a then some ⟨s.depth, parent⟩ else none) := by
  unfold discover
  split_ifs with ha hid hid
  · subst hid
    obtain ⟨v, hv⟩ := mem_visits_iff.1 ha
    rw [hv, Option.some_or]
  · rw [Option.or_none]
  · subst hid
    rw [TreeMap.getElem?_eq_none ha, Option.none_or]
    simp
  · have hne : ¬ a = id := fun he => hid he.symm
    simp [TreeMap.getElem?_insert, hne]

theorem mem_visits_discover (parent : Option String) (s : Search) (a : String) :
    id ∈ (s.discover parent a).visits ↔ id ∈ s.visits ∨ id = a := by
  rw [TreeMap.mem_iff_isSome_getElem?, visits_discover, Option.isSome_or,
    TreeMap.mem_iff_isSome_getElem?]
  by_cases ha : id = a <;> simp [ha]

theorem mem_fresh_discover (parent : Option String) (s : Search) (a : String) :
    id ∈ (s.discover parent a).fresh ↔ id ∈ s.fresh ∨ (id ∉ s.visits ∧ id = a) := by
  unfold discover
  split_ifs with ha
  · constructor
    · exact .inl
    · rintro (hid | ⟨hn, rfl⟩)
      · exact hid
      · exact absurd ha hn
  · rw [List.mem_cons]
    constructor
    · rintro (rfl | hid)
      · exact .inr ⟨ha, rfl⟩
      · exact .inl hid
    · rintro (hid | ⟨-, rfl⟩)
      · exact .inr hid
      · exact .inl rfl

theorem discoverAll_depth (parent : Option String) (s : Search) (ids : List String) :
    (ids.foldl (discover parent) s).depth = s.depth := by
  induction ids generalizing s with
  | nil => rfl
  | cons a ids ih => rw [List.foldl_cons, ih, discover_depth]

/-- Visiting a list gives every ID of it the depth of the search, unless it was
visited before. -/
theorem visits_discoverAll (parent : Option String) (s : Search) (ids : List String)
    (id : String) :
    (ids.foldl (discover parent) s).visits[id]? =
      (s.visits[id]?).or (if id ∈ ids then some ⟨s.depth, parent⟩ else none) := by
  induction ids generalizing s with
  | nil => simp
  | cons a ids ih =>
    rw [List.foldl_cons, ih, visits_discover, discover_depth, Option.or_assoc]
    congr 1
    by_cases ha : id = a
    · simp [ha]
    · simp [ha]

theorem mem_visits_discoverAll (parent : Option String) (s : Search) (ids : List String) :
    id ∈ (ids.foldl (discover parent) s).visits ↔ id ∈ s.visits ∨ id ∈ ids := by
  rw [TreeMap.mem_iff_isSome_getElem?, visits_discoverAll, Option.isSome_or,
    TreeMap.mem_iff_isSome_getElem?]
  by_cases hid : id ∈ ids <;> simp [hid]

theorem mem_fresh_discoverAll (parent : Option String) (s : Search) (ids : List String) :
    id ∈ (ids.foldl (discover parent) s).fresh ↔ id ∈ s.fresh ∨ (id ∉ s.visits ∧ id ∈ ids) := by
  induction ids generalizing s with
  | nil => simp
  | cons a ids ih =>
    rw [List.foldl_cons, ih, mem_fresh_discover, mem_visits_discover, List.mem_cons]
    tauto

theorem expandAll_depth (next : String → List String) (s : Search) (level : List String) :
    (level.foldl (expand next) s).depth = s.depth := by
  induction level generalizing s with
  | nil => rfl
  | cons p level ih => rw [List.foldl_cons, ih, expand, discoverAll_depth]

/-- Expanding a level gives every new ID the first of its members that leads to
it as parent. -/
theorem visits_expandAll (next : String → List String) (s : Search) (level : List String)
    (id : String) :
    (level.foldl (expand next) s).visits[id]? =
      (s.visits[id]?).or
        ((level.find? fun p => id ∈ next p).map fun p => ⟨s.depth, some p⟩) := by
  induction level generalizing s with
  | nil => simp
  | cons p level ih =>
    rw [List.foldl_cons, ih, expand, visits_discoverAll, discoverAll_depth, Option.or_assoc,
      List.find?_cons]
    congr 1
    by_cases hp : id ∈ next p
    · simp [hp]
    · simp [hp]

theorem mem_fresh_expandAll (next : String → List String) (s : Search) (level : List String) :
    id ∈ (level.foldl (expand next) s).fresh ↔
      id ∈ s.fresh ∨ (id ∉ s.visits ∧ ∃ p ∈ level, id ∈ next p) := by
  induction level generalizing s with
  | nil => simp
  | cons p level ih =>
    rw [List.foldl_cons, ih, expand, mem_visits_discoverAll, mem_fresh_discoverAll]
    simp only [List.mem_cons, exists_eq_or_imp]
    tauto

theorem start_depth (seeds : List String) : (start seeds).depth = 0 :=
  discoverAll_depth none {} seeds

theorem visits_start (seeds : List String) (id : String) :
    (start seeds).visits[id]? = if id ∈ seeds then some ⟨0, none⟩ else none := by
  rw [start, visits_discoverAll]
  simp

theorem mem_fresh_start : id ∈ (start seeds).fresh ↔ id ∈ seeds := by
  rw [start, mem_fresh_discoverAll]
  simp

theorem advance_depth (next : String → List String) (s : Search) :
    (s.advance next).depth = s.depth + 1 :=
  expandAll_depth _ _ _

theorem visits_advance (next : String → List String) (s : Search) (id : String) :
    (s.advance next).visits[id]? =
      (s.visits[id]?).or
        ((s.fresh.reverse.find? fun p => id ∈ next p).map fun p => ⟨s.depth + 1, some p⟩) :=
  visits_expandAll _ _ _ _

theorem mem_fresh_advance :
    id ∈ (s.advance next).fresh ↔ id ∉ s.visits ∧ ∃ p ∈ s.fresh, id ∈ next p := by
  rw [advance, mem_fresh_expandAll]
  simp

/-! ### Whole levels -/

/-- The search has visited what its depth allows, each ID by fewest hops; its
fresh IDs are those of the last level; parents lie one level up. -/
structure Levelled (next : String → List String) (seeds : List String) (s : Search) : Prop where
  hops : ∀ {id : String} {v : Visit}, s.visits[id]? = some v → Hops next seeds v.depth id
  depth_le : ∀ {id : String} {v : Visit}, s.visits[id]? = some v → v.depth ≤ s.depth
  reached : ∀ {n : ℕ} {id : String}, Hops next seeds n id → n ≤ s.depth →
    ∃ v, s.visits[id]? = some v ∧ v.depth ≤ n
  fresh_iff : ∀ {id : String}, id ∈ s.fresh ↔ ∃ v, s.visits[id]? = some v ∧ v.depth = s.depth
  root : ∀ {id : String} {v : Visit}, s.visits[id]? = some v → v.parent = none → v.depth = 0
  parent : ∀ {id p : String} {v : Visit}, s.visits[id]? = some v → v.parent = some p →
    id ∈ next p ∧ ∃ u, s.visits[p]? = some u ∧ v.depth = u.depth + 1

theorem Levelled.start (next : String → List String) (seeds : List String) :
    Levelled next seeds (start seeds) := by
  have hvisit : ∀ {id : String} {v : Visit},
      (Search.start seeds).visits[id]? = some v → id ∈ seeds ∧ v = ⟨0, none⟩ := by
    intro id v hv
    rw [visits_start] at hv
    split_ifs at hv with hid
    exact ⟨hid, (Option.some.inj hv).symm⟩
  refine ⟨fun hv => ?_, fun hv => ?_, fun hn hle => ?_, ?_, fun hv _ => ?_, fun hv hp => ?_⟩
  · obtain ⟨hid, rfl⟩ := hvisit hv
    exact .seed hid
  · rw [(hvisit hv).2]
    exact Nat.zero_le _
  · rw [start_depth, Nat.le_zero] at hle
    subst hle
    cases hn with
    | seed hid => exact ⟨⟨0, none⟩, by rw [visits_start, if_pos hid], Nat.le_refl _⟩
  · intro id
    rw [mem_fresh_start, start_depth]
    constructor
    · intro hid
      exact ⟨⟨0, none⟩, by rw [visits_start, if_pos hid], rfl⟩
    · rintro ⟨v, hv, -⟩
      exact (hvisit hv).1
  · rw [(hvisit hv).2]
  · rw [(hvisit hv).2] at hp
    cases hp

/-- What a level adds: an ID not visited before, whose parent is fresh. -/
theorem visits_advance_cases {v : Visit} (h : (s.advance next).visits[id]? = some v) :
    s.visits[id]? = some v ∨
      (s.visits[id]? = none ∧ ∃ p ∈ s.fresh, id ∈ next p ∧ v = ⟨s.depth + 1, some p⟩) := by
  rw [visits_advance] at h
  cases hid : s.visits[id]? with
  | some u =>
    rw [hid, Option.some_or] at h
    exact .inl h
  | none =>
    rw [hid, Option.none_or] at h
    obtain ⟨p, hp, rfl⟩ := Option.map_eq_some_iff.1 h
    have hmem := List.mem_of_find?_eq_some hp
    have hnext := List.find?_some hp
    exact .inr ⟨rfl, p, List.mem_reverse.1 hmem, by simpa using hnext, rfl⟩

theorem visits_advance_of_some {v : Visit} (h : s.visits[id]? = some v) :
    (s.advance next).visits[id]? = some v := by
  rw [visits_advance, h, Option.some_or]

theorem visits_advance_of_none {p : String} (h : s.visits[id]? = none) (hp : p ∈ s.fresh)
    (hid : id ∈ next p) : ∃ v, (s.advance next).visits[id]? = some v ∧ v.depth = s.depth + 1 := by
  have hfind : (s.fresh.reverse.find? fun p => id ∈ next p).isSome := by
    rw [List.find?_isSome]
    exact ⟨p, List.mem_reverse.2 hp, by simpa using hid⟩
  obtain ⟨q, hq⟩ := Option.isSome_iff_exists.1 hfind
  refine ⟨⟨s.depth + 1, some q⟩, ?_, rfl⟩
  rw [visits_advance, h, hq]
  rfl

theorem Levelled.advance (h : Levelled next seeds s) : Levelled next seeds (s.advance next) := by
  -- An ID one step from a fresh ID is visited, at the new depth or before.
  have hstep : ∀ {a b : String}, a ∈ s.fresh → b ∈ next a →
      ∃ v : Visit, (s.advance next).visits[b]? = some v ∧ v.depth ≤ s.depth + 1 := by
    intro a b ha hb
    cases hv : s.visits[b]? with
    | some v => exact ⟨v, visits_advance_of_some hv, Nat.le_succ_of_le (h.depth_le hv)⟩
    | none =>
      obtain ⟨v, hv', hd⟩ := visits_advance_of_none hv ha hb
      exact ⟨v, hv', Nat.le_of_eq hd⟩
  refine ⟨fun hv => ?_, fun hv => ?_, fun {n id} hn hle => ?_, ?_, fun hv hp => ?_, fun hv hp => ?_⟩
  · obtain hold | ⟨-, p, hp, hid, rfl⟩ := visits_advance_cases hv
    · exact h.hops hold
    · obtain ⟨u, hu, hd⟩ := h.fresh_iff.1 hp
      exact .step (hd ▸ h.hops hu) hid
  · rw [advance_depth]
    obtain hold | ⟨-, p, -, -, rfl⟩ := visits_advance_cases hv
    · exact Nat.le_succ_of_le (h.depth_le hold)
    · exact Nat.le_refl _
  · rw [advance_depth] at hle
    rcases Nat.lt_or_ge s.depth n with hlt | hge
    · -- The last hop leaves an ID of the last level, or one that was passed before.
      obtain rfl : n = s.depth + 1 := by omega
      cases hn with
      | step ha hb =>
        obtain ⟨u, hu, hd⟩ := h.reached ha (Nat.le_refl _)
        rcases Nat.lt_or_ge u.depth s.depth with hud | hud
        · obtain ⟨v, hv, hvd⟩ := h.reached (.step (h.hops hu) hb) hud
          exact ⟨v, visits_advance_of_some hv, by omega⟩
        · exact hstep (h.fresh_iff.2 ⟨u, hu, Nat.le_antisymm hd hud⟩) hb
    · obtain ⟨v, hv, hvd⟩ := h.reached hn hge
      exact ⟨v, visits_advance_of_some hv, hvd⟩
  · intro id
    rw [mem_fresh_advance, advance_depth]
    constructor
    · rintro ⟨hid, p, hp, hnext⟩
      exact visits_advance_of_none (TreeMap.getElem?_eq_none hid) hp hnext
    · rintro ⟨v, hv, hd⟩
      obtain hold | ⟨hnone, p, hp, hid, -⟩ := visits_advance_cases hv
      · have hle := h.depth_le hold
        omega
      · refine ⟨fun hmem => ?_, p, hp, hid⟩
        obtain ⟨u, hu⟩ := mem_visits_iff.1 hmem
        rw [hnone] at hu
        cases hu
  · obtain hold | ⟨-, p, -, -, rfl⟩ := visits_advance_cases hv
    · exact h.root hold hp
    · cases hp
  · obtain hold | ⟨-, q, hq, hid, rfl⟩ := visits_advance_cases hv
    · obtain ⟨hid, u, hu, hd⟩ := h.parent hold hp
      exact ⟨hid, u, visits_advance_of_some hu, hd⟩
    · cases hp
      obtain ⟨u, hu, hd⟩ := h.fresh_iff.1 hq
      exact ⟨hid, u, visits_advance_of_some hu, by rw [hd]⟩

theorem Levelled.run (h : Levelled next seeds s) (levels : ℕ) :
    Levelled next seeds (s.run next levels) := by
  induction levels generalizing s with
  | zero => exact h
  | succ levels ih =>
    rw [Search.run]
    split_ifs
    · exact h
    · exact ih h.advance

/-! ### Closed searches -/

theorem run_of_fresh_nil (h : s.fresh = []) (levels : ℕ) : s.run next levels = s := by
  cases levels with
  | zero => rfl
  | succ levels => rw [Search.run, if_pos (by rw [h]; rfl)]

theorem size_visits_le {ids : List String} (h : ∀ id, id ∈ s.visits → id ∈ ids) :
    s.visits.size ≤ ids.length := by
  rw [← TreeMap.length_keys]
  refine (List.subperm_of_subset TreeMap.nodup_keys fun id hid => ?_).length_le
  exact h id (TreeMap.mem_keys.1 hid)

/-- A level that finds something adds a visit. -/
theorem size_visits_lt (h : (s.advance next).fresh ≠ []) :
    s.visits.size < (s.advance next).visits.size := by
  obtain ⟨id, hid⟩ := List.exists_mem_of_ne_nil _ h
  obtain ⟨hnew, p, hp, hnext⟩ := mem_fresh_advance.1 hid
  obtain ⟨v, hv, -⟩ := visits_advance_of_none (TreeMap.getElem?_eq_none hnew) hp hnext
  have hnodup : (id :: s.visits.keys).Nodup :=
    List.nodup_cons.2 ⟨fun hmem => hnew (TreeMap.mem_keys.1 hmem), TreeMap.nodup_keys⟩
  have hsub : id :: s.visits.keys ⊆ (s.advance next).visits.keys := by
    intro a ha
    rw [TreeMap.mem_keys, mem_visits_iff]
    rcases List.mem_cons.1 ha with rfl | ha
    · exact ⟨v, hv⟩
    · obtain ⟨u, hu⟩ := mem_visits_iff.1 (TreeMap.mem_keys.1 ha)
      exact ⟨u, visits_advance_of_some hu⟩
  have hle := (List.subperm_of_subset hnodup hsub).length_le
  rw [List.length_cons, TreeMap.length_keys, TreeMap.length_keys] at hle
  exact hle

/-- A search that may still visit more levels than it can find IDs is closed. -/
theorem Levelled.fresh_run {ids : List String} (hids : ∀ n id, Hops next seeds n id → id ∈ ids)
    (h : Levelled next seeds s) {levels : ℕ} (hl : ids.length < s.visits.size + levels) :
    (s.run next levels).fresh = [] := by
  induction levels generalizing s with
  | zero =>
    have hle : s.visits.size ≤ ids.length := size_visits_le fun id hid => by
      obtain ⟨v, hv⟩ := mem_visits_iff.1 hid
      exact hids _ _ (h.hops hv)
    omega
  | succ levels ih =>
    rw [Search.run]
    split_ifs with hfresh
    · exact List.isEmpty_iff.1 hfresh
    · by_cases hadv : (s.advance next).fresh = []
      · rw [run_of_fresh_nil hadv]
        exact hadv
      · have hlt := size_visits_lt hadv
        exact ih h.advance (by omega)

/-- **Searches end.** As many levels as there are IDs close a search. -/
theorem run_closed {ids : List String} (hids : ∀ n id, Hops next seeds n id → id ∈ ids) :
    ((start seeds).run next ids.length).fresh = [] := by
  have h := Levelled.start next seeds
  by_cases hfresh : (start seeds).fresh = []
  · rw [run_of_fresh_nil hfresh]
    exact hfresh
  · obtain ⟨id, hid⟩ := List.exists_mem_of_ne_nil _ hfresh
    obtain ⟨v, hv, -⟩ := h.fresh_iff.1 hid
    have hpos : 0 < (start seeds).visits.size := by
      rw [← TreeMap.length_keys]
      exact List.length_pos_of_mem (TreeMap.mem_keys.2 (mem_visits_iff.2 ⟨v, hv⟩))
    exact h.fresh_run hids (by omega)

/-- A closed search has visited all that its seeds reach, by fewest hops. -/
theorem Levelled.exists_visit (h : Levelled next seeds s) (hclosed : s.fresh = []) {n : ℕ}
    (hn : Hops next seeds n id) : ∃ v, s.visits[id]? = some v ∧ v.depth ≤ n := by
  induction hn with
  | seed hid => exact h.reached (.seed hid) (Nat.zero_le _)
  | @step n a b ha hb ih =>
    obtain ⟨u, hu, hle⟩ := ih
    have hne : u.depth ≠ s.depth := fun hd => by
      have hmem := h.fresh_iff.2 ⟨u, hu, hd⟩
      rw [hclosed] at hmem
      cases hmem
    have hlt := h.depth_le hu
    obtain ⟨v, hv, hvd⟩ := h.reached (.step (h.hops hu) hb) (by omega)
    exact ⟨v, hv, by omega⟩

/-! ### Climbing -/

theorem parent?_of_visits {v : Visit} (hv : s.visits[id]? = some v) : s.parent? id = v.parent := by
  rw [parent?, hv, Option.bind_some]

theorem Levelled.parent? (h : Levelled next seeds s) {v : Visit} (hv : s.visits[id]? = some v)
    {d : ℕ} (hd : v.depth = d + 1) :
    ∃ p u, s.parent? id = some p ∧ s.visits[p]? = some u ∧ u.depth = d ∧ id ∈ next p := by
  cases hpar : v.parent with
  | none =>
    have hzero := h.root hv hpar
    omega
  | some p =>
    obtain ⟨hid, u, hu, hdu⟩ := h.parent hv hpar
    exact ⟨p, u, (parent?_of_visits hv).trans hpar, hu, by omega, hid⟩

/-- Climbing ends at a seed. What holds of the start with its tail, and is handed on from
each ID to its parent, holds of that seed with all that was passed. -/
theorem Levelled.climb_induction (h : Levelled next seeds s) {P : ℕ → String → List String → Prop}
    (hup : ∀ {n p c rest}, Hops next seeds n p → c ∈ next p → P (n + 1) c rest → P n p (c :: rest))
    {v : Visit} {d : ℕ} (hv : s.visits[id]? = some v) (hd : v.depth = d) {tail : List String}
    (htail : P d id tail) :
    ∃ seed ∈ seeds, ∃ rest, s.climb d id tail = seed :: rest ∧ P 0 seed rest := by
  induction d generalizing id v tail with
  | zero =>
    have hhops := h.hops hv
    rw [hd] at hhops
    cases hhops with
    | seed hid => exact ⟨id, hid, tail, rfl, htail⟩
  | succ d ih =>
    obtain ⟨p, u, hp, hu, hdu, hid⟩ := h.parent? hv hd
    rw [climb, hp]
    exact ih hu hdu (hup (hdu ▸ h.hops hu) hid htail)

/-- Climbing to a seed passes one ID more than the depth says. -/
theorem Levelled.length_climb (h : Levelled next seeds s) {v : Visit} {d : ℕ}
    (hv : s.visits[id]? = some v) (hd : v.depth = d) (tail : List String) :
    (s.climb d id tail).length = d + 1 + tail.length := by
  obtain ⟨seed, -, rest, heq, hlen⟩ := h.climb_induction
    (P := fun n _ rest => rest.length + n = tail.length + d)
    (fun _ _ hrest => by rw [List.length_cons]; omega) hv hd rfl
  rw [heq, List.length_cons]
  omega

/-- Climbing passes no ID twice: each ID is fewer hops from the seeds than all below it. -/
theorem Levelled.nodup_climb (h : Levelled next seeds s) {v : Visit} {d : ℕ}
    (hv : s.visits[id]? = some v) (hd : v.depth = d) : (s.climb d id []).Nodup := by
  have hleast : ∀ m, Hops next seeds m id → d ≤ m := by
    intro m hm
    by_contra hlt
    have hdepth := h.depth_le hv
    obtain ⟨u, hu, hle⟩ := h.reached hm (by omega)
    rw [hv] at hu
    cases hu
    omega
  have hbottom : [id].Nodup ∧ ∀ x ∈ [id], ∀ m, Hops next seeds m x → d ≤ m :=
    ⟨by simp, by simpa using hleast⟩
  obtain ⟨seed, -, rest, heq, hnodup, -⟩ := h.climb_induction
    (P := fun n id rest => (id :: rest).Nodup ∧
      ∀ x ∈ id :: rest, ∀ m, Hops next seeds m x → n ≤ m)
    (fun {n p c rest} hn hc hrest => by
      obtain ⟨hnodup, hfar⟩ := hrest
      refine ⟨List.nodup_cons.2 ⟨fun hp => ?_, hnodup⟩, fun x hx m hm => ?_⟩
      · have hle := hfar p hp n hn
        omega
      · rcases List.mem_cons.1 hx with rfl | hx
        · have hle := hfar c List.mem_cons_self (m + 1) (.step hm hc)
          omega
        · have hle := hfar x hx m hm
          omega)
    hv hd hbottom
  exact heq ▸ hnodup

theorem climb_append (s : Search) (steps : ℕ) (id : String) (tail : List String) :
    s.climb steps id tail = s.climb steps id [] ++ tail := by
  induction steps generalizing id tail with
  | zero => rfl
  | succ steps ih =>
    cases hp : s.parent? id with
    | none => simp [climb, hp]
    | some up =>
      simp only [climb, hp]
      rw [ih up (id :: tail), ih up [id], List.append_assoc]
      rfl

theorem chainTo?_of_visits {v : Visit} {d : ℕ} (hv : s.visits[id]? = some v) (hd : v.depth = d) :
    s.chainTo? id = some (s.climb d id []) := by
  rw [chainTo?, hv, Option.map_some, hd]

/-- What climbing from an ID passes begins with what climbing from any ID on the way
passes. -/
theorem Levelled.chainTo?_of_front (h : Levelled next seeds s) {v : Visit} {d : ℕ}
    (hv : s.visits[id]? = some v) (hd : v.depth = d) {front : List String} {x : String}
    (hfront : front ++ [x] <+: s.climb d id []) : s.chainTo? x = some (front ++ [x]) := by
  induction d generalizing id v with
  | zero =>
    have hclimb : s.climb 0 id [] = [] ++ [id] := rfl
    rw [hclimb, List.prefix_concat_iff] at hfront
    rcases hfront with heq | hnil
    · obtain ⟨rfl, ⟨⟩⟩ := List.append_inj' heq rfl
      exact chainTo?_of_visits hv hd
    · simp at hnil
  | succ d ih =>
    obtain ⟨p, u, hp, hu, hdu, -⟩ := h.parent? hv hd
    have hclimb : s.climb (d + 1) id [] = s.climb d p [] ++ [id] := by
      rw [climb, hp]
      exact climb_append s d p [id]
    rw [hclimb, List.prefix_concat_iff] at hfront
    rcases hfront with heq | hshorter
    · obtain ⟨rfl, ⟨⟩⟩ := List.append_inj' heq rfl
      exact hclimb ▸ chainTo?_of_visits hv hd
    · exact ih hu hdu hshorter

end Search
end TaintGraph
