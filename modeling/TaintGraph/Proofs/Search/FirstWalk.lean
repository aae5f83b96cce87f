/-
# A search finds the first walk

Several walks of fewest steps may lead from the seed of a search to an ID, and the search
keeps one of them, by a single parent for each ID. Which one it is follows from the order in
which a level is expanded, but only step by step, while the answer can be told at once.
`Search.walks` lists all walks of `n` steps in the lexicographic order of their steps
(`Search.pairwise_walks`), and for every ID that the search visits the tree holds the first
walk of that list that ends there (`Search.climb_eq_firstWalk`).

The order of a level is needed only to tell which of its members is the first with some
property, so it is followed through `find?`: the first member of a level with a property is
the end of the first walk whose end has it (`Search.FirstFound`).

Key definitions: `Search.walks`, `Search.firstWalk?`, `Search.FirstFound`, `Search.places`.
Key theorems: `Search.find?_fresh_advance`, `Search.FirstFound.advance`,
`Search.climb_eq_firstWalk`, `Search.pairwise_walks`, `Search.climb_first`.
-/
import Mathlib.Data.List.Chain
import Mathlib.Data.List.Find
import Mathlib.Data.List.Lex
import TaintGraph.Proofs.Search.Levels

namespace TaintGraph

open Std (TreeMap)

/-! ### The first of a list -/

theorem find?_eraseDups_filter (p P : String → Bool) (ids : List String) :
    (ids.filter p).eraseDups.find? P = (ids.filter p).find? P := by
  -- `eraseDups` goes on with a filtered tail, so the filter is part of the statement.
  induction ids generalizing p with
  | nil => rfl
  | cons a ids ih =>
    by_cases ha : p a = true
    · rw [List.filter_cons_of_pos ha, List.eraseDups_cons, List.filter_filter, List.find?_cons,
        List.find?_cons, ih, List.find?_filter, List.find?_filter]
      cases hP : P a with
      | true => rfl
      | false =>
        refine List.find?_congr fun b _ => ?_
        by_cases hb : b = a
        · simp [hb, hP]
        · simp [hb]
    · rw [List.filter_cons_of_neg ha, ih]

/-- Taking repetitions off a list keeps the first of its members with any property. -/
theorem find?_eraseDups (P : String → Bool) (ids : List String) :
    ids.eraseDups.find? P = ids.find? P := by
  simpa using find?_eraseDups_filter (fun _ => true) P ids

/-- The first result of a list is that of its first member that has one. -/
theorem findSome?_eq_bind {α β : Type} (f : α → Option β) (xs : List α) :
    xs.findSome? f = (xs.find? fun x => (f x).isSome).bind f := by
  induction xs with
  | nil => rfl
  | cons x xs ih =>
    rw [List.findSome?_cons, List.find?_cons]
    cases hx : f x with
    | none => simpa [hx] using ih
    | some y => simp [hx]

namespace Search

variable {next : String → List String} {s : Search} {a id : String} {n : ℕ}
  {w : String × List String}

/-! ### The first of a level -/

/-- What is visited first is found first: of the IDs with a property, the first fresh one
after visiting a list is the first that was fresh before, or else the first of the list that
was not visited. -/
theorem find?_fresh_discoverAll (parent : Option String) (s : Search) (ids : List String)
    (P : String → Bool) :
    (ids.foldl (discover parent) s).fresh.reverse.find? P =
      (s.fresh.reverse.find? P).or (ids.find? fun b => b ∉ s.visits ∧ P b) := by
  induction ids generalizing s with
  | nil => simp
  | cons b ids ih =>
    rw [List.foldl_cons, ih, List.find?_cons]
    by_cases hb : b ∈ s.visits
    · have hsame : s.discover parent b = s := by
        unfold discover
        rw [if_pos hb]
      simp [hsame, hb]
    · have hfresh : (s.discover parent b).fresh.reverse = s.fresh.reverse ++ [b] := by
        unfold discover
        rw [if_neg hb, List.reverse_cons]
      rw [hfresh, List.find?_append, Option.or_assoc]
      congr 1
      cases hP : P b with
      | true => simp [hb, hP]
      | false =>
        simp only [List.find?_cons, hP, List.find?_nil, Option.none_or, hb]
        refine List.find?_congr fun c _ => ?_
        by_cases hc : c = b
        · simp [hc, hP]
        · simp [mem_visits_discover, hc]

theorem find?_fresh_expandAll (next : String → List String) (s : Search) (level : List String)
    (P : String → Bool) :
    (level.foldl (expand next) s).fresh.reverse.find? P =
      (s.fresh.reverse.find? P).or ((level.flatMap next).find? fun b => b ∉ s.visits ∧ P b) := by
  induction level generalizing s with
  | nil => simp
  | cons p level ih =>
    rw [List.foldl_cons, ih, expand, find?_fresh_discoverAll, Option.or_assoc, List.flatMap_cons,
      List.find?_append]
    congr 1
    cases hp : (next p).find? fun b => b ∉ s.visits ∧ P b with
    | some b => simp
    | none =>
      -- Nothing new with the property comes from `p`, so visiting its neighbours hides nothing.
      rw [Option.none_or, Option.none_or]
      refine List.find?_congr fun c _ => ?_
      have hnone := List.find?_eq_none.1 hp
      by_cases hc : c ∈ next p
      · have hold := hnone c hc
        simp only [decide_eq_true_eq] at hold
        simp [mem_visits_discoverAll, hc, hold]
      · simp [mem_visits_discoverAll, hc]

/-- The first ID with a property that a level finds is the first neighbour with it, in the
order of the level before, that was not visited. -/
theorem find?_fresh_advance (next : String → List String) (s : Search) (P : String → Bool) :
    (s.advance next).fresh.reverse.find? P =
      s.fresh.reverse.findSome? fun p => (next p).find? fun b => b ∉ s.visits ∧ P b := by
  rw [advance, find?_fresh_expandAll, List.find?_flatMap]
  simp

/-! ### Walks -/

/-- The walks of `n` steps along `next` from `a`, in the order of their steps. A walk is
given by its end and by what it passed before, from the end; a neighbour that `next` names
several times counts once. -/
def walks (next : String → List String) (a : String) : (n : ℕ) → List (String × List String)
  | 0 => [(a, [])]
  | n + 1 =>
    (walks next a n).flatMap fun w => (next w.1).eraseDups.map fun b => (b, w.1 :: w.2)

/-- The first walk of `n` steps to an ID. -/
def firstWalk? (next : String → List String) (a : String) (n : ℕ) (id : String) :
    Option (String × List String) :=
  (walks next a n).find? fun w => w.1 = id

theorem mem_walks_succ {b : String} {below : List String} :
    (b, below) ∈ walks next a (n + 1) ↔
      ∃ w ∈ walks next a n, b ∈ next w.1 ∧ below = w.1 :: w.2 := by
  rw [walks, List.mem_flatMap]
  simp [eq_comm]

theorem hops_of_mem_walks (h : w ∈ walks next a n) : Hops next [a] n w.1 := by
  induction n generalizing w with
  | zero =>
    rw [List.mem_singleton.1 h]
    exact .seed List.mem_cons_self
  | succ n ih =>
    obtain ⟨u, hu, hstep, -⟩ := mem_walks_succ.1 h
    exact .step (ih hu) hstep

theorem length_of_mem_walks (h : w ∈ walks next a n) : w.2.length = n := by
  induction n generalizing w with
  | zero =>
    rw [List.mem_singleton.1 h]
    rfl
  | succ n ih =>
    obtain ⟨u, hu, -, hbelow⟩ := mem_walks_succ.1 h
    rw [hbelow, List.length_cons, ih hu]

/-- Every list that follows `next` back to `a` is a walk. -/
theorem mem_walks_of_isChain {b : String} {below : List String}
    (hchain : (b :: below).IsChain fun x y => x ∈ next y)
    (hlast : (b :: below).getLast? = some a) : (b, below) ∈ walks next a below.length := by
  induction below generalizing b with
  | nil =>
    obtain rfl : b = a := by simpa using hlast
    exact List.mem_cons_self
  | cons c below ih =>
    obtain ⟨hstep, hrest⟩ := List.isChain_cons_cons.1 hchain
    rw [List.getLast?_cons_cons] at hlast
    exact mem_walks_succ.2 ⟨(c, below), ih hrest hlast, hstep, rfl⟩

/-- The first longer walk whose end has a property continues the first walk that can be so
continued. -/
theorem find?_walks_succ (next : String → List String) (a : String) (n : ℕ)
    (P : String → Bool) :
    (walks next a (n + 1)).find? (fun w => P w.1) =
      (walks next a n).findSome? fun w =>
        ((next w.1).find? P).map fun b => (b, w.1 :: w.2) := by
  rw [walks, List.find?_flatMap]
  congr 1
  funext w
  rw [List.find?_map, find?_eraseDups]
  rfl

theorem firstWalk?_succ (next : String → List String) (a : String) (n : ℕ) (id : String) :
    firstWalk? next a (n + 1) id =
      ((walks next a n).find? fun w => id ∈ next w.1).map fun w => (id, w.1 :: w.2) := by
  have hfind : ∀ ids : List String,
      ids.find? (fun b => b = id) = if id ∈ ids then some id else none := by
    intro ids
    induction ids with
    | nil => rfl
    | cons b ids ih =>
      rw [List.find?_cons, ih]
      by_cases hb : b = id
      · simp [hb]
      · simp [hb, Ne.symm hb]
  rw [firstWalk?, find?_walks_succ next a n fun b => b = id, List.find?_eq_findSome?_guard,
    List.map_findSome?]
  congr 1
  funext w
  by_cases hstep : id ∈ next w.1
  · simp [hfind, Option.guard, hstep]
  · simp [hfind, Option.guard, hstep]

/-- Where a walk is the first whose end has a property, it is the first to that end. -/
theorem firstWalk?_of_find? {P : String → Bool}
    (h : (walks next a n).find? (fun w => P w.1) = some w) :
    firstWalk? next a n w.1 = some w := by
  obtain ⟨hw, before, after, heq, hbefore⟩ := List.find?_eq_some_iff_append.1 h
  refine List.find?_eq_some_iff_append.2 ⟨by simp, before, after, heq, fun u hu => ?_⟩
  have hu' := hbefore u hu
  by_cases hend : u.1 = w.1
  · rw [hend, hw] at hu'
    cases hu'
  · simpa using hend

/-! ### The tree holds the first walks -/

/-- A level stands in the order of the first walks to its IDs, and the parent of an ID is
what the first walk to it passes last. -/
structure FirstFound (next : String → List String) (a : String) (s : Search) : Prop where
  level : ∀ P : String → Bool, (∀ w ∈ walks next a s.depth, P w.1 = true → w.1 ∈ s.fresh) →
    s.fresh.reverse.find? P = ((walks next a s.depth).find? fun w => P w.1).map Prod.fst
  parent : ∀ {id : String} {v : Visit}, s.visits[id]? = some v →
    v.parent = (firstWalk? next a v.depth id).bind fun w => w.2.head?

theorem FirstFound.start (next : String → List String) (a : String) :
    FirstFound next a (start [a]) where
  level := fun P _ => by
    cases hP : P a <;> simp [Search.start, discover, walks, hP]
  parent := fun {id v} hv => by
    rw [visits_start] at hv
    split_ifs at hv with hid
    obtain rfl := List.mem_singleton.1 hid
    cases hv
    simp [firstWalk?, walks]

/-- An ID that leads to something new stands on the last level. -/
theorem Levelled.mem_fresh (h : Levelled next [a] s) {p b : String}
    (hp : Hops next [a] s.depth p) (hb : b ∈ next p) (hnew : b ∉ s.visits) : p ∈ s.fresh := by
  obtain ⟨v, hv, hle⟩ := h.reached hp (Nat.le_refl _)
  rcases Nat.lt_or_ge v.depth s.depth with hlt | hge
  · obtain ⟨u, hu, -⟩ := h.reached (.step (h.hops hv) hb) hlt
    exact absurd (mem_visits_iff.2 ⟨u, hu⟩) hnew
  · exact h.fresh_iff.2 ⟨v, hv, Nat.le_antisymm hle hge⟩

theorem FirstFound.advance (h : FirstFound next a s) (hlevels : Levelled next [a] s) :
    FirstFound next a (s.advance next) where
  level := fun P hP => by
    rw [advance_depth] at hP ⊢
    have hfresh : ∀ w ∈ walks next a s.depth,
        ((next w.1).find? fun b => b ∉ s.visits ∧ P b).isSome = true → w.1 ∈ s.fresh := by
      intro w hw hsome
      obtain ⟨b, hb, hnew⟩ := List.find?_isSome.1 hsome
      simp only [decide_eq_true_eq] at hnew
      exact hlevels.mem_fresh (hops_of_mem_walks hw) hb hnew.1
    calc (s.advance next).fresh.reverse.find? P
        = (s.fresh.reverse.find? fun p =>
            ((next p).find? fun b => b ∉ s.visits ∧ P b).isSome).bind fun p =>
              (next p).find? fun b => b ∉ s.visits ∧ P b := by
          rw [find?_fresh_advance, findSome?_eq_bind]
      _ = (walks next a s.depth).findSome? fun w =>
            (next w.1).find? fun b => b ∉ s.visits ∧ P b := by
          rw [h.level _ hfresh, findSome?_eq_bind, Option.bind_map]
          rfl
      _ = ((walks next a (s.depth + 1)).find? fun w =>
            decide (w.1 ∉ s.visits ∧ P w.1)).map Prod.fst := by
          rw [find?_walks_succ next a s.depth fun b => decide (b ∉ s.visits ∧ P b),
            List.map_findSome?]
          congr 1
          funext w
          rw [Function.comp_apply, Option.map_map]
          exact Option.map_id'.symm
      _ = ((walks next a (s.depth + 1)).find? fun w => P w.1).map Prod.fst := by
          congr 1
          refine List.find?_congr fun w hw => ?_
          cases hw' : P w.1 with
          | false => simp
          | true => simp [(mem_fresh_advance.1 (hP w hw hw')).1]
  parent := fun {id v} hv => by
    rw [visits_advance] at hv
    cases hid : s.visits[id]? with
    | some u =>
      rw [hid, Option.some_or] at hv
      cases hv
      exact h.parent hid
    | none =>
      rw [hid, Option.none_or] at hv
      obtain ⟨p, hp, rfl⟩ := Option.map_eq_some_iff.1 hv
      have hnew : id ∉ s.visits := fun hmem => by
        obtain ⟨u, hu⟩ := mem_visits_iff.1 hmem
        rw [hid] at hu
        cases hu
      rw [h.level _ fun w hw hstep =>
        hlevels.mem_fresh (hops_of_mem_walks hw) (by simpa using hstep) hnew] at hp
      obtain ⟨w, hw, rfl⟩ := Option.map_eq_some_iff.1 hp
      rw [firstWalk?_succ, hw]
      rfl

theorem FirstFound.run (h : FirstFound next a s) (hlevels : Levelled next [a] s) (levels : ℕ) :
    FirstFound next a (s.run next levels) := by
  induction levels generalizing s with
  | zero => exact h
  | succ levels ih =>
    rw [Search.run]
    split_ifs
    · exact h
    · exact ih (h.advance hlevels) hlevels.advance

/-- **The tree holds the first walks.** Climbing from an ID passes what the first walk to it
passes. -/
theorem climb_eq_firstWalk (h : FirstFound next a s) (hlevels : Levelled next [a] s) {v : Visit}
    {d : ℕ} (hv : s.visits[id]? = some v) (hd : v.depth = d) (tail : List String) :
    ∃ below, firstWalk? next a d id = some (id, below) ∧
      s.climb d id tail = (id :: below).reverse ++ tail := by
  induction d generalizing id v tail with
  | zero =>
    have hhops := hlevels.hops hv
    rw [hd] at hhops
    cases hhops with
    | seed hid =>
      obtain rfl := List.mem_singleton.1 hid
      exact ⟨[], by simp [firstWalk?, walks], rfl⟩
  | succ d ih =>
    obtain ⟨p, u, hp, hu, hdu, -⟩ := hlevels.parent? hv hd
    have hparent := h.parent hv
    rw [hd, firstWalk?_succ] at hparent
    rw [parent?_of_visits hv] at hp
    cases hw : (walks next a d).find? fun w => id ∈ next w.1 with
    | none =>
      rw [hw, hp] at hparent
      cases hparent
    | some w =>
      obtain rfl : w.1 = p := by
        rw [hw, hp] at hparent
        exact (Option.some.inj hparent).symm
      obtain ⟨below, hbelow, hclimb⟩ := ih hu hdu (id :: tail)
      rw [firstWalk?_of_find? (P := fun p => id ∈ next p) hw] at hbelow
      obtain rfl : w.2 = below := congrArg Prod.snd (Option.some.inj hbelow)
      refine ⟨w.1 :: w.2, by rw [firstWalk?_succ, hw]; rfl, ?_⟩
      have hup : s.parent? id = some w.1 := (parent?_of_visits hv).trans hp
      rw [climb, hup]
      simpa using hclimb

/-! ### The order of walks -/

/-- Where the steps of a chain stand among those that leave the same ID. -/
def places (place : String → String → ℕ) : List String → List ℕ
  | a :: b :: rest => place a b :: places place (b :: rest)
  | _ => []

theorem places_concat (place : String → String → ℕ) (front : List String) (a b : String) :
    places place (front ++ [a, b]) = places place (front ++ [a]) ++ [place a b] := by
  induction front with
  | nil => rfl
  | cons x front ih =>
    cases front with
    | nil => rfl
    | cons y front => simpa [places] using ih

theorem length_places (place : String → String → ℕ) (chain : List String) :
    (places place chain).length = chain.length - 1 := by
  fun_induction places place chain with
  | case1 a b rest ih => simp [ih]
  | case2 chain hshort =>
    rcases chain with - | ⟨a, - | ⟨b, rest⟩⟩
    · rfl
    · rfl
    · exact absurd rfl (hshort a b rest)

/-- The lexicographic order of lists of one length does not look at what follows them. -/
theorem lex_append {xs ys us vs : List ℕ} (h : List.Lex (· < ·) xs ys)
    (hlen : xs.length = ys.length) : List.Lex (· < ·) (xs ++ us) (ys ++ vs) := by
  induction h with
  | nil => cases hlen
  | rel hlt => exact .rel hlt
  | cons _ ih => exact .cons (ih (Nat.succ.inj hlen))

/-- Where the neighbours of every ID stand in order, so do the walks: two of them are
compared at the first step in which they differ. -/
theorem pairwise_walks {place : String → String → ℕ}
    (h : ∀ id, (next id).eraseDups.Pairwise fun b c => place id b < place id c) (a : String)
    (n : ℕ) :
    (walks next a n).Pairwise fun w u =>
      List.Lex (· < ·) (places place (w.1 :: w.2).reverse) (places place (u.1 :: u.2).reverse) := by
  have hplaces : ∀ (b : String) (w : String × List String),
      places place (b :: w.1 :: w.2).reverse =
        places place (w.1 :: w.2).reverse ++ [place w.1 b] := by
    intro b w
    simpa using places_concat place w.2.reverse w.1 b
  induction n with
  | zero => exact List.pairwise_singleton _ _
  | succ n ih =>
    have hlength : ∀ w ∈ walks next a n, (places place (w.1 :: w.2).reverse).length = n := by
      intro w hw
      rw [length_places, List.length_reverse, List.length_cons, length_of_mem_walks hw]
      rfl
    rw [walks, List.pairwise_flatMap]
    constructor
    · -- Walks that continue one walk are compared at their last step.
      intro w _
      refine List.pairwise_map.2 ((h w.1).imp fun hlt => ?_)
      rw [hplaces, hplaces]
      exact List.Lex.append_left _ (.rel hlt) _
    · refine ih.imp_of_mem fun hw hu hlex x hx y hy => ?_
      obtain ⟨b, -, rfl⟩ := List.mem_map.1 hx
      obtain ⟨c, -, rfl⟩ := List.mem_map.1 hy
      rw [hplaces, hplaces]
      exact lex_append hlex ((hlength _ hw).trans (hlength _ hu).symm)

/-- **A search breaks ties by the order of its steps.** What climbing from an ID passes comes
before every other chain of as many steps from the seed to it. -/
theorem climb_first {place : String → String → ℕ}
    (hplace : ∀ id, (next id).eraseDups.Pairwise fun b c => place id b < place id c)
    (h : FirstFound next a s) (hlevels : Levelled next [a] s) {v : Visit}
    (hv : s.visits[id]? = some v) {chain : List String} (hhead : chain.head? = some a)
    (hlast : chain.getLast? = some id) (hchain : chain.IsChain fun x y => y ∈ next x)
    (hlen : chain.length = v.depth + 1) :
    chain = s.climb v.depth id [] ∨
      List.Lex (· < ·) (places place (s.climb v.depth id [])) (places place chain) := by
  obtain ⟨below, rfl⟩ : ∃ below, chain = (id :: below).reverse := by
    obtain ⟨front, rfl⟩ := List.getLast?_eq_some_iff.1 hlast
    exact ⟨front.reverse, by simp⟩
  have hmem : (id, below) ∈ walks next a v.depth := by
    rw [List.length_reverse, List.length_cons, Nat.add_right_cancel_iff] at hlen
    rw [List.head?_reverse] at hhead
    exact hlen ▸ mem_walks_of_isChain (List.isChain_reverse.1 hchain) hhead
  obtain ⟨first, hfirst, hclimb⟩ := climb_eq_firstWalk h hlevels hv rfl []
  obtain ⟨-, before, after, hwalks, hbefore⟩ := List.find?_eq_some_iff_append.1 hfirst
  have hsorted := pairwise_walks hplace a v.depth
  rw [hwalks] at hmem hsorted
  rw [hclimb, List.append_nil]
  rcases List.mem_append.1 hmem with hmem | hmem
  · have hne := hbefore _ hmem
    simp at hne
  · rcases List.mem_cons.1 hmem with heq | hmem
    · obtain rfl : below = first := congrArg Prod.snd heq
      exact Or.inl rfl
    · exact Or.inr ((List.pairwise_cons.1 (List.pairwise_append.1 hsorted).2.1).1 _ hmem)

end Search
end TaintGraph
