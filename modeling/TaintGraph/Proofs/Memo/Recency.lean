/-
# The memo keeps what was used last

A use *touches* a pair when it writes it, or looks it up and finds it. The entries of a
memo stand in the order of their latest touch (`Memo.newer_keys`): a touch moves its pair
to the front, and nothing else changes the order. So a new pair that finds the memo full
pushes out the pair whose latest touch is the oldest, and a pair is safe as long as fewer
others are touched than the memo has room for (`Memo.exists_keys_split`).

Positions in a run count from zero; `Memo.touches` says what the use at each position
touches.

Key definitions: `Memo.touched?`, `Memo.touches`, `Memo.LatestTouch`,
`Memo.touchedSince`, `Memo.lastWritten?`.
Key theorems: `Memo.Indexed.keys_after`, `Memo.newer_keys`, `Memo.exists_keys_split`,
`Memo.evicts_least_recently_touched`.
-/
import Mathlib.Data.Finset.Card
import Mathlib.Data.List.ReduceOption
import Mathlib.Order.Bounds.Basic
import TaintGraph.Proofs.Memo.Index

namespace TaintGraph
namespace Memo

/-- The pair that a use touches: the one that it writes, or looks up and finds. -/
def touched? (m : Memo) : Use → Option Endpoints
  | .find pair => if (m.peek? pair).isSome then some pair else none
  | .write pair _ => some pair
  | .dropFrom _ | .clear => none

/-- What the uses of a run touch, use by use. -/
def touches (m : Memo) : List Use → List (Option Endpoints)
  | [] => []
  | u :: uses => m.touched? u :: (m.after u).touches uses

/-- The latest use that touches the pair is the one at position `i`. -/
def LatestTouch (m : Memo) (uses : List Use) (pair : Endpoints) (i : ℕ) : Prop :=
  IsGreatest {j : ℕ | (m.touches uses)[j]? = some (some pair)} i

/-- The pairs touched after position `i`. -/
def touchedSince (m : Memo) (uses : List Use) (i : ℕ) : Finset Endpoints :=
  ((m.touches uses).drop (i + 1)).reduceOption.toFinset

/-- The distance that a use writes for the pair. -/
def Use.written? (pair : Endpoints) : Use → Option (Option ℕ)
  | .write p distance => if p = pair then some distance else none
  | _ => none

/-- The distance that the latest write of the pair gave it. -/
def lastWritten? (pair : Endpoints) (uses : List Use) : Option (Option ℕ) :=
  uses.reverse.findSome? (Use.written? pair)

variable {m : Memo} {uses : List Use} {u : Use} {pair p q : Endpoints} {i : ℕ}

/-! ### One more use -/

theorem run_snoc (m : Memo) (uses : List Use) (u : Use) :
    m.run (uses ++ [u]) = (m.run uses).after u :=
  List.foldl_append

theorem length_touches (m : Memo) (uses : List Use) : (m.touches uses).length = uses.length := by
  induction uses generalizing m with
  | nil => rfl
  | cons u uses ih => rw [touches, List.length_cons, List.length_cons, ih]

theorem touches_snoc (m : Memo) (uses : List Use) (u : Use) :
    m.touches (uses ++ [u]) = m.touches uses ++ [(m.run uses).touched? u] := by
  induction uses generalizing m with
  | nil => rfl
  | cons v uses ih =>
    rw [List.cons_append, touches, touches, ih, List.cons_append]
    rfl

theorem touches_snoc_iff :
    (m.touches (uses ++ [u]))[i]? = some (some pair) ↔
      (m.touches uses)[i]? = some (some pair) ∨
        (i = uses.length ∧ (m.run uses).touched? u = some pair) := by
  have hlen := m.length_touches uses
  rw [touches_snoc, List.getElem?_append, hlen]
  split_ifs with hi
  · have hne : i ≠ uses.length := by omega
    simp [hne]
  · have hnone : (m.touches uses)[i]? = none := List.getElem?_eq_none (by omega)
    rw [hnone]
    rcases Nat.eq_or_lt_of_le (Nat.not_lt.1 hi) with rfl | hlt
    · simp
    · have hne : i ≠ uses.length := by omega
      have hpast : 1 ≤ i - uses.length := by omega
      simp [hne, List.getElem?_eq_none, hpast]

theorem LatestTouch.lt (h : m.LatestTouch uses pair i) : i < uses.length := by
  obtain ⟨hlt, -⟩ := List.getElem?_eq_some_iff.1 h.1
  rwa [length_touches] at hlt

theorem latestTouch_snoc_of_touched (h : (m.run uses).touched? u = some pair) :
    m.LatestTouch (uses ++ [u]) pair i ↔ i = uses.length := by
  have hlast : m.LatestTouch (uses ++ [u]) pair uses.length := by
    refine ⟨touches_snoc_iff.2 (.inr ⟨rfl, h⟩), fun j hj => ?_⟩
    have hlt := (List.getElem?_eq_some_iff.1 hj).choose
    rw [length_touches, List.length_append, List.length_singleton] at hlt
    omega
  constructor
  · intro hi
    exact hi.unique hlast
  · rintro rfl
    exact hlast

theorem latestTouch_snoc_of_not_touched (h : (m.run uses).touched? u ≠ some pair) :
    m.LatestTouch (uses ++ [u]) pair i ↔ m.LatestTouch uses pair i := by
  have hset : {j : ℕ | (m.touches (uses ++ [u]))[j]? = some (some pair)} =
      {j : ℕ | (m.touches uses)[j]? = some (some pair)} := by
    refine Set.ext fun j => ?_
    show (m.touches (uses ++ [u]))[j]? = some (some pair) ↔
      (m.touches uses)[j]? = some (some pair)
    rw [touches_snoc_iff]
    simp [h]
  rw [LatestTouch, LatestTouch, hset]

theorem mem_touchedSince_snoc (hi : i < uses.length) :
    q ∈ m.touchedSince (uses ++ [u]) i ↔
      q ∈ m.touchedSince uses i ∨ (m.run uses).touched? u = some q := by
  have hlen := m.length_touches uses
  rw [touchedSince, touches_snoc, List.drop_append_of_le_length (by omega)]
  simp [touchedSince, List.reduceOption_mem_iff, eq_comm]

theorem lastWritten?_snoc (pair : Endpoints) (uses : List Use) (u : Use) :
    lastWritten? pair (uses ++ [u]) = (u.written? pair).or (lastWritten? pair uses) := by
  rw [lastWritten?, List.reverse_append, List.reverse_singleton, List.singleton_append,
    List.findSome?_cons]
  cases u.written? pair <;> rfl

/-! ### What one use does to the pairs -/

theorem touched?_find_of_mem (h : pair ∈ m.keys) : m.touched? (.find pair) = some pair := by
  have hsome : (m.peek? pair).isSome := by
    rw [← Option.ne_none_iff_isSome, ne_eq, peek?_eq_none_iff, not_not]
    exact h
  rw [touched?, if_pos hsome]

theorem touched?_find_of_notMem (h : pair ∉ m.keys) : m.touched? (.find pair) = none := by
  rw [touched?, peek?_eq_none_iff.2 h]
  rfl

/-- A touch moves its pair to the front, and the other pairs stay in their order. -/
theorem Indexed.keys_after (h : Indexed m) (u : Use) :
    (∃ p rest, m.touched? u = some p ∧ (m.after u).keys = p :: rest ∧
      rest.Sublist (m.keys.filter (· ≠ p))) ∨
    (m.touched? u = none ∧ (m.after u).keys.Sublist m.keys) := by
  cases u with
  | find p =>
    by_cases hp : p ∈ m.keys
    · exact .inl ⟨p, _, touched?_find_of_mem hp, keys_find_of_mem hp, List.Sublist.refl _⟩
    · refine .inr ⟨touched?_find_of_notMem hp, ?_⟩
      rw [Memo.after, keys_find_of_notMem hp]
  | write p distance =>
    exact .inl ⟨p, _, rfl, m.keys_write p distance, List.take_sublist _ _⟩
  | dropFrom source =>
    refine .inr ⟨rfl, ?_⟩
    rw [Memo.after, h.dropFrom_keys]
    exact List.filter_sublist
  | clear => exact .inr ⟨rfl, List.nil_sublist _⟩

/-- What a use leaves of a pair in the memo: the distance that it writes, or else the one
that was there. -/
theorem Indexed.peek?_after (h : Indexed m) {d : Option ℕ} (hd : (m.after u).peek? pair = some d) :
    (u.written? pair).or (m.peek? pair) = some d := by
  have hmem := mem_entries_of_peek? hd
  cases u with
  | find p => exact h.peek?_eq_some_iff.2 (m.entries_find_subset p hmem)
  | write p distance =>
    rcases mem_entries_write hmem with heq | ⟨hold, hne⟩
    · cases heq
      simp [Use.written?]
    · rw [Use.written?, if_neg (Ne.symm hne)]
      exact h.peek?_eq_some_iff.2 hold
  | dropFrom source =>
    rw [Memo.after, h.dropFrom_entries] at hmem
    exact h.peek?_eq_some_iff.2 (List.mem_of_mem_filter hmem)
  | clear => cases hmem

/-- What removes a pair: a new pair that finds the memo full, a drop of its source, or a
drop of everything. -/
theorem Indexed.removal (h : Indexed m) (hmem : pair ∈ m.keys) (hgone : pair ∉ (m.after u).keys) :
    (∃ p distance, u = .write p distance ∧ p ∉ m.keys ∧ m.size = m.capacity) ∨
      u = .dropFrom pair.source ∨ u = .clear := by
  cases u with
  | find p =>
    refine absurd ?_ hgone
    rw [Memo.after]
    by_cases hp : p ∈ m.keys
    · rw [keys_find_of_mem hp, List.mem_cons, List.mem_filter, decide_eq_true_eq]
      exact (eq_or_ne pair p).imp_right fun hne => ⟨hmem, hne⟩
    · rw [keys_find_of_notMem hp]
      exact hmem
  | write p distance =>
    left
    refine ⟨p, distance, rfl, ?_⟩
    -- The pair is among the others, so these do not all fit.
    have hne : pair ≠ p := by
      rintro rfl
      exact hgone (by simp [Memo.after])
    have hother : pair ∈ m.keys.filter (· ≠ p) := List.mem_filter.2 ⟨hmem, by simpa using hne⟩
    have hlong : m.capacity - 1 < (m.keys.filter (· ≠ p)).length := by
      by_contra hshort
      rw [Memo.after, keys_write, List.take_of_length_le (Nat.not_lt.1 hshort)] at hgone
      exact hgone (List.mem_cons_of_mem _ hother)
    have hlen : (m.keys.filter (· ≠ p)).length = (m.others p).length := by
      rw [← map_fst_others, List.length_map]
    have hsize := h.size_le
    by_cases hp : p ∈ m.keys
    · have hothers := h.length_others hp
      omega
    · have hall : m.others p = m.entries := others_eq_of_peek?_none (peek?_eq_none_iff.2 hp)
      rw [hall] at hlen
      refine ⟨hp, ?_⟩
      unfold size at hsize ⊢
      omega
  | dropFrom source =>
    right
    left
    rw [Memo.after, h.dropFrom_keys, List.mem_filter, decide_eq_true_eq] at hgone
    by_contra hne
    exact hgone ⟨hmem, fun heq => hne (heq ▸ rfl)⟩
  | clear => exact .inr (.inr rfl)

/-- A pair with fewer newer ones in front of it than the memo has room for is not lost by
touching another pair: it stays, and only the pair that is touched comes in front. -/
theorem Indexed.keys_after_split (h : Indexed m) {newer older : List Endpoints}
    (hkeys : m.keys = newer ++ pair :: older) (hother : m.touched? u ≠ some pair)
    (hkeep : u ≠ .clear ∧ u ≠ .dropFrom pair.source)
    (hroom : ∀ p, m.touched? u = some p → (newer.filter (· ≠ p)).length + 1 < m.capacity) :
    ∃ newer' older', (m.after u).keys = newer' ++ pair :: older' ∧
      ∀ q ∈ newer', q ∈ newer ∨ m.touched? u = some q := by
  have hfilter : ∀ p, p ≠ pair → m.keys.filter (· ≠ p) =
      newer.filter (· ≠ p) ++ pair :: older.filter (· ≠ p) := by
    intro p hp
    rw [hkeys, List.filter_append, List.filter_cons_of_pos (by simpa using hp.symm)]
  cases u with
  | find p =>
    rw [Memo.after]
    by_cases hp : p ∈ m.keys
    · have htouch := touched?_find_of_mem hp
      have hne : p ≠ pair := fun heq => hother (heq ▸ htouch)
      refine ⟨p :: newer.filter (· ≠ p), older.filter (· ≠ p), ?_, fun q hq => ?_⟩
      · rw [keys_find_of_mem hp, hfilter p hne, List.cons_append]
      · rcases List.mem_cons.1 hq with rfl | hq
        · exact .inr htouch
        · exact .inl (List.mem_of_mem_filter hq)
    · exact ⟨newer, older, (keys_find_of_notMem hp).trans hkeys, fun q hq => .inl hq⟩
  | write p distance =>
    have hne : p ≠ pair := fun heq => hother (heq ▸ rfl)
    have hshort := hroom p rfl
    refine ⟨p :: newer.filter (· ≠ p),
      (older.filter (· ≠ p)).take (m.capacity - 2 - (newer.filter (· ≠ p)).length), ?_,
      fun q hq => ?_⟩
    · obtain ⟨k, hk⟩ : ∃ k, m.capacity - 1 = (newer.filter (· ≠ p)).length + (k + 1) :=
        ⟨m.capacity - 2 - (newer.filter (· ≠ p)).length, by omega⟩
      have hrest : m.capacity - 2 - (newer.filter (· ≠ p)).length = k := by omega
      rw [Memo.after, keys_write, hfilter p hne, hk, hrest, List.take_length_add_append,
        List.take_succ_cons, List.cons_append]
    · rcases List.mem_cons.1 hq with rfl | hq
      · exact .inr rfl
      · exact .inl (List.mem_of_mem_filter hq)
  | dropFrom source =>
    have hne : pair.source ≠ source := fun heq => hkeep.2 (heq ▸ rfl)
    refine ⟨newer.filter fun q => q.source ≠ source, older.filter fun q => q.source ≠ source, ?_,
      fun q hq => .inl (List.mem_of_mem_filter hq)⟩
    rw [Memo.after, h.dropFrom_keys, hkeys, List.filter_append,
      List.filter_cons_of_pos (by simpa using hne)]
  | clear => exact absurd rfl hkeep.1

/-- A new pair that finds the memo full takes the place of the last one, and of no other. -/
theorem Indexed.write_full (h : Indexed m) (hnew : m.peek? pair = none)
    (hfull : m.size = m.capacity) (d : Option ℕ) :
    ∃ front old, m.keys = front ++ [old] ∧
      ∀ q, (m.write pair d).1.peek? q =
        if q = pair then some d else if q = old then none else m.peek? q := by
  have hpos := m.capacity_pos
  obtain hnil | ⟨front, last, hentries⟩ := m.entries.eq_nil_or_concat'
  · rw [size, hnil, List.length_nil] at hfull
    omega
  have hroom : m.capacity - 1 = front.length := by
    rw [size, hentries, List.length_append, List.length_singleton] at hfull
    omega
  have hkeys : m.keys = front.map Prod.fst ++ [last.1] := by
    rw [keys, hentries, List.map_append, List.map_singleton]
  have hwrite : (m.write pair d).1.entries = (pair, d) :: front := by
    simp only [Memo.write, others_eq_of_peek?_none hnew, hentries, hroom, List.take_left]
  have hbefore : ∀ q, m.peek? q = (front.lookup q).or ([last].lookup q) := fun q => by
    rw [peek?, hentries, List.lookup_append]
  refine ⟨front.map Prod.fst, last.1, hkeys, fun q => ?_⟩
  rw [peek?, hwrite, List.lookup_cons, hbefore q]
  by_cases hq : q = pair
  · simp [hq]
  · rw [if_neg hq, beq_false_of_ne hq]
    by_cases hold : q = last.1
    · -- No entry in front has the pair of the last one.
      have hnodup := h.nodup
      rw [hkeys, List.nodup_append] at hnodup
      have hnone : front.lookup q = none := by
        refine List.lookup_eq_none_iff.2 fun e he => ?_
        have hne := hnodup.2.2 e.1 (List.mem_map_of_mem he) last.1 (List.mem_singleton_self _)
        rw [hold]
        exact bne_iff_ne.2 hne.symm
      rw [if_pos hold, hnone]
    · have hlast : [last].lookup q = none := by
        refine List.lookup_eq_none_iff.2 fun e he => ?_
        rw [List.mem_singleton.1 he]
        exact bne_iff_ne.2 hold
      rw [if_neg hold, hlast, Option.or_none]

/-! ### Runs -/

/-- The pair `p` has been touched later than `q`. -/
def Newer (m : Memo) (uses : List Use) (p q : Endpoints) : Prop :=
  ∀ i j, m.LatestTouch uses p i → m.LatestTouch uses q j → j < i

variable {start : Memo}

theorem exists_latestTouch (hstart : start.Indexed) (hempty : start.keys = [])
    (hmem : pair ∈ (start.run uses).keys) : ∃ i, start.LatestTouch uses pair i := by
  induction uses using List.reverseRecOn with
  | nil =>
    have hkeys : (start.run []).keys = [] := hempty
    rw [hkeys] at hmem
    cases hmem
  | append_singleton uses u ih =>
    rw [run_snoc] at hmem
    by_cases htouch : (start.run uses).touched? u = some pair
    · exact ⟨_, (latestTouch_snoc_of_touched htouch).2 rfl⟩
    · have hold : pair ∈ (start.run uses).keys := by
        obtain ⟨p, rest, hp, hkeys, hsub⟩ | ⟨-, hsub⟩ := (hstart.run uses).keys_after u
        · rw [hkeys, List.mem_cons] at hmem
          rcases hmem with rfl | hmem
          · exact absurd hp htouch
          · exact List.mem_of_mem_filter (hsub.subset hmem)
        · exact hsub.subset hmem
      obtain ⟨i, hi⟩ := ih hold
      exact ⟨i, (latestTouch_snoc_of_not_touched htouch).2 hi⟩

/-- **The pairs stand in the order of their latest touch.** -/
theorem newer_keys (hstart : start.Indexed) (hempty : start.keys = []) (uses : List Use) :
    (start.run uses).keys.Pairwise (start.Newer uses) := by
  induction uses using List.reverseRecOn with
  | nil =>
    have hkeys : (start.run []).keys = [] := hempty
    rw [hkeys]
    exact List.Pairwise.nil
  | append_singleton uses u ih =>
    -- Between pairs that the use does not touch the order is as before.
    have hkeep : ∀ {p q : Endpoints}, (start.run uses).touched? u ≠ some p →
        (start.run uses).touched? u ≠ some q → start.Newer uses p q →
        start.Newer (uses ++ [u]) p q := by
      intro p q hp hq hnewer i j hi hj
      exact hnewer i j ((latestTouch_snoc_of_not_touched hp).1 hi)
        ((latestTouch_snoc_of_not_touched hq).1 hj)
    rw [run_snoc]
    obtain ⟨p, rest, hp, hkeys, hsub⟩ | ⟨hnone, hsub⟩ := (hstart.run uses).keys_after u
    · have hrest : ∀ q ∈ rest, (start.run uses).touched? u ≠ some q := by
        intro q hq htouch
        have hne : q ≠ p := by simpa using (List.mem_filter.1 (hsub.subset hq)).2
        exact hne (Option.some.inj (htouch.symm.trans hp))
      rw [hkeys, List.pairwise_cons]
      refine ⟨fun q hq i j hi hj => ?_, ?_⟩
      · rw [latestTouch_snoc_of_touched hp] at hi
        rw [latestTouch_snoc_of_not_touched (hrest q hq)] at hj
        exact hi ▸ hj.lt
      · refine (ih.sublist (hsub.trans List.filter_sublist)).imp_of_mem fun ha hb => ?_
        exact hkeep (hrest _ ha) (hrest _ hb)
    · have hfree : ∀ q, (start.run uses).touched? u ≠ some q := fun q htouch => by
        rw [hnone] at htouch
        cases htouch
      exact (ih.sublist hsub).imp (hkeep (hfree _) (hfree _))

/-- What the memo holds for a pair is what was written last. -/
theorem lastWritten?_of_peek? (hstart : start.Indexed) (hempty : start.keys = []) {d : Option ℕ}
    (hd : (start.run uses).peek? pair = some d) : lastWritten? pair uses = some d := by
  induction uses using List.reverseRecOn with
  | nil =>
    have hnone : start.peek? pair = none := by
      rw [peek?_eq_none_iff, hempty]
      exact List.not_mem_nil
    have hsome : start.peek? pair = some d := hd
    rw [hnone] at hsome
    cases hsome
  | append_singleton uses u ih =>
    rw [run_snoc] at hd
    have hor := (hstart.run uses).peek?_after hd
    rw [lastWritten?_snoc]
    cases hwritten : u.written? pair with
    | some e =>
      rw [hwritten] at hor
      exact hor
    | none =>
      rw [hwritten] at hor
      exact ih hor

/-- **A pair is kept while there is room.** When its source was not dropped since its
latest touch and fewer others were touched than the memo has room for, the pair is held,
and only pairs touched since then stand in front of it. -/
theorem exists_keys_split (hstart : start.Indexed) (hlatest : start.LatestTouch uses pair i)
    (hkeep : ∀ u ∈ uses.drop (i + 1), u ≠ .clear ∧ u ≠ .dropFrom pair.source)
    (hfew : (start.touchedSince uses i).card < start.capacity) :
    ∃ newer older, (start.run uses).keys = newer ++ pair :: older ∧
      ∀ q ∈ newer, q ∈ start.touchedSince uses i := by
  induction uses using List.reverseRecOn with
  | nil => cases hlatest.lt
  | append_singleton uses u ih =>
    rw [run_snoc]
    have hindexed := hstart.run uses
    by_cases htouch : (start.run uses).touched? u = some pair
    · obtain ⟨p, rest, hp, hkeys, -⟩ | ⟨hnone, -⟩ := hindexed.keys_after u
      · obtain rfl : p = pair := Option.some.inj (hp.symm.trans htouch)
        exact ⟨[], rest, hkeys, fun q hq => absurd hq List.not_mem_nil⟩
      · rw [hnone] at htouch
        cases htouch
    · rw [latestTouch_snoc_of_not_touched htouch] at hlatest
      have hi := hlatest.lt
      rw [List.drop_append_of_le_length (by omega)] at hkeep
      have hmem : ∀ q, q ∈ start.touchedSince (uses ++ [u]) i ↔
          q ∈ start.touchedSince uses i ∨ (start.run uses).touched? u = some q :=
        fun q => mem_touchedSince_snoc hi
      have hsub : start.touchedSince uses i ⊆ start.touchedSince (uses ++ [u]) i :=
        fun q hq => (hmem q).2 (.inl hq)
      obtain ⟨newer, older, hkeys, hnewer⟩ := ih hlatest
        (fun v hv => hkeep v (List.mem_append_left _ hv))
        ((Finset.card_le_card hsub).trans_lt hfew)
      have hroom : ∀ p, (start.run uses).touched? u = some p →
          (newer.filter (· ≠ p)).length + 1 < (start.run uses).capacity := by
        intro p hp
        have hnodup : (p :: newer.filter (· ≠ p)).Nodup := by
          have hall := hindexed.nodup
          rw [hkeys, List.nodup_append] at hall
          exact List.nodup_cons.2 ⟨by simp, hall.1.filter _⟩
        have hfront : (p :: newer.filter (· ≠ p)).toFinset ⊆
            start.touchedSince (uses ++ [u]) i := by
          intro q hq
          rw [List.mem_toFinset, List.mem_cons] at hq
          rcases hq with rfl | hq
          · exact (hmem q).2 (.inr hp)
          · exact hsub (hnewer q (List.mem_of_mem_filter hq))
        have hcard := Finset.card_le_card hfront
        rw [List.toFinset_card_of_nodup hnodup, List.length_cons] at hcard
        rw [run_capacity]
        omega
      have hlast := hkeep u (List.mem_append_right _ (List.mem_singleton_self u))
      obtain ⟨newer', older', hkeys', hnewer'⟩ :=
        hindexed.keys_after_split hkeys htouch hlast hroom
      refine ⟨newer', older', hkeys', fun q hq => (hmem q).2 ?_⟩
      exact (hnewer' q hq).imp_left (hnewer q)

/-- **The memo evicts the least recently touched pair.** After every run of uses: a new
pair that finds the memo full pushes out the pair whose latest touch is the oldest, and
changes nothing for any other pair; nothing else removes a pair but a drop of its source
or of everything; and a pair is found with the distance of its latest write when, since
its latest touch, neither happened and fewer other pairs were touched than the memo has
room for. -/
theorem evicts_least_recently_touched {capacity : ℕ} (hpos : 0 < capacity) (uses : List Use) :
    let start := Memo.empty capacity hpos
    let m := start.run uses
    (∀ pair d, m.peek? pair = none → m.size = capacity →
      ∃ old i, m.peek? old ≠ none ∧ start.LatestTouch uses old i ∧
        (∀ q, q ≠ old → m.peek? q ≠ none → ∃ j, i < j ∧ start.LatestTouch uses q j) ∧
        ∀ q, (m.write pair d).1.peek? q =
          if q = pair then some d else if q = old then none else m.peek? q) ∧
    (∀ u pair, m.peek? pair ≠ none → (m.after u).peek? pair = none →
      (∃ p d, u = .write p d ∧ m.peek? p = none ∧ m.size = capacity) ∨
        u = .dropFrom pair.source ∨ u = .clear) ∧
    (∀ pair i, start.LatestTouch uses pair i →
      (∀ u ∈ uses.drop (i + 1), u ≠ .clear ∧ u ≠ .dropFrom pair.source) →
      (start.touchedSince uses i).card < capacity →
      ∃ d, lastWritten? pair uses = some d ∧ (m.find pair).1 = some d) := by
  intro start m
  have hstart : start.Indexed := .empty hpos
  have hempty : start.keys = [] := rfl
  have hindexed : m.Indexed := hstart.run uses
  have hcapacity : m.capacity = capacity := start.run_capacity uses
  refine ⟨fun pair d hnew hfull => ?_, fun u pair hheld hgone => ?_,
    fun pair i hlatest hkeep hfew => ?_⟩
  · obtain ⟨front, old, hkeys, hpeek⟩ := hindexed.write_full hnew (hfull.trans hcapacity.symm) d
    have hordered : (front ++ [old]).Pairwise (start.Newer uses) :=
      hkeys ▸ newer_keys hstart hempty uses
    have hold : old ∈ m.keys := by simp [hkeys]
    obtain ⟨i, hi⟩ := exists_latestTouch hstart hempty hold
    refine ⟨old, i, mt peek?_eq_none_iff.1 (not_not.2 hold), hi, fun q hq hheld => ?_, hpeek⟩
    have hmem : q ∈ m.keys := not_not.1 (mt peek?_eq_none_iff.2 hheld)
    obtain ⟨j, hj⟩ := exists_latestTouch hstart hempty hmem
    have hfront : q ∈ front := by simpa [hkeys, hq] using hmem
    exact ⟨j, (List.pairwise_append.1 hordered).2.2 q hfront old (by simp) j i hj hi, hj⟩
  · rw [ne_eq, peek?_eq_none_iff, not_not] at hheld
    rw [peek?_eq_none_iff] at hgone
    have hremoval := hindexed.removal hheld hgone
    simp only [peek?_eq_none_iff, ← hcapacity]
    exact hremoval
  · obtain ⟨newer, older, hkeys, -⟩ := exists_keys_split hstart hlatest hkeep hfew
    have hmem : pair ∈ m.keys := by simp [m, hkeys]
    obtain ⟨d, hd⟩ := Option.ne_none_iff_exists'.1 (mt peek?_eq_none_iff.1 (not_not.2 hmem))
    exact ⟨d, lastWritten?_of_peek? hstart hempty hd, (m.find_fst pair).trans hd⟩

/-- Writes, a hit, a miss, a drop that leaves a gap, an overwrite, and a write into the
gap. -/
def mixed : List Use :=
  [.write ⟨"a", "b"⟩ (some 1), .write ⟨"a", "c"⟩ (some 2), .write ⟨"x", "y"⟩ none,
    .find ⟨"a", "b"⟩, .find ⟨"y", "x"⟩, .dropFrom "x", .write ⟨"a", "c"⟩ (some 5),
    .write ⟨"u", "v"⟩ (some 7)]

/-- A memo of three is full then. One more pair pushes out the one that was found early
on, though it was written first and found since, and the one that was overwritten is
found with its second distance. -/
theorem evicts_least_recently_touched_mixed :
    let start := Memo.empty 3 (by decide)
    let m := start.run mixed
    (∃ i, start.LatestTouch mixed ⟨"a", "b"⟩ i ∧
      ∃ j, i < j ∧ start.LatestTouch mixed ⟨"a", "c"⟩ j) ∧
    (m.write ⟨"v", "u"⟩ none).1.peek? ⟨"a", "b"⟩ = none ∧
    (m.write ⟨"v", "u"⟩ none).1.peek? ⟨"a", "c"⟩ = some (some 5) ∧
    start.LatestTouch mixed ⟨"a", "c"⟩ 6 ∧ (m.find ⟨"a", "c"⟩).1 = some (some 5) := by
  intro start m
  obtain ⟨hevict, -, hkeep⟩ := evicts_least_recently_touched (by decide : 0 < 3) mixed
  obtain ⟨old, i, -, hi, hlater, hpeek⟩ :=
    hevict ⟨"v", "u"⟩ none (by decide +kernel) (by decide +kernel)
  have hgone : (m.write ⟨"v", "u"⟩ none).1.peek? ⟨"a", "b"⟩ = none := by decide +kernel
  obtain rfl : old = ⟨"a", "b"⟩ := by
    by_contra hne
    have hsame := hpeek ⟨"a", "b"⟩
    rw [hgone, if_neg (by decide), if_neg (Ne.symm hne)] at hsame
    exact absurd hsame.symm (by decide +kernel)
  have hlatest : start.LatestTouch mixed ⟨"a", "c"⟩ 6 := by
    refine ⟨by decide +kernel, fun j hj => ?_⟩
    have hlt := (List.getElem?_eq_some_iff.1 hj).choose
    rw [length_touches] at hlt
    have hall : ∀ j < 8, (start.touches mixed)[j]? = some (some ⟨"a", "c"⟩) → j ≤ 6 := by
      decide +kernel
    exact hall j hlt hj
  obtain ⟨d, hd, hfound⟩ := hkeep ⟨"a", "c"⟩ 6 hlatest (by simp [mixed]) (by decide +kernel)
  obtain rfl : some 5 = d := Option.some.inj hd
  refine ⟨⟨i, hi, hlater _ (by decide) (by decide +kernel)⟩, hgone, ?_, hlatest, hfound⟩
  rw [hpeek, if_neg (by decide), if_neg (by decide)]
  decide +kernel

end Memo
end TaintGraph
