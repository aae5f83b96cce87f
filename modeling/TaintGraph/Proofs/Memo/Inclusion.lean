/-
# A larger memo includes a smaller one

Two memos of different capacity that are used in the same way drift apart: a pair that
only the larger one holds is found there and moves to the front, and a drop may leave the
larger one full and the smaller one not. Still the larger one never loses a pair that the
smaller one keeps.

The entries of the smaller memo stand among those of the larger one in the same order,
and the larger one holds at most as many more as it has more room (`Memo.Within`). By the
second fact a larger memo that has to push out an entry of both finds the smaller one full,
and by the first it is the entry that the smaller one pushes out too: keeping the first of
each list keeps the one inside the other (`Memo.take_sublist_take`). Every use keeps both
facts (`Memo.Within.after`), so they hold after every run (`Memo.Within.run`).

Key definitions: `Memo.Within`.
Key theorems: `Memo.take_sublist_take`, `Memo.Within.after`, `Memo.Within.run`,
`Memo.larger_memo_includes`.
-/
import TaintGraph.Proofs.Memo.Recency

namespace TaintGraph
namespace Memo

/-! ### Lists inside lists -/

section Lists

variable {α : Type} {inner outer : List α}

/-- The first of a list stay among the first of one that holds it, if the outer list is
cut at least as far behind as it is longer. -/
theorem take_sublist_take (h : inner.Sublist outer) {n k : ℕ}
    (hlen : outer.length + n ≤ inner.length + k) : (inner.take n).Sublist (outer.take k) := by
  induction h generalizing n k with
  | slnil => simp
  | @cons inner outer x h ih =>
    have hle := h.length_le
    rw [List.length_cons] at hlen
    obtain ⟨k, rfl⟩ : ∃ j, k = j + 1 := ⟨k - 1, by omega⟩
    rw [List.take_succ_cons]
    exact (ih (by omega)).cons x
  | @cons_cons inner outer x h ih =>
    have hle := h.length_le
    rw [List.length_cons, List.length_cons] at hlen
    cases n with
    | zero => simp
    | succ n =>
      obtain ⟨k, rfl⟩ : ∃ j, k = j + 1 := ⟨k - 1, by omega⟩
      rw [List.take_succ_cons, List.take_succ_cons]
      exact (ih (by omega)).cons_cons x

/-- A filter does not widen the gap between a list and one that holds it. -/
theorem length_filter_add_le (h : inner.Sublist outer) (keep : α → Bool) :
    (outer.filter keep).length + inner.length ≤ (inner.filter keep).length + outer.length := by
  have hdropped := h.countP_le (p := fun x => ¬ keep x)
  have hinner := List.length_eq_countP_add_countP keep (l := inner)
  have houter := List.length_eq_countP_add_countP keep (l := outer)
  rw [← List.countP_eq_length_filter, ← List.countP_eq_length_filter]
  omega

end Lists

/-! ### One memo inside another -/

/-- The entries of the smaller memo stand among those of the larger one in their order,
and the larger one holds at most as many more as it has more room. -/
structure Within (small large : Memo) : Prop where
  small_indexed : small.Indexed
  large_indexed : large.Indexed
  entries : small.entries.Sublist large.entries
  gap : large.size + small.capacity ≤ small.size + large.capacity
  hits : small.hits ≤ large.hits

namespace Within

variable {small large : Memo}

theorem keys (h : Within small large) : small.keys.Sublist large.keys :=
  h.entries.map Prod.fst

theorem others (h : Within small large) (pair : Endpoints) :
    (small.others pair).Sublist (large.others pair) :=
  h.entries.filter _

theorem capacity_le (h : Within small large) : small.capacity ≤ large.capacity := by
  have hgap := h.gap
  have hsize : small.size ≤ large.size := h.entries.length_le
  omega

/-- Leaving out one pair on both sides keeps the gap. -/
theorem gap_others (h : Within small large) (pair : Endpoints) :
    (large.others pair).length + small.capacity ≤
      (small.others pair).length + large.capacity := by
  have hfilter := length_filter_add_le h.entries fun e => e.1 ≠ pair
  have hgap := h.gap
  unfold size at hgap
  unfold Memo.others
  omega

theorem peek? (h : Within small large) {pair : Endpoints} {d : Option ℕ}
    (hd : small.peek? pair = some d) : large.peek? pair = some d :=
  h.large_indexed.peek?_eq_some_iff.2 (h.entries.subset (mem_entries_of_peek? hd))

theorem dropFrom_fst_le (h : Within small large) (source : String) :
    (small.dropFrom source).1 ≤ (large.dropFrom source).1 := by
  rw [h.small_indexed.dropFrom_count, h.large_indexed.dropFrom_count]
  exact h.keys.countP_le

/-! ### What one use keeps -/

theorem empty {capacity capacity' : ℕ} (hpos : 0 < capacity) (hle : capacity ≤ capacity') :
    Within (Memo.empty capacity hpos) (Memo.empty capacity' (hpos.trans_le hle)) where
  small_indexed := .empty hpos
  large_indexed := .empty _
  entries := .refl _
  gap := by
    show 0 + capacity ≤ 0 + capacity'
    omega
  hits := Nat.le_refl _

/-- A look-up that only the larger memo answers moves a pair that the smaller one does not
hold; all others stay in their order. -/
theorem entries_find (h : Within small large) (pair : Endpoints) :
    (small.find pair).2.entries.Sublist (large.find pair).2.entries := by
  unfold Memo.find
  cases hsmall : small.peek? pair with
  | some d =>
    rw [h.peek? hsmall]
    exact (h.others pair).cons_cons _
  | none =>
    cases hlarge : large.peek? pair with
    | none => exact h.entries
    | some d =>
      have hothers := h.others pair
      rw [others_eq_of_peek?_none hsmall] at hothers
      exact hothers.cons _

/-- What hits in the smaller memo hits in the larger one. -/
theorem hits_find (h : Within small large) (pair : Endpoints) :
    (small.find pair).2.hits ≤ (large.find pair).2.hits := by
  have hhits := h.hits
  cases hsmall : small.peek? pair with
  | some d => simp [hsmall, h.peek? hsmall, hhits]
  | none =>
    simp only [Memo.hits_find, hsmall, Option.isSome_none, Bool.false_eq_true, if_false]
    split_ifs <;> omega

theorem find (h : Within small large) (pair : Endpoints) :
    Within (small.find pair).2 (large.find pair).2 where
  small_indexed := h.small_indexed.find pair
  large_indexed := h.large_indexed.find pair
  entries := h.entries_find pair
  gap := by
    rw [h.small_indexed.size_find, h.large_indexed.size_find]
    simpa using h.gap
  hits := h.hits_find pair

/-- What a write pushes out of the larger memo the smaller one does not keep. -/
theorem write (h : Within small large) (pair : Endpoints) (distance : Option ℕ) :
    Within (small.write pair distance).1 (large.write pair distance).1 where
  small_indexed := h.small_indexed.write pair distance
  large_indexed := h.large_indexed.write pair distance
  entries := by
    have hgap := h.gap_others pair
    have hpos := small.capacity_pos
    have hle := h.capacity_le
    exact (take_sublist_take (h.others pair) (by omega)).cons_cons _
  gap := by
    have hgap := h.gap_others pair
    have hpos := small.capacity_pos
    have hle := h.capacity_le
    simp only [Memo.write, Memo.size, List.length_cons, List.length_take]
    omega
  hits := h.hits

theorem dropFrom (h : Within small large) (source : String) :
    Within (small.dropFrom source).2.1 (large.dropFrom source).2.1 where
  small_indexed := h.small_indexed.dropFrom source
  large_indexed := h.large_indexed.dropFrom source
  entries := by
    rw [h.small_indexed.dropFrom_entries, h.large_indexed.dropFrom_entries]
    exact h.entries.filter _
  gap := by
    have hfilter := length_filter_add_le h.entries fun e => e.1.source ≠ source
    have hgap := h.gap
    unfold size at hgap ⊢
    rw [capacity_dropFrom, capacity_dropFrom, h.small_indexed.dropFrom_entries,
      h.large_indexed.dropFrom_entries]
    omega
  hits := by simpa using h.hits

theorem clear (h : Within small large) : Within small.clear large.clear where
  small_indexed := .clear
  large_indexed := .clear
  entries := .refl _
  gap := by
    have hle := h.capacity_le
    show 0 + small.capacity ≤ 0 + large.capacity
    omega
  hits := h.hits

theorem after (h : Within small large) (u : Use) : Within (small.after u) (large.after u) := by
  cases u with
  | find pair => exact h.find pair
  | write pair distance => exact h.write pair distance
  | dropFrom source => exact h.dropFrom source
  | clear => exact h.clear

theorem run (h : Within small large) (uses : List Use) :
    Within (small.run uses) (large.run uses) := by
  induction uses generalizing small large with
  | nil => exact h
  | cons u uses ih => exact ih (h.after u)

end Within

/-- **A larger memo includes a smaller one.** After every run of uses, shared by a memo and
one of at least its capacity: what the smaller one holds for a pair the larger one holds
too, with the same distance; so a look-up that the smaller one answers is answered by the
larger one in the same way, a drop of a source removes at least as many entries from the
larger one, and the larger one has had at least as many hits. -/
theorem larger_memo_includes {capacity capacity' : ℕ} (hpos : 0 < capacity)
    (hle : capacity ≤ capacity') (uses : List Use) :
    let small := (Memo.empty capacity hpos).run uses
    let large := (Memo.empty capacity' (hpos.trans_le hle)).run uses
    (∀ pair d, small.peek? pair = some d → large.peek? pair = some d) ∧
    (∀ pair d, (small.find pair).1 = some d → (large.find pair).1 = some d) ∧
    (∀ source, (small.dropFrom source).1 ≤ (large.dropFrom source).1) ∧
    small.hits ≤ large.hits := by
  intro small large
  have h : Within small large := (Within.empty hpos hle).run uses
  refine ⟨fun pair d => h.peek?, fun pair d hd => ?_, h.dropFrom_fst_le, h.hits⟩
  rw [find_fst] at hd ⊢
  exact h.peek? hd

/-- Three writes, the first of them pushed out of a memo of two, a look-up of it, a drop
that leaves a gap, and a write into the gap. -/
def drifting : List Use :=
  [.write ⟨"a", "b"⟩ (some 1), .write ⟨"a", "c"⟩ (some 2), .write ⟨"x", "y"⟩ none,
    .find ⟨"a", "b"⟩, .dropFrom "x", .write ⟨"u", "v"⟩ (some 7)]

/-- Memos of two and of three: the orders have drifted apart, the pair that both hold is the
oldest of the larger one, and the drop of its source takes two entries there. -/
theorem larger_memo_includes_drifting :
    let small := (Memo.empty 2 (by decide)).run drifting
    let large := (Memo.empty 3 (by decide)).run drifting
    small.keys = [⟨"u", "v"⟩, ⟨"a", "c"⟩] ∧
    large.keys = [⟨"u", "v"⟩, ⟨"a", "b"⟩, ⟨"a", "c"⟩] ∧
    (large.find ⟨"a", "c"⟩).1 = some (some 2) ∧
    1 ≤ (large.dropFrom "a").1 ∧ small.hits ≤ large.hits := by
  intro small large
  obtain ⟨-, hfind, hdrop, hhits⟩ :=
    larger_memo_includes (by decide : 0 < 2) (by decide : 2 ≤ 3) drifting
  have hone : (small.dropFrom "a").1 = 1 := by decide +kernel
  refine ⟨by decide +kernel, by decide +kernel, hfind _ _ (by decide +kernel), ?_, hhits⟩
  exact hone ▸ hdrop "a"

end Memo
end TaintGraph
