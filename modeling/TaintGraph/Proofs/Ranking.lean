/-
# Callables are ranked alike in whatever order they come

Callables with a positive score are ranked by score and, where scores are equal, by ID. As no
two callables of a table have the same ID, this order is strict (`pairwise_ranked`), so it
determines the list: whatever order the callables come in, they are ranked alike
(`ranked_perm`). A ranking is a beginning of that list, so it depends on the callables of a
table and not on the order in which they are gone through
(`CallTable.WellFormed.ranking_perm`).

Key definitions: `ranked`, `Outranks`.
Key theorems: `pairwise_ranked`, `ranked_perm`, `CallTable.WellFormed.ranking_perm`.
-/
import Mathlib.Algebra.Order.Ring.Rat
import TaintGraph.Proofs.Table.WellFormed
import TaintGraph.Score

namespace TaintGraph

/-! ### The order of scored callables -/

/-- The first has the higher score or, at equal scores, the smaller ID. -/
def Outranks (a b : Callable × Single) : Prop :=
  b.2 < a.2 ∨ (a.2 = b.2 ∧ a.1.id < b.1.id)

instance (a b : Callable × Single) : Decidable (Outranks a b) :=
  inferInstanceAs (Decidable (_ ∨ _))

theorem Single.lt_or_eq_or_lt (x y : Single) : x < y ∨ x = y ∨ y < x := by
  rcases lt_trichotomy x.val y.val with hlt | heq | hgt
  · exact .inl hlt
  · exact .inr (.inl (congrArg Single.mk heq))
  · exact .inr (.inr hgt)

theorem Outranks.asymm {a b : Callable × Single} (hab : Outranks a b) : ¬ Outranks b a := by
  intro hba
  rcases hab with hlt | ⟨heq, hid⟩ <;> rcases hba with hlt' | ⟨heq', hid'⟩
  · exact lt_asymm (show b.2.val < a.2.val from hlt) hlt'
  · exact lt_irrefl _ (show b.2.val < b.2.val from heq' ▸ hlt)
  · exact lt_irrefl _ (show a.2.val < a.2.val from heq ▸ hlt')
  · exact String.lt_asymm hid hid'

theorem ranksBefore_iff {a b : Callable × Single} :
    ranksBefore a b = true ↔ b.2 < a.2 ∨ (a.2 = b.2 ∧ a.1.id ≤ b.1.id) := by
  simp [ranksBefore]

theorem ranksBefore_trans (a b c : Callable × Single) (hab : ranksBefore a b = true)
    (hbc : ranksBefore b c = true) : ranksBefore a c = true := by
  rw [ranksBefore_iff] at *
  rcases hab with hlt | ⟨heq, hid⟩
  · rcases hbc with hlt' | ⟨heq', -⟩
    · exact .inl (lt_trans (show c.2.val < b.2.val from hlt') hlt)
    · exact .inl (heq' ▸ hlt)
  · rcases hbc with hlt' | ⟨heq', hid'⟩
    · exact .inl (heq ▸ hlt')
    · exact .inr ⟨heq.trans heq', String.le_trans hid hid'⟩

theorem ranksBefore_total (a b : Callable × Single) :
    (ranksBefore a b || ranksBefore b a) = true := by
  rw [Bool.or_eq_true, ranksBefore_iff, ranksBefore_iff]
  rcases Single.lt_or_eq_or_lt a.2 b.2 with hlt | heq | hgt
  · exact .inr (.inl hlt)
  · rcases String.le_total a.1.id b.1.id with hid | hid
    · exact .inl (.inr ⟨heq, hid⟩)
    · exact .inr (.inr ⟨heq.symm, hid⟩)
  · exact .inl (.inl hgt)

theorem outranks_of_ranksBefore {a b : Callable × Single} (h : ranksBefore a b = true)
    (hid : a.1.id ≠ b.1.id) : Outranks a b :=
  (ranksBefore_iff.1 h).imp_right fun hle => ⟨hle.1, Std.lt_of_le_of_ne hle.2 hid⟩

/-! ### The ranking without a limit -/

/-- The callables with a positive score, beside it. -/
def scored (cs : List Callable) : List (Callable × Single) :=
  (cs.map fun c => (c, c.score)).filter fun p => decide (0 < p.2)

/-- All that a ranking can list, in its order. -/
def ranked (cs : List Callable) : List (Callable × Single) :=
  (scored cs).mergeSort ranksBefore

theorem ranking_eq_take (limit : ℕ) (cs : List Callable) :
    ranking limit cs = (ranked cs).take limit :=
  rfl

variable {cs cs' : List Callable} {p : Callable × Single}

theorem mem_ranked : p ∈ ranked cs ↔ p.1 ∈ cs ∧ p.2 = p.1.score ∧ 0 < p.2 := by
  rw [ranked, List.mem_mergeSort, scored, List.mem_filter, List.mem_map, decide_eq_true_eq,
    ← and_assoc]
  refine and_congr_left fun _ => ⟨fun h => ?_, fun h => ⟨p.1, h.1, Prod.ext rfl h.2.symm⟩⟩
  obtain ⟨c, hc, rfl⟩ := h
  exact ⟨hc, rfl⟩

theorem length_ranked_le (cs : List Callable) : (ranked cs).length ≤ cs.length := by
  calc (ranked cs).length
      = (scored cs).length := List.length_mergeSort _
    _ ≤ (cs.map fun c => (c, c.score)).length := List.length_filter_le _ _
    _ = cs.length := List.length_map _

/-- The IDs stay distinct. -/
theorem nodup_ranked (hnodup : (cs.map Callable.id).Nodup) :
    ((ranked cs).map fun p => p.1.id).Nodup := by
  have hscored : ((scored cs).map fun p => p.1.id).Nodup := by
    have hids : ((cs.map fun c => (c, c.score)).map fun p => p.1.id) = cs.map Callable.id :=
      List.map_map
    exact (hids ▸ hnodup).sublist (List.filter_sublist.map _)
  exact ((List.mergeSort_perm (scored cs) ranksBefore).map _).nodup_iff.2 hscored

/-- **The order of the ranking is strict.** -/
theorem pairwise_ranked (hnodup : (cs.map Callable.id).Nodup) :
    (ranked cs).Pairwise Outranks := by
  have hsorted : (ranked cs).Pairwise fun a b => ranksBefore a b = true :=
    List.pairwise_mergeSort ranksBefore_trans ranksBefore_total _
  have hids : (ranked cs).Pairwise fun a b => a.1.id ≠ b.1.id :=
    List.pairwise_map.1 (nodup_ranked hnodup)
  exact hsorted.imp₂ (fun _ _ h hid => outranks_of_ranksBefore h hid) hids

/-- The order leaves no choice: a list in it that holds what is scored is the ranking. -/
theorem ranked_eq (hnodup : (cs.map Callable.id).Nodup) {ps : List (Callable × Single)}
    (hperm : ps.Perm (scored cs)) (hps : ps.Pairwise Outranks) : ranked cs = ps := by
  have hranked : (ranked cs).Perm ps := (List.mergeSort_perm _ _).trans hperm.symm
  exact hranked.eq_of_pairwise (fun a b _ _ hab hba => absurd hba hab.asymm)
    (pairwise_ranked hnodup) hps

/-- **Callables are ranked alike in whatever order they come.** -/
theorem ranked_perm (hperm : cs.Perm cs') (hnodup : (cs.map Callable.id).Nodup) :
    ranked cs = ranked cs' := by
  have hnodup' : (cs'.map Callable.id).Nodup := (hperm.map _).nodup_iff.1 hnodup
  have hscored : (scored cs').Perm (scored cs) := (hperm.symm.map _).filter _
  exact ranked_eq hnodup ((List.mergeSort_perm _ _).trans hscored) (pairwise_ranked hnodup')

namespace CallTable.WellFormed

variable {t : CallTable}

theorem nodup_map_id (h : t.WellFormed) : (t.callables.map Callable.id).Nodup :=
  h.map_id_callables ▸ t.nodup_known

/-- The callables of a table may be gone through in any order to rank them. -/
theorem ranking_perm (h : t.WellFormed) (hcs : cs.Perm t.callables) (hcs' : cs'.Perm t.callables)
    (limit : ℕ) : ranking limit cs = ranking limit cs' := by
  have hnodup : (cs.map Callable.id).Nodup := (hcs.map _).nodup_iff.2 h.nodup_map_id
  rw [ranking_eq_take, ranking_eq_take, ranked_perm (hcs.trans hcs'.symm) hnodup]

end CallTable.WellFormed
end TaintGraph
