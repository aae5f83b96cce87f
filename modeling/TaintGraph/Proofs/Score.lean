/-
# Scores fall with the distances

A score is the outcome of roundings in a row: of the two distances, of each plus one, of their
product, and of its inverse. Rounding keeps the order, so every step does, and the last one
turns it round (`scoreOf_antitone`). Operands and products are at least one and far from the
end of the format, so the score is positive (`scoreOf_pos`).

Below `2 ^ 20` a distance plus one is exact. Then a product grows by at least a part in `2 ^ 20`
of it when one of the distances grows by one, and the two roundings that follow move a number
by at most a part in `2 ^ 24` of it each, so they cannot close that gap (`scoreOf_succ_lt`).

Key theorems: `scoreOf_pos`, `scoreOf_antitone`, `scoreOf_succ_lt`, `score_falls_with_distance`.
-/
import TaintGraph.Proofs.Json.RoundTrip
import TaintGraph.Proofs.Single
import TaintGraph.Scan.Request

namespace TaintGraph

namespace Single

theorem one_val : (1 : Single).val = 1 := rfl

theorem add_val (a b : Single) : (a + b).val = (round (a.val + b.val)).val := rfl

theorem mul_val (a b : Single) : (a * b).val = (round (a.val * b.val)).val := rfl

theorem onGrid_one : OnGrid 1 :=
  ⟨1, 0, by norm_num, by norm_num, by simp [twoPow_eq]⟩

/-! ### A distance plus one -/

theorem ofNat_nonneg (d : ℕ) : 0 ≤ (ofNat d).val :=
  le_round le_rfl onGrid_zero (Nat.cast_nonneg d)

theorem one_le_ofNat_add_one (d : ℕ) : 1 ≤ (ofNat d + 1).val :=
  le_round zero_le_one onGrid_one (le_add_of_nonneg_left (ofNat_nonneg d))

theorem ofNat_add_one_mono {d d' : ℕ} (h : d ≤ d') : (ofNat d + 1).val ≤ (ofNat d' + 1).val := by
  have hround : (ofNat d).val ≤ (ofNat d').val := round_mono (Nat.cast_nonneg d) (Nat.cast_le.2 h)
  exact round_mono (add_nonneg (ofNat_nonneg d) zero_le_one) (add_le_add_left hround _)

theorem ofNat_le {d : ℕ} (h : d < UInt32.size) : (ofNat d).val ≤ twoPow 32 := by
  refine round_le (Nat.cast_nonneg d) (onGrid_twoPow (by norm_num)) ?_
  calc (d : ℚ) ≤ (2 ^ 32 : ℕ) := Nat.cast_le.2 h.le
    _ = twoPow 32 := (twoPow_natCast 32).symm

theorem ofNat_add_one_le {d : ℕ} (h : d < UInt32.size) : (ofNat d + 1).val ≤ twoPow 33 := by
  have hd := ofNat_le h
  refine round_le (add_nonneg (ofNat_nonneg d) zero_le_one) (onGrid_twoPow (by norm_num)) ?_
  calc (ofNat d).val + 1 ≤ twoPow 32 + twoPow 32 := by
        gcongr
        norm_num [twoPow_eq]
    _ = twoPow 33 := by norm_num [twoPow_eq]

theorem ofNat_add_one_eq {d : ℕ} (h : d + 1 < 2 ^ 24) : (ofNat d + 1).val = d + 1 := by
  have hd : (ofNat d).val = d := round_of_onGrid (Nat.cast_nonneg d) (onGrid_natCast (by omega))
  rw [add_val, hd, one_val]
  exact_mod_cast round_of_onGrid (Nat.cast_nonneg (d + 1)) (onGrid_natCast h)

/-! ### The product of two of them -/

/-- The product from which the score of two distances comes. -/
def product (d e : ℕ) : ℚ :=
  ((ofNat d + 1) * (ofNat e + 1)).val

theorem one_le_product (d e : ℕ) : 1 ≤ product d e :=
  le_round zero_le_one onGrid_one
    (one_le_mul_of_one_le_of_one_le (one_le_ofNat_add_one d) (one_le_ofNat_add_one e))

theorem product_pos (d e : ℕ) : 0 < product d e :=
  zero_lt_one.trans_le (one_le_product d e)

theorem product_mono {d d' e e' : ℕ} (hd : d ≤ d') (he : e ≤ e') : product d e ≤ product d' e' := by
  have hd0 := zero_le_one.trans (one_le_ofNat_add_one d)
  have he0 := zero_le_one.trans (one_le_ofNat_add_one e)
  refine round_mono (mul_nonneg hd0 he0) ?_
  exact mul_le_mul (ofNat_add_one_mono hd) (ofNat_add_one_mono he) he0
    (hd0.trans (ofNat_add_one_mono hd))

theorem product_le {d e : ℕ} (hd : d < UInt32.size) (he : e < UInt32.size) :
    product d e ≤ twoPow 66 := by
  have hd0 := zero_le_one.trans (one_le_ofNat_add_one d)
  have he0 := zero_le_one.trans (one_le_ofNat_add_one e)
  refine round_le (mul_nonneg hd0 he0) (onGrid_twoPow (by norm_num)) ?_
  calc (ofNat d + 1).val * (ofNat e + 1).val
      ≤ twoPow 33 * twoPow 33 :=
        mul_le_mul (ofNat_add_one_le hd) (ofNat_add_one_le he) he0 (twoPow_pos 33).le
    _ = twoPow 66 := (twoPow_add 33 33).symm

/-- Small distances make exact factors, so only the product is rounded. -/
theorem abs_product_sub_le {d e : ℕ} (hd : d + 1 < 2 ^ 24) (he : e + 1 < 2 ^ 24) :
    |product d e - (d + 1) * (e + 1)| ≤ (d + 1) * (e + 1) / 2 ^ 24 := by
  have hone : (1 : ℚ) ≤ (d + 1) * (e + 1) := by
    exact_mod_cast Nat.one_le_iff_ne_zero.2 (by positivity)
  have hsmall : twoPow (-126) ≤ 1 := by norm_num [twoPow_eq]
  rw [product, mul_val, ofNat_add_one_eq hd, ofNat_add_one_eq he]
  exact abs_round_sub_le (hsmall.trans hone)

/-- Between the products of a distance and of the next there is room for another error. -/
theorem product_gap {d e : ℕ} (hd : d < 2 ^ 20) (he : e < 2 ^ 20) :
    product d e * (1 + 1 / 2 ^ 24) < product (d + 1) e * (1 - 1 / 2 ^ 24) := by
  have hhigh := (abs_le.1 (abs_product_sub_le (d := d) (e := e) (by omega) (by omega))).2
  have hlow := (abs_le.1 (abs_product_sub_le (d := d + 1) (e := e) (by omega) (by omega))).1
  -- Two errors on either side, of the product and of the quotient to come, against one in `d + 1`.
  have hexact : ((d : ℚ) + 1) * (1 + 1 / 2 ^ 24) ^ 2 < (d + 1 + 1) * (1 - 1 / 2 ^ 24) ^ 2 := by
    have hle : (d : ℚ) + 1 ≤ 2 ^ 20 := by exact_mod_cast hd
    linarith
  have hscaled := mul_lt_mul_of_pos_right hexact (show (0 : ℚ) < e + 1 by positivity)
  push_cast at hlow
  calc product d e * (1 + 1 / 2 ^ 24)
      ≤ ((d : ℚ) + 1) * (e + 1) * (1 + 1 / 2 ^ 24) * (1 + 1 / 2 ^ 24) := by
        gcongr
        linarith
    _ < ((d : ℚ) + 1 + 1) * (e + 1) * (1 - 1 / 2 ^ 24) * (1 - 1 / 2 ^ 24) := by linarith
    _ ≤ product (d + 1) e * (1 - 1 / 2 ^ 24) := by
        gcongr
        linarith

end Single

/-! ### Scores -/

theorem scoreOf_comm (d e : ℕ) : scoreOf d e = scoreOf e d := by
  have hcomm : (Single.ofNat d + 1) * (Single.ofNat e + 1) =
      (Single.ofNat e + 1) * (Single.ofNat d + 1) :=
    congrArg Single.round (mul_comm _ _)
  rw [scoreOf, hcomm, scoreOf]

theorem scoreOf_antitone {d d' e e' : ℕ} (hd : d ≤ d') (he : e ≤ e') :
    (scoreOf d' e').val ≤ (scoreOf d e).val := by
  have hpos := Single.product_pos d e
  have hle := Single.product_mono hd he
  exact Single.round_mono (one_div_nonneg.2 (hpos.le.trans hle)) (one_div_le_one_div_of_le hpos hle)

theorem scoreOf_le_one (d e : ℕ) : (scoreOf d e).val ≤ 1 := by
  have hpos := Single.product_pos d e
  refine Single.round_le (one_div_nonneg.2 hpos.le) Single.onGrid_one ?_
  exact (div_le_one hpos).2 (Single.one_le_product d e)

/-- All numbers on the way to a score are far below the end of the format. -/
theorem finite_toward_score {d e : ℕ} (hd : d < UInt32.size) (he : e < UInt32.size) :
    ∀ x ∈ [Single.ofNat d, Single.ofNat e, Single.ofNat d + 1, Single.ofNat e + 1,
      (Single.ofNat d + 1) * (Single.ofNat e + 1), scoreOf d e], x.Finite := by
  have hone : (scoreOf d e).val ≤ Single.twoPow 0 := scoreOf_le_one d e
  simp only [List.forall_mem_cons]
  exact ⟨Single.finite_round (by norm_num) (Single.ofNat_le hd),
    Single.finite_round (by norm_num) (Single.ofNat_le he),
    Single.finite_round (by norm_num) (Single.ofNat_add_one_le hd),
    Single.finite_round (by norm_num) (Single.ofNat_add_one_le he),
    Single.finite_round (by norm_num) (Single.product_le hd he),
    Single.finite_round (by norm_num) hone, List.forall_mem_nil _⟩

/-- The inverse of a product is far from what is too small for the format. -/
theorem le_one_div_product {d e : ℕ} (hd : d < UInt32.size) (he : e < UInt32.size) :
    Single.twoPow (-66) ≤ 1 / Single.product d e := by
  calc Single.twoPow (-66) = 1 / Single.twoPow 66 := by norm_num [Single.twoPow_eq]
    _ ≤ 1 / Single.product d e :=
      one_div_le_one_div_of_le (Single.product_pos d e) (Single.product_le hd he)

theorem scoreOf_pos {d e : ℕ} (hd : d < UInt32.size) (he : e < UInt32.size) :
    0 < (scoreOf d e).val :=
  (Single.twoPow_pos (-66)).trans_le (Single.le_round (Single.twoPow_pos (-66)).le
    (Single.onGrid_twoPow (by norm_num)) (le_one_div_product hd he))

/-- **The roundings do not close the gap** between a distance and the next. -/
theorem scoreOf_succ_lt {d e : ℕ} (hd : d < 2 ^ 20) (he : e < 2 ^ 20) :
    scoreOf (d + 1) e < scoreOf d e := by
  have hsize : 2 ^ 20 < UInt32.size := by decide
  have hsmall : Single.twoPow (-126) ≤ Single.twoPow (-66) := Single.twoPow_le (by norm_num)
  have hgap : 1 / Single.product (d + 1) e * (1 + 1 / 2 ^ 24) <
      1 / Single.product d e * (1 - 1 / 2 ^ 24) := by
    rw [one_div_mul_eq_div, one_div_mul_eq_div,
      div_lt_div_iff₀ (Single.product_pos (d + 1) e) (Single.product_pos d e)]
    linarith [Single.product_gap hd he]
  exact Single.round_lt_round
    (hsmall.trans (le_one_div_product (by omega) (by omega)))
    (hsmall.trans (le_one_div_product (by omega) (by omega))) hgap

theorem Callable.score_eq_zero_iff {c : Callable} (h : c.Fits) :
    c.score = 0 ↔ c.fromEntry = none ∨ c.toSink = none := by
  unfold Callable.score
  split
  next d e hd he =>
    have hpos := scoreOf_pos (h.1 d hd) (h.2 e he)
    have hne : scoreOf d e ≠ 0 := fun hzero => hpos.ne' (congrArg Single.val hzero)
    simp [hne, hd, he]
  next hnone =>
    refine iff_of_true rfl ?_
    cases hd : c.fromEntry with
    | none => exact .inl rfl
    | some d =>
      cases he : c.toSink with
      | none => exact .inr rfl
      | some e => exact absurd he (hnone d e hd)

/-- **Scores fall with the distances.** For distances of 32 bits a score and all numbers on the
way to it are finite, and the score is positive. So a callable scores zero exactly when one of
its distances is unknown, and an ID does when it has no such callable. No score rises when a
distance does, and below `2 ^ 20` every further hop lowers it. -/
theorem score_falls_with_distance :
    (∀ d e : ℕ, d < UInt32.size → e < UInt32.size → 0 < scoreOf d e ∧
      ∀ x ∈ [Single.ofNat d, Single.ofNat e, Single.ofNat d + 1, Single.ofNat e + 1,
        (Single.ofNat d + 1) * (Single.ofNat e + 1), scoreOf d e], x.Finite) ∧
    (∀ c : Callable, c.Fits → (c.score = 0 ↔ c.fromEntry = none ∨ c.toSink = none)) ∧
    (∀ (s : Scan) (id : String), (∀ c ∈ s.table.callable? id, c.Fits) →
      ((s.perform (.score id)).1 = .score 0 ↔
        ∀ c ∈ s.table.callable? id, c.fromEntry = none ∨ c.toSink = none)) ∧
    (∀ d d' e e' : ℕ, d ≤ d' → e ≤ e' → (scoreOf d' e').val ≤ (scoreOf d e).val) ∧
    ∀ d e : ℕ, d < 2 ^ 20 → e < 2 ^ 20 →
      scoreOf (d + 1) e < scoreOf d e ∧ scoreOf d (e + 1) < scoreOf d e := by
  refine ⟨fun d e hd he => ⟨scoreOf_pos hd he, finite_toward_score hd he⟩,
    fun c => Callable.score_eq_zero_iff, fun s id hfits => ?_, fun _ _ _ _ => scoreOf_antitone,
    fun d e hd he => ?_⟩
  · show Reply.score ((s.table.callable? id).elim 0 Callable.score) = Reply.score 0 ↔ _
    cases hc : s.table.callable? id with
    | none => simp
    | some c => simp [Callable.score_eq_zero_iff (hfits c hc)]
  · refine ⟨scoreOf_succ_lt hd he, ?_⟩
    rw [scoreOf_comm d, scoreOf_comm d]
    exact scoreOf_succ_lt he hd

/-- The largest distances of 32 bits still have a positive score, which the next smaller ones
do not undercut; the last two distances below `2 ^ 20` and the one behind them have different
scores; and a callable with a distance on one side only scores zero. -/
theorem score_falls_with_distance_extreme :
    (0 < scoreOf 4294967295 4294967295 ∧ (scoreOf 4294967295 4294967295).Finite) ∧
    (scoreOf 4294967295 4294967295).val ≤ (scoreOf 4294967294 4294967295).val ∧
    scoreOf 1048576 1048575 < scoreOf 1048575 1048575 ∧
    scoreOf 1048575 1048575 < scoreOf 1048574 1048575 ∧
    (∃ c : Callable, c.fromEntry = some 4294967295 ∧ c.toSink = none ∧ c.Fits ∧ c.score = 0) ∧
    ∃ c : Callable, c.fromEntry = some 4294967295 ∧ c.toSink = some 7 ∧ c.Fits ∧ c.score ≠ 0 := by
  obtain ⟨hfinite, hzero, -, hfalls, hstrict⟩ := score_falls_with_distance
  obtain ⟨hpos, hall⟩ := hfinite 4294967295 4294967295 (by decide) (by decide)
  refine ⟨⟨hpos, hall _ (by simp)⟩, hfalls _ _ _ _ (by norm_num) le_rfl,
    (hstrict 1048575 1048575 (by norm_num) (by norm_num)).1,
    (hstrict 1048574 1048575 (by norm_num) (by norm_num)).1, ?_, ?_⟩
  · have hfits : Callable.Fits { id := "f", name := "f", fromEntry := some 4294967295 } := by
      simp [Callable.Fits, UInt32.size]
    exact ⟨_, rfl, rfl, hfits, (hzero _ hfits).2 (.inr rfl)⟩
  · have hfits : Callable.Fits
        { id := "f", name := "f", fromEntry := some 4294967295, toSink := some 7 } := by
      simp [Callable.Fits, UInt32.size]
    exact ⟨_, rfl, rfl, hfits, fun h => absurd ((hzero _ hfits).1 h) (by simp)⟩

/-- Further out, neighbouring distances may share a score. -/
example : scoreOf (2 ^ 24) 0 = scoreOf (2 ^ 24 + 1) 0 := by
  decide +kernel

end TaintGraph
