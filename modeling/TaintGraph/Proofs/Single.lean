/-
# Rounding to single precision

What is rounded becomes a whole number of units, and a unit is the last bit that the format
keeps. The integer chosen is at most a half away (`Single.abs_nearestEven_sub_le`). So the
result is a number of the format (`Single.onGrid_round`), and no number of the format is nearer
to what was rounded: one that is no whole number of units lies below the power of two that is
below all of this (`Single.round_nearest`).

The rest follows from that. Numbers of the format stay as they are, rounding keeps the order
(`Single.round_mono`), and unless the number is very small the error is at most a part in
`2 ^ 24` of it (`Single.abs_round_sub_le`).

Key definitions: `Single.OnGrid`, `Single.Finite`.
Key theorems: `Single.onGrid_round`, `Single.round_nearest`, `Single.round_mono`,
`Single.abs_round_sub_le`.
-/
import Mathlib.Algebra.Order.Field.Power
import Mathlib.Data.Rat.Lemmas
import Mathlib.Tactic.Linarith
import Mathlib.Tactic.Positivity
import Mathlib.Tactic.Ring
import TaintGraph.Single

namespace TaintGraph
namespace Single

/-! ### Powers of two -/

theorem twoPow_eq (e : ℤ) : twoPow e = (2 : ℚ) ^ e := by
  unfold twoPow
  split_ifs with h
  · lift e to ℕ using h
    simp
  · obtain ⟨n, rfl⟩ : ∃ n : ℕ, e = -n := ⟨(-e).toNat, by omega⟩
    simp [Rat.mkRat_eq_div]

theorem twoPow_pos (e : ℤ) : 0 < twoPow e := by
  rw [twoPow_eq]
  positivity

theorem twoPow_add (e f : ℤ) : twoPow (e + f) = twoPow e * twoPow f := by
  simp only [twoPow_eq]
  exact zpow_add₀ two_ne_zero e f

theorem twoPow_natCast (n : ℕ) : twoPow n = (2 ^ n : ℕ) := by
  rw [twoPow_eq, zpow_natCast]
  push_cast
  rfl

theorem twoPow_le {e f : ℤ} (h : e ≤ f) : twoPow e ≤ twoPow f := by
  simp only [twoPow_eq]
  exact zpow_le_zpow_right₀ one_le_two h

/-- A power of two is a multiple of each smaller one. -/
theorem exists_twoPow_eq {e f : ℤ} (h : e ≤ f) : ∃ k : ℕ, twoPow f = k * twoPow e := by
  refine ⟨2 ^ (f - e).toNat, ?_⟩
  rw [← twoPow_natCast, ← twoPow_add]
  congr 1
  omega

theorem mul_den_eq_natAbs {q : ℚ} (hq : 0 ≤ q) : q * q.den = q.num.natAbs := by
  rw [Rat.mul_den_eq_num, ← Int.cast_natCast, Int.natAbs_of_nonneg (Rat.num_nonneg.2 hq)]

/-- The exponent of `q` is that of the greatest power of two that is at most `q`. -/
theorem exponent_spec {q : ℚ} (hq : 0 < q) :
    twoPow (exponent q) ≤ q ∧ q < twoPow (exponent q + 1) := by
  have hnum : 0 < q.num := Rat.num_pos.2 hq
  have hden : (0 : ℚ) < q.den := Nat.cast_pos.2 q.den_pos
  have hmul := mul_den_eq_natAbs hq.le
  -- Numerator and denominator lie between neighbouring powers of two.
  generalize hn : q.num.natAbs = n at hmul
  generalize hd : q.den = d at hmul hden
  have hn0 : n ≠ 0 := by omega
  have hd0 : d ≠ 0 := by
    rintro rfl
    simp at hden
  have hnlo : twoPow n.log2 ≤ n := by
    rw [twoPow_natCast, Nat.cast_le]
    exact Nat.log2_self_le hn0
  have hnhi : (n : ℚ) < twoPow (n.log2 + 1 : ℕ) := by
    rw [twoPow_natCast, Nat.cast_lt]
    exact Nat.lt_log2_self
  have hdlo : twoPow d.log2 ≤ d := by
    rw [twoPow_natCast, Nat.cast_le]
    exact Nat.log2_self_le hd0
  have hdhi : (d : ℚ) < twoPow (d.log2 + 1 : ℕ) := by
    rw [twoPow_natCast, Nat.cast_lt]
    exact Nat.lt_log2_self
  set e : ℤ := (n.log2 : ℤ) - d.log2 with he
  have hlow : twoPow (e - 1) < q := by
    refine lt_of_mul_lt_mul_right ?_ hden.le
    calc twoPow (e - 1) * d
        < twoPow (e - 1) * twoPow (d.log2 + 1 : ℕ) := by
          gcongr
          exact twoPow_pos _
      _ = twoPow n.log2 := by
          rw [← twoPow_add]
          congr 1
          push_cast
          omega
      _ ≤ q * d := hmul ▸ hnlo
  have hhigh : q < twoPow (e + 1) := by
    refine lt_of_mul_lt_mul_right ?_ hden.le
    calc q * d
        < twoPow (n.log2 + 1 : ℕ) := hmul ▸ hnhi
      _ = twoPow (e + 1) * twoPow d.log2 := by
          rw [← twoPow_add]
          congr 1
          push_cast
          omega
      _ ≤ twoPow (e + 1) * d := by
          gcongr
          exact (twoPow_pos _).le
  have hexp : exponent q = if twoPow e ≤ q then e else e - 1 := by
    simp only [exponent, hn, hd, he]
  rw [hexp]
  split_ifs with h
  · exact ⟨h, hhigh⟩
  · rw [sub_add_cancel]
    exact ⟨hlow.le, not_le.1 h⟩

/-! ### The nearest integer -/

/-- The integer chosen is at most a half away. -/
theorem abs_nearestEven_sub_le {q : ℚ} (hq : 0 ≤ q) : |(nearestEven q : ℚ) - q| ≤ 1 / 2 := by
  have hden : (0 : ℚ) < q.den := Nat.cast_pos.2 q.den_pos
  have hmul := mul_den_eq_natAbs hq
  simp only [nearestEven]
  generalize q.num.natAbs = n at hmul
  generalize q.den = d at hmul hden
  have hdiv : ((n / d : ℕ) : ℚ) * d + (n % d : ℕ) = q * d := by
    rw [hmul]
    exact_mod_cast Nat.div_add_mod' n d
  have hmod : ((n % d : ℕ) : ℚ) < d := Nat.cast_lt.2 (Nat.mod_lt n (Nat.cast_pos.1 hden))
  have hnonneg : (0 : ℚ) ≤ (n % d : ℕ) := Nat.cast_nonneg _
  -- Compare after multiplying by the denominator.
  refine le_of_mul_le_mul_right ?_ hden
  rw [← abs_of_pos hden, ← abs_mul, abs_of_pos hden, sub_mul, abs_le]
  split_ifs with hrest
  · have hle : 2 * ((n % d : ℕ) : ℚ) ≤ d := by
      exact_mod_cast hrest.elim le_of_lt fun h => h.1.le
    constructor <;> linarith
  · have hge : (d : ℚ) ≤ 2 * (n % d : ℕ) := by
      exact_mod_cast not_lt.1 fun h => hrest (.inl h)
    push_cast
    constructor <;> linarith

/-- No integer is nearer. -/
theorem abs_nearestEven_sub_le_abs {q : ℚ} (hq : 0 ≤ q) (k : ℕ) :
    |(nearestEven q : ℚ) - q| ≤ |(k : ℚ) - q| := by
  have hhalf := abs_nearestEven_sub_le hq
  by_cases hk : k = nearestEven q
  · rw [hk]
  · have hone : (1 : ℚ) ≤ |(nearestEven q : ℚ) - k| := by
      have h : (1 : ℤ) ≤ |(nearestEven q : ℤ) - k| := Int.one_le_abs (by omega)
      exact_mod_cast h
    have htri := abs_sub_le (nearestEven q : ℚ) q k
    rw [abs_sub_comm q] at htri
    linarith

theorem nearestEven_le {q : ℚ} (hq : 0 ≤ q) {n : ℕ} (h : q < n) : nearestEven q ≤ n := by
  have hhalf := (abs_le.1 (abs_nearestEven_sub_le hq)).2
  have hlt : (nearestEven q : ℚ) < (n + 1 : ℕ) := by
    push_cast
    linarith
  exact Nat.lt_succ_iff.1 (Nat.cast_lt.1 hlt)

/-! ### Numbers of the format -/

/-- The rational has at most 24 significant bits, and none below the last one of the format. -/
def OnGrid (q : ℚ) : Prop :=
  ∃ (n : ℕ) (e : ℤ), n < 2 ^ 24 ∧ -149 ≤ e ∧ q = n * twoPow e

/-- A finite number of the format. -/
def Finite (x : Single) : Prop :=
  OnGrid x.val ∧ x.val < twoPow 128

theorem onGrid_zero : OnGrid 0 :=
  ⟨0, 0, by norm_num, by norm_num, by simp⟩

theorem onGrid_twoPow {e : ℤ} (he : -149 ≤ e) : OnGrid (twoPow e) :=
  ⟨1, e, by norm_num, he, by simp⟩

theorem onGrid_natCast {n : ℕ} (hn : n < 2 ^ 24) : OnGrid n :=
  ⟨n, 0, hn, by norm_num, by simp [twoPow_eq]⟩

/-! ### Units -/

section Units

variable {q : ℚ}

theorem unit_pos (q : ℚ) : 0 < twoPow (unitExponent q) :=
  twoPow_pos _

theorem round_of_pos (hq : 0 < q) :
    (round q).val = nearestEven (q / twoPow (unitExponent q)) * twoPow (unitExponent q) := by
  rw [round, if_neg (not_le.2 hq)]

/-- The distance from a number of units, told in units. -/
theorem abs_units_sub (q : ℚ) (k : ℕ) :
    |k * twoPow (unitExponent q) - q| =
      |(k : ℚ) - q / twoPow (unitExponent q)| * twoPow (unitExponent q) := by
  have hunit := unit_pos q
  rw [← abs_of_pos hunit, ← abs_mul, abs_of_pos hunit, sub_mul, div_mul_cancel₀ _ hunit.ne']

/-- A positive rational has fewer than `2 ^ 24` of its units. -/
theorem lt_units (hq : 0 < q) : q < (2 ^ 24 : ℕ) * twoPow (unitExponent q) := by
  rw [← twoPow_natCast, ← twoPow_add]
  refine (exponent_spec hq).2.trans_le (twoPow_le ?_)
  have hunit : exponent q - 23 ≤ unitExponent q := le_max_left _ _
  push_cast
  omega

/-- Unless the format has no smaller unit, the power of two below is `2 ^ 23` units. -/
theorem twoPow_exponent (h : -149 < unitExponent q ∨ -126 ≤ exponent q) :
    unitExponent q = exponent q - 23 ∧
      twoPow (exponent q) = (2 ^ 23 : ℕ) * twoPow (unitExponent q) := by
  have hunit : unitExponent q = exponent q - 23 := by
    unfold unitExponent at h ⊢
    omega
  refine ⟨hunit, ?_⟩
  rw [← twoPow_natCast, ← twoPow_add, hunit]
  congr 1
  push_cast
  omega

end Units

/-! ### Rounding -/

/-- **Rounding leads to the format.** -/
theorem onGrid_round (q : ℚ) : OnGrid (round q).val := by
  rcases le_or_gt q 0 with hq | hq
  · rw [round, if_pos hq]
    exact onGrid_zero
  · have hlast : -149 ≤ unitExponent q := le_max_right _ _
    have hunit := unit_pos q
    have hle : nearestEven (q / twoPow (unitExponent q)) ≤ 2 ^ 24 :=
      nearestEven_le (div_pos hq hunit).le ((div_lt_iff₀ hunit).2 (lt_units hq))
    rw [round_of_pos hq]
    rcases hle.lt_or_eq with hlt | heq
    · exact ⟨_, _, hlt, hlast, rfl⟩
    · -- There are half as many of the next unit.
      refine ⟨2 ^ 23, unitExponent q + 1, by norm_num, by omega, ?_⟩
      rw [heq, twoPow_add, twoPow_eq 1]
      push_cast
      ring

theorem finite_round {q : ℚ} {e : ℤ} (he : e < 128) (h : (round q).val ≤ twoPow e) :
    (round q).Finite := by
  refine ⟨onGrid_round q, h.trans_lt ?_⟩
  simp only [twoPow_eq]
  exact zpow_lt_zpow_right₀ one_lt_two he

/-- **No number of the format is nearer.** -/
theorem round_nearest {q y : ℚ} (hq : 0 ≤ q) (hy : OnGrid y) : |(round q).val - q| ≤ |y - q| := by
  rcases hq.eq_or_lt with rfl | hq
  · have hzero : (round 0).val = 0 := rfl
    rw [hzero, sub_zero, abs_zero]
    exact abs_nonneg _
  obtain ⟨n, e, hn, he, rfl⟩ := hy
  have hunit := unit_pos q
  have hunits : ∀ k : ℕ, |(round q).val - q| ≤ |k * twoPow (unitExponent q) - q| := by
    intro k
    rw [round_of_pos hq, abs_units_sub, abs_units_sub]
    exact mul_le_mul_of_nonneg_right (abs_nearestEven_sub_le_abs (div_pos hq hunit).le k) hunit.le
  rcases le_or_gt (unitExponent q) e with hcoarse | hfine
  · obtain ⟨k, hk⟩ := exists_twoPow_eq hcoarse
    rw [hk, ← mul_assoc, ← Nat.cast_mul]
    exact hunits (n * k)
  · -- A number with finer bits is at most the power of two below `q`, which has whole units.
    obtain ⟨hexp, hpower⟩ := twoPow_exponent (.inl (he.trans_lt hfine))
    have hbelow : n * twoPow e ≤ twoPow (exponent q) := by
      calc n * twoPow e
          ≤ (2 ^ 24 : ℕ) * twoPow e := by
            gcongr
            exact (twoPow_pos e).le
        _ = twoPow (24 + e) := by
            rw [← twoPow_natCast, ← twoPow_add]
            rfl
        _ ≤ twoPow (exponent q) := twoPow_le (by omega)
    have hlow := (exponent_spec hq).1
    calc |(round q).val - q|
        ≤ |twoPow (exponent q) - q| := hpower ▸ hunits (2 ^ 23)
      _ ≤ |n * twoPow e - q| := by
          rw [abs_of_nonpos (by linarith), abs_of_nonpos (by linarith)]
          linarith

/-- Numbers of the format stay as they are. -/
theorem round_of_onGrid {q : ℚ} (hq : 0 ≤ q) (h : OnGrid q) : (round q).val = q := by
  have hnear := round_nearest hq h
  rw [sub_self, abs_zero] at hnear
  exact sub_eq_zero.1 (abs_nonpos_iff.1 hnear)

/-- **Rounding keeps the order.** -/
theorem round_mono {p q : ℚ} (hp : 0 ≤ p) (h : p ≤ q) : (round p).val ≤ (round q).val := by
  rcases h.eq_or_lt with rfl | h
  · exact le_rfl
  by_contra! hlt
  -- Both results are nearest, so `p` would lie above their middle and `q` below it.
  have hleft : ((round p).val + (round q).val) / 2 ≤ p := by
    have hnear := round_nearest hp (onGrid_round q)
    rcases abs_cases ((round p).val - p) with hp | hp <;>
      rcases abs_cases ((round q).val - p) with hqp | hqp <;> linarith
  have hright : q ≤ ((round p).val + (round q).val) / 2 := by
    have hnear := round_nearest (hp.trans h.le) (onGrid_round p)
    rcases abs_cases ((round q).val - q) with hq | hq <;>
      rcases abs_cases ((round p).val - q) with hpq | hpq <;> linarith
  linarith

theorem round_le {q y : ℚ} (hq : 0 ≤ q) (hy : OnGrid y) (h : q ≤ y) : (round q).val ≤ y :=
  (round_mono hq h).trans_eq (round_of_onGrid (hq.trans h) hy)

theorem le_round {q y : ℚ} (hy0 : 0 ≤ y) (hy : OnGrid y) (h : y ≤ q) : y ≤ (round q).val :=
  (round_of_onGrid hy0 hy).symm.trans_le (round_mono hy0 h)

/-- **The error is at most a part in `2 ^ 24`**, unless the number is very small. -/
theorem abs_round_sub_le {q : ℚ} (hq : twoPow (-126) ≤ q) : |(round q).val - q| ≤ q / 2 ^ 24 := by
  have hpos : 0 < q := (twoPow_pos _).trans_le hq
  obtain ⟨hlow, hhigh⟩ := exponent_spec hpos
  have hexp : -126 ≤ exponent q := by
    by_contra! hlt
    have hle : twoPow (exponent q + 1) ≤ twoPow (-126) := twoPow_le (by omega)
    linarith
  have hunit := unit_pos q
  have hunits : 2 ^ 23 * twoPow (unitExponent q) ≤ q := by
    rw [(twoPow_exponent (.inr hexp)).2] at hlow
    exact_mod_cast hlow
  rw [round_of_pos hpos, abs_units_sub]
  calc |(nearestEven (q / twoPow (unitExponent q)) : ℚ) - q / twoPow (unitExponent q)| *
        twoPow (unitExponent q)
      ≤ 1 / 2 * twoPow (unitExponent q) :=
        mul_le_mul_of_nonneg_right (abs_nearestEven_sub_le (div_pos hpos hunit).le) hunit.le
    _ ≤ q / 2 ^ 24 := by linarith

/-- Rounding keeps apart what is further apart than the errors. -/
theorem round_lt_round {p q : ℚ} (hp : twoPow (-126) ≤ p) (hq : twoPow (-126) ≤ q)
    (h : p * (1 + 1 / 2 ^ 24) < q * (1 - 1 / 2 ^ 24)) : (round p).val < (round q).val := by
  have hhigh := (abs_le.1 (abs_round_sub_le hp)).2
  have hlow := (abs_le.1 (abs_round_sub_le hq)).1
  linarith

end Single
end TaintGraph
