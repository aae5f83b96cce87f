/-
# Whole numbers of TOML are read from their digits

A whole number is written as its digits, after a minus if it is negative. At the end of a line
the reader takes all of these digits and nothing more (`Toml.moreDigits?_run`), and they are the
beginning of no date, time, float or number in another base. So it finds the number, or refuses
it when it does not fit 64 bits (`Toml.value?_literal`).

Key definitions: `Toml.Literal`, `Toml.AtEnd`.
Key theorems: `Toml.number?_literal`, `Toml.value?_literal`.
-/
import Mathlib.Data.Int.Notation
import TaintGraph.Proofs.Json.Spelling
import TaintGraph.Toml.Value

namespace TaintGraph
namespace Toml

/-- A whole number as it is written. -/
structure Literal where
  /-- Whether there is a minus in front. -/
  minus : Bool
  /-- The number without it. -/
  size : ℕ
  deriving DecidableEq, Repr

/-- The number in decimal digits. -/
def Literal.text (l : Literal) : List Char :=
  (if l.minus then ['-'] else []) ++ Nat.toDigits 10 l.size

/-- The number it stands for. -/
def Literal.value (l : Literal) : ℤ :=
  if l.minus then -(l.size : ℤ) else l.size

/-- Nothing is left on the line. -/
def AtEnd (text : List Char) : Prop :=
  ∀ c ∈ text.head?, c = '\n' ∨ c = '\r'

/-! ### Digits -/

/-- A test tells characters apart. -/
theorem ne_of_test {test : Char → Bool} {c d : Char} (hc : test c = true) (hd : test d = false) :
    c ≠ d := by
  rintro rfl
  rw [hc] at hd
  cases hd

theorem exists_toDigits (n : ℕ) :
    ∃ c digits, Nat.toDigits 10 n = c :: digits ∧ c.isDigit = true ∧
      ∀ d ∈ digits, d.isDigit = true := by
  have hall := List.all_eq_true.1 (Json.all_isDigit_toDigits n)
  cases hdigits : Nat.toDigits 10 n with
  | nil => exact absurd hdigits Nat.toDigits_ne_nil
  | cons c digits =>
    rw [hdigits] at hall
    exact ⟨c, digits, rfl, List.forall_mem_cons.1 hall⟩

theorem valueIn_toDigits (n : ℕ) : valueIn 10 (Nat.toDigits 10 n) = n := by
  have hdigit : ∀ c ∈ Nat.toDigits 10 n, (hexValue? c).getD 0 = c.toNat - '0'.toNat := by
    intro c hc
    have hisDigit := List.all_eq_true.1 (Json.all_isDigit_toDigits n) c hc
    rw [hexValue?, if_pos (by simpa [Char.isDigit, Char.le_def] using hisDigit), Option.getD_some]
  have hfold : valueIn 10 (Nat.toDigits 10 n) = Nat.ofDigitChars 10 (Nat.toDigits 10 n) 0 :=
    List.foldl_ext _ _ 0 fun m c hc => by rw [hdigit c hc]
  rw [hfold, Nat.ofDigitChars_toDigits (by decide) (by decide)]

theorem sign_literal (l : Literal) (rest : List Char) :
    sign (l.text ++ rest) = (l.minus, Nat.toDigits 10 l.size ++ rest) := by
  obtain ⟨c, digits, heq, hc, -⟩ := exists_toDigits l.size
  unfold Literal.text
  cases l.minus with
  | true => rfl
  | false =>
    rw [heq]
    show sign (c :: (digits ++ rest)) = _
    rw [sign]
    · rfl
    · exact fun _ h => ne_of_test hc rfl (List.cons.inj h).1
    · exact fun _ h => ne_of_test hc rfl (List.cons.inj h).1

theorem exists_literal (l : Literal) (rest : List Char) :
    ∃ c more, l.text ++ rest = c :: more ∧ (c.isDigit = true ∨ c = '-') := by
  obtain ⟨c, digits, heq, hc, -⟩ := exists_toDigits l.size
  unfold Literal.text
  cases l.minus with
  | true => exact ⟨'-', _, rfl, .inr rfl⟩
  | false => exact ⟨c, digits ++ rest, by rw [heq]; rfl, .inl hc⟩

/-- A date or a time begins with a digit, and a dash or a colon follows its first digits. -/
theorem exists_of_startsMoment {text : List Char}
    (h : (startsDate text || startsTime text) = true) :
    (∃ c ∈ text.head?, c.isDigit = true) ∧
      ∃ d ∈ (text.dropWhile Char.isDigit).head?, d = '-' ∨ d = ':' := by
  rcases Bool.or_eq_true_iff.1 h with h | h
  · unfold startsDate at h
    split at h
    · simp only [Bool.and_eq_true] at h
      obtain ⟨⟨⟨ha, hb⟩, hc⟩, hd⟩ := h
      exact ⟨⟨_, rfl, ha⟩, '-', by simp [ha, hb, hc, hd], .inl rfl⟩
    · cases h
  · unfold startsTime at h
    split at h
    · simp only [Bool.and_eq_true] at h
      obtain ⟨ha, hb⟩ := h
      exact ⟨⟨_, rfl, ha⟩, ':', by simp [ha, hb], .inr rfl⟩
    · cases h

section AtEnd

variable {rest : List Char} (hrest : AtEnd rest)
include hrest

theorem moreDigits?_run {digits : List Char} (hdigits : ∀ c ∈ digits, c.isDigit = true) :
    moreDigits? Char.isDigit (digits ++ rest) = some (digits, rest) := by
  induction digits with
  | nil =>
    cases rest with
    | nil => rfl
    | cons c rest => rcases hrest c rfl with rfl | rfl <;> rfl
  | cons c digits ih =>
    obtain ⟨hc, hdigits⟩ := List.forall_mem_cons.1 hdigits
    rw [List.cons_append, moreDigits?, if_pos hc, ih hdigits]
    · rfl
    · exact fun _ _ h _ => ne_of_test hc rfl h
    · exact fun h _ => ne_of_test hc rfl h

theorem whole?_toDigits (n : ℕ) :
    whole? (Nat.toDigits 10 n ++ rest) = some (Nat.toDigits 10 n, rest) := by
  obtain ⟨c, digits, heq, hc, hdigits⟩ := exists_toDigits n
  rcases Nat.eq_zero_or_pos n with rfl | hpos
  · rfl
  · obtain ⟨c', digits', heq', hzero⟩ := Json.exists_toDigits_of_pos hpos
    rw [heq] at heq' ⊢
    cases heq'
    rw [List.cons_append, whole?, digits?, if_pos hc, moreDigits?_run hrest hdigits]
    · rfl
    · exact fun _ h => hzero (List.cons.inj h).1

theorem tail?_atEnd : tail? rest = some ({}, rest) := by
  cases rest with
  | nil => rfl
  | cons c rest => rcases hrest c rfl with rfl | rfl <;> rfl

/-! ### Numbers -/

/-- No number begins as one in another base does: a zero in front is all of it. -/
theorem literal_ne (l : Literal) {c : Char} (hline : c ≠ '\n') (hreturn : c ≠ '\r')
    (more : List Char) : l.text ++ rest ≠ '0' :: c :: more := by
  intro heq
  have hsign := sign_literal l rest
  rw [heq] at hsign
  -- There is no sign in front, so the digits of the number begin with a zero.
  have hdigits : Nat.toDigits 10 l.size ++ rest = '0' :: c :: more := (Prod.mk.inj hsign).2.symm
  rcases Nat.eq_zero_or_pos l.size with hzero | hpos
  · rw [hzero] at hdigits
    have hc : rest = c :: more := (List.cons.inj hdigits).2
    rcases hrest c (by rw [hc]; rfl) with h | h
    · exact hline h
    · exact hreturn h
  · obtain ⟨c', digits, heq', hzero⟩ := Json.exists_toDigits_of_pos hpos
    rw [heq'] at hdigits
    exact hzero (List.cons.inj hdigits).1

theorem number?_literal (l : Literal) :
    number? (l.text ++ rest) = (word64? l.value).map fun n => (.integer n, rest) := by
  obtain ⟨c, digits, heq, hc, -⟩ := exists_toDigits l.size
  have hletter : ∀ {d : Char} {more : List Char}, d.isDigit = false →
      Nat.toDigits 10 l.size ++ rest ≠ d :: more := by
    intro d more hd h
    rw [heq] at h
    exact ne_of_test hc hd (List.cons.inj h).1
  rw [number?]
  · simp only [sign_literal]
    split
    · rename_i h
      exact absurd (Prod.mk.inj h).2 (hletter rfl)
    · rename_i h
      exact absurd (Prod.mk.inj h).2 (hletter rfl)
    · rename_i h
      cases h
      simp only [whole?_toDigits hrest, tail?_atEnd hrest, valueIn_toDigits, Option.bind_eq_bind,
        Option.bind_some]
      rw [if_neg (by decide), Option.map_eq_bind]
      rfl
  · exact fun more => literal_ne hrest l (by decide) (by decide) more
  · exact fun more => literal_ne hrest l (by decide) (by decide) more
  · exact fun more => literal_ne hrest l (by decide) (by decide) more

/-! ### Values -/

/-- What follows the digits of a literal is no dash or colon. -/
theorem not_startsMoment_literal (l : Literal) :
    (startsDate (l.text ++ rest) || startsTime (l.text ++ rest)) = false := by
  rw [Bool.eq_false_iff]
  intro hmoment
  obtain ⟨⟨c, hc, hdigit⟩, d, hd, hmark⟩ := exists_of_startsMoment hmoment
  obtain ⟨minus, size⟩ := l
  cases minus with
  | true =>
    cases hc
    cases hdigit
  | false =>
    have hall := List.all_eq_true.1 (Json.all_isDigit_toDigits size)
    have hdrop : rest.dropWhile Char.isDigit = rest := by
      cases rest with
      | nil => rfl
      | cons c rest => rcases hrest c rfl with rfl | rfl <;> rfl
    -- Behind all digits there is only the end of the line, which is no dash or colon.
    have hd : d ∈ ((Nat.toDigits 10 size ++ rest).dropWhile Char.isDigit).head? := hd
    rw [List.dropWhile_append_of_pos hall, hdrop] at hd
    rcases hrest d hd with rfl | rfl <;> simp at hmark

theorem value?_literal (l : Literal) :
    value? (l.text ++ rest) = (word64? l.value).map fun n => (.number (.integer n), rest) := by
  obtain ⟨c, more, heq, hc⟩ := exists_literal l rest
  have hne : ∀ {d : Char} {more' : List Char}, d.isDigit = false → d ≠ '-' →
      c :: more ≠ d :: more' := by
    intro d more' hd hminus h
    obtain ⟨rfl, -⟩ := List.cons.inj h
    rcases hc with hc | hc
    · exact ne_of_test hc hd rfl
    · exact hminus hc
  have hnumber := number?_literal hrest l
  have hmoment := not_startsMoment_literal hrest l
  rw [heq] at hnumber hmoment ⊢
  rw [value?, valueUpTo?, hmoment, hnumber, Option.map_map]
  · rfl
  all_goals exact fun _ => hne (by decide) (by decide)

end AtEnd

end Toml
end TaintGraph
