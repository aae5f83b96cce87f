/-
# Spellings of texts and numbers

A character is spelled in one of three ways: by a backslash and a letter, by a backslash and
its code in hexadecimal, or by itself (`Json.escapeChar_cases`). Reading undoes each of them,
so every text comes back from its spelling (`Json.unescape_escape`), whatever characters it
holds. A natural number comes back from its digits (`Json.nat?_ofNat`), which begin with a
zero only for the number zero (`Json.exists_toDigits_of_pos`).

Key theorems: `Json.escapeChar_cases`, `Json.unescape_escape`, `Json.nat?_ofNat`,
`Json.exists_toDigits_of_pos`.
-/
import Mathlib.Data.List.Basic
import TaintGraph.Json.Value

namespace TaintGraph
namespace Json

theorem hexValue?_hexDigit : ∀ n < 16, hexValue? (hexDigit n) = some n := by
  decide

/-! ### Texts -/

/-- The three ways to spell a character. -/
theorem escapeChar_cases (c : Char) :
    (∃ e, shortEscape? e = some c ∧ escapeChar c = ['\\', e]) ∨
    (c.toNat < 0x20 ∧ escapeChar c =
      ['\\', 'u', '0', '0', hexDigit (c.toNat / 16), hexDigit (c.toNat % 16)]) ∨
    (c ≠ '"' ∧ c ≠ '\\' ∧ ¬ c.toNat < 0x20 ∧ escapeChar c = [c]) := by
  unfold escapeChar
  split_ifs with hquote hslash hback htab hline hfeed hreturn hcontrol
  · exact .inl ⟨'"', by rw [hquote]; rfl, rfl⟩
  · exact .inl ⟨'\\', by rw [hslash]; rfl, rfl⟩
  · exact .inl ⟨'b', by rw [hback]; rfl, rfl⟩
  · exact .inl ⟨'t', by rw [htab]; rfl, rfl⟩
  · exact .inl ⟨'n', by rw [hline]; rfl, rfl⟩
  · exact .inl ⟨'f', by rw [hfeed]; rfl, rfl⟩
  · exact .inl ⟨'r', by rw [hreturn]; rfl, rfl⟩
  · exact .inr (.inl ⟨hcontrol, rfl⟩)
  · exact .inr (.inr ⟨hquote, hslash, hcontrol, rfl⟩)

theorem unescape_of_ne {c : Char} (hc : c ≠ '\\') (rest : List Char) :
    unescape (c :: rest) = (unescape rest).map (c :: ·) := by
  rw [unescape]
  · exact fun _ _ _ _ _ hslash _ => hc hslash
  · exact fun _ _ hslash _ => hc hslash
  · exact fun hslash _ => hc hslash

theorem shortEscape?_ne {e c : Char} (h : shortEscape? e = some c) : e ≠ 'u' := by
  rintro rfl
  cases h

theorem unescape_short {e c : Char} (h : shortEscape? e = some c) (rest : List Char) :
    unescape ('\\' :: e :: rest) = (unescape rest).map (c :: ·) := by
  have hne := shortEscape?_ne h
  rw [unescape, h]
  intro _ _ _ _ _ hu
  exact absurd hu hne

/-- A control character is no half of another character. -/
theorem unescape_control {c : Char} (hc : c.toNat < 0x20) (rest : List Char) :
    unescape ('\\' :: 'u' :: '0' :: '0' :: hexDigit (c.toNat / 16) :: hexDigit (c.toNat % 16) ::
      rest) = (unescape rest).map (c :: ·) := by
  have hunit : unit? '0' '0' (hexDigit (c.toNat / 16)) (hexDigit (c.toNat % 16)) =
      some c.toNat := by
    have hzero : hexValue? '0' = some 0 := rfl
    have hsplit : ((0 * 16 + 0) * 16 + c.toNat / 16) * 16 + c.toNat % 16 = c.toNat := by omega
    simp only [unit?, hzero, hexValue?_hexDigit (c.toNat / 16) (by omega),
      hexValue?_hexDigit (c.toNat % 16) (by omega), Option.bind_eq_bind, Option.bind_some, hsplit,
      Option.pure_def]
  have hhigh : isHighSurrogate c.toNat = false := by
    simp only [isHighSurrogate, Bool.and_eq_false_iff, decide_eq_false_iff_not]
    omega
  have hlow : isLowSurrogate c.toNat = false := by
    simp only [isLowSurrogate, Bool.and_eq_false_iff, decide_eq_false_iff_not]
    omega
  rw [unescape, hunit]
  simp [hhigh, hlow]

theorem unescape_escapeChar (c : Char) (rest : List Char) :
    unescape (escapeChar c ++ rest) = (unescape rest).map (c :: ·) := by
  rcases escapeChar_cases c with ⟨e, he, heq⟩ | ⟨hcontrol, heq⟩ | ⟨-, hslash, -, heq⟩
  · rw [heq]
    exact unescape_short he rest
  · rw [heq]
    exact unescape_control hcontrol rest
  · rw [heq]
    exact unescape_of_ne hslash rest

/-- **Every text is read from its spelling.** -/
theorem unescape_escape (text : List Char) : unescape (escape text) = some text := by
  induction text with
  | nil => rfl
  | cons c text ih =>
    have hcons : escape (c :: text) = escapeChar c ++ escape text := rfl
    rw [hcons, unescape_escapeChar, ih]
    rfl

@[simp]
theorem string?_ofString (s : String) : (ofString s).string? = some s := by
  simp [ofString, string?, unescape_escape]

/-! ### Numbers -/

theorem all_isDigit_toDigits (n : ℕ) : (Nat.toDigits 10 n).all Char.isDigit = true :=
  List.all_eq_true.2 fun _ hc => Nat.isDigit_of_mem_toDigits (by decide) (by decide) hc

@[simp]
theorem nat?_ofNat (n : ℕ) : (ofNat n).nat? = some n := by
  rw [ofNat, nat?, if_pos (all_isDigit_toDigits n)]
  exact congrArg some (Nat.ofDigitChars_toDigits (by decide) (by decide))

theorem natBelow?_ofNat {n bound : ℕ} (h : n < bound) : (ofNat n).natBelow? bound = some n := by
  simp [natBelow?, h]

theorem lt_of_natBelow? {j : Json} {n bound : ℕ} (h : j.natBelow? bound = some n) : n < bound := by
  simpa using (Option.filter_eq_some_iff.1 h).2

@[simp]
theorem word32?_ofNat (n : UInt32) : (ofNat n.toNat).word32? = some n := by
  simp [word32?, natBelow?_ofNat n.toNat_lt_size]

theorem digitChar_ne_zero : ∀ d < 10, 0 < d → d.digitChar ≠ '0' := by
  decide

/-- Only the number zero begins with a zero. -/
theorem exists_toDigits_of_pos {n : ℕ} (hpos : 0 < n) :
    ∃ c rest, Nat.toDigits 10 n = c :: rest ∧ c ≠ '0' := by
  induction n using Nat.strongRecOn with
  | ind n ih =>
    by_cases hlt : n < 10
    · rw [Nat.toDigits_of_lt_base hlt]
      exact ⟨_, [], rfl, digitChar_ne_zero n hlt hpos⟩
    · -- The digits in front of the last are those of a tenth of the number.
      have hsplit : Nat.toDigits 10 (n / 10) ++ Nat.toDigits 10 (n % 10) =
          Nat.toDigits 10 (10 * (n / 10) + n % 10) :=
        Nat.toDigits_append_toDigits (by decide) (by omega) (by omega)
      rw [show 10 * (n / 10) + n % 10 = n by omega] at hsplit
      obtain ⟨c, rest, heq, hne⟩ := ih (n / 10) (by omega) (by omega)
      exact ⟨c, rest ++ Nat.toDigits 10 (n % 10), by rw [← hsplit, heq]; rfl, hne⟩

end Json
end TaintGraph
