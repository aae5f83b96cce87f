/-
# Every JSON text is read

The grammar of JSON says what may stand in a string and how a number is built: a sign, a whole
part without a leading zero, a fraction, an exponent (`Json.Characters`, `Json.IsNumber`). White
space may stand around every token. The scanner has a state for each part of a number, and each
part leads it from one such state to another (`Json.numeral_of_isNumber`), so every text that the
grammar allows for a value is read as this value (`Json.parse?_of_written`).

Key definitions: `Json.Characters`, `Json.IsNumber`, `Json.Valid`, `Json.Written`.
Key theorems: `Json.spelling_of_characters`, `Json.numeral_of_isNumber`,
`Json.parse?_of_written`.
-/
import TaintGraph.Proofs.Json.Tree

namespace TaintGraph
namespace Json

/-! ### The grammar -/

/-- What may stand between the quotes of a string: characters that need no escape, a backslash
with a letter, and a backslash with four hexadecimal digits. -/
inductive Characters : List Char → Prop
  | nil : Characters []
  | plain {c : Char} {rest : List Char} (hquote : c ≠ '"') (hslash : c ≠ '\\')
    (hcontrol : 0x20 ≤ c.toNat) (hrest : Characters rest) : Characters (c :: rest)
  | letter {e : Char} {rest : List Char} (he : e ∈ ['"', '\\', '/', 'b', 'f', 'n', 'r', 't'])
    (hrest : Characters rest) : Characters ('\\' :: e :: rest)
  | code {a b c d : Char} {rest : List Char}
    (hdigits : ∀ x ∈ [a, b, c, d], x ∈ "0123456789abcdefABCDEF".toList)
    (hrest : Characters rest) : Characters ('\\' :: 'u' :: a :: b :: c :: d :: rest)

/-- At least one digit, and nothing else. -/
def IsRun (text : List Char) : Prop :=
  text ≠ [] ∧ ∀ c ∈ text, c.isDigit = true

/-- A lone zero, or digits of which the first is not zero. -/
def IsWhole (text : List Char) : Prop :=
  text = ['0'] ∨ IsRun text ∧ text.head? ≠ some '0'

/-- Nothing, or a point and digits. -/
def IsFraction (text : List Char) : Prop :=
  text = [] ∨ ∃ digits, IsRun digits ∧ text = '.' :: digits

/-- Nothing, or a mark, a sign or none, and digits. -/
def IsExponent (text : List Char) : Prop :=
  text = [] ∨ ∃ mark ∈ ['e', 'E'], ∃ sign ∈ [[], ['+'], ['-']], ∃ digits,
    IsRun digits ∧ text = mark :: (sign ++ digits)

/-- A number: a minus or none, and the three parts. -/
def IsNumber (lexeme : List Char) : Prop :=
  ∃ sign ∈ [[], ['-']], ∃ whole fraction exponent, IsWhole whole ∧ IsFraction fraction ∧
    IsExponent exponent ∧ lexeme = sign ++ (whole ++ (fraction ++ exponent))

/-- The token follows the grammar. -/
def Token.Valid : Token → Prop
  | .num lexeme => IsNumber lexeme
  | .str spelling => Characters spelling
  | _ => True

/-- The numbers and strings in the value, and its keys, follow the grammar. -/
def Valid (j : Json) : Prop :=
  ∀ token ∈ j.tokens, token.Valid

/-- The text spells the value, with white space anywhere around its tokens. -/
def Written (j : Json) (text : String) : Prop :=
  j.Valid ∧ ∃ (spaced : List (List Char × Token)) (last : List Char),
    spaced.map Prod.snd = j.tokens ∧ (∀ p ∈ spaced, ∀ c ∈ p.1, Token.isSpace c = true) ∧
    (∀ c ∈ last, Token.isSpace c = true) ∧ text.toList = Token.spread spaced ++ last

/-! ### Strings -/

theorem Characters.append {left right : List Char} (hleft : Characters left)
    (hright : Characters right) : Characters (left ++ right) := by
  induction hleft with
  | nil => exact hright
  | plain hquote hslash hcontrol _ ih => exact .plain hquote hslash hcontrol ih
  | letter he _ ih => exact .letter he ih
  | code hdigits _ ih => exact .code hdigits ih

theorem characters_of_plain {text : List Char}
    (h : ∀ c ∈ text, c ≠ '"' ∧ c ≠ '\\' ∧ 0x20 ≤ c.toNat) : Characters text := by
  induction text with
  | nil => exact .nil
  | cons c text ih =>
    obtain ⟨⟨hquote, hslash, hcontrol⟩, htext⟩ := List.forall_mem_cons.1 h
    exact .plain hquote hslash hcontrol (ih htext)

theorem isSome_shortEscape? : ∀ e ∈ ['"', '\\', '/', 'b', 'f', 'n', 'r', 't'],
    (shortEscape? e).isSome = true :=
  List.all_eq_true.1 (by decide)

theorem isSome_hexValue? : ∀ x ∈ "0123456789abcdefABCDEF".toList, (hexValue? x).isSome = true :=
  List.all_eq_true.1 (by decide)

theorem spelling_of_characters {spelling : List Char} (h : Characters spelling) :
    Spelling spelling := by
  induction h with
  | nil => exact spelling_nil
  | plain hquote hslash hcontrol _ ih =>
    exact (spelling_plain hquote hslash (not_lt.2 hcontrol)).append ih
  | letter he _ ih =>
    obtain ⟨c, hc⟩ := Option.isSome_iff_exists.1 (isSome_shortEscape? _ he)
    exact (spelling_short hc).append ih
  | code hdigits _ ih =>
    simp only [List.forall_mem_cons] at hdigits
    obtain ⟨ha, hb, hc, hd, -⟩ := hdigits
    exact (spelling_hex (isSome_hexValue? _ ha) (isSome_hexValue? _ hb) (isSome_hexValue? _ hc)
      (isSome_hexValue? _ hd)).append ih

/-! ### Numbers -/

/-- A run of digits leads to where digits go on. -/
theorem through_run {first digits : Digits} (hfirst : first.afterDigit = some digits)
    (hloop : digits.afterDigit = some digits) {text : List Char} (h : IsRun text)
    (read : List Char) :
    (ScanState.number first read).through text = some (.number digits (text.reverse ++ read)) := by
  obtain ⟨hne, hdigits⟩ := h
  cases text with
  | nil => exact absurd rfl hne
  | cons c text =>
    obtain ⟨hc, htext⟩ := List.forall_mem_cons.1 hdigits
    rw [ScanState.through_cons (read_number (next?_of_isDigit hfirst hc) read),
      through_digits hloop htext]
    simp

theorem through_wholePart {text : List Char} (h : IsWhole text) :
    ∃ digits, (digits = .zero ∨ digits = .whole) ∧
      ScanState.idle.through text = some (.number digits text.reverse) ∧
      ∀ read, (ScanState.number .minus read).through text =
        some (.number digits (text.reverse ++ read)) := by
  rcases h with rfl | ⟨⟨hne, hdigits⟩, hhead⟩
  · exact ⟨.zero, .inl rfl, rfl, fun _ => rfl⟩
  · cases text with
    | nil => exact absurd rfl hne
    | cons c text =>
      obtain ⟨hc, htext⟩ := List.forall_mem_cons.1 hdigits
      have hzero : c ≠ '0' := fun heq => hhead (congrArg some heq)
      have hbegin : ScanState.idle.read c = some (.number .whole [c], []) :=
        begin_of_isDigit hc hzero
      have hminus : Digits.minus.next? c = some .whole := by
        simp [Digits.next?, hzero, hc]
      refine ⟨.whole, .inr rfl, ?_, fun read => ?_⟩
      · rw [ScanState.through_cons hbegin, through_digits rfl htext]
        simp
      · rw [ScanState.through_cons (read_number hminus read), through_digits rfl htext]
        simp

theorem through_fraction {text : List Char} (h : IsFraction text) {digits : Digits}
    (hdigits : digits = .zero ∨ digits = .whole) (read : List Char) :
    ∃ digits', (digits' = .zero ∨ digits' = .whole ∨ digits' = .fraction) ∧
      (ScanState.number digits read).through text =
        some (.number digits' (text.reverse ++ read)) := by
  rcases h with rfl | ⟨run, hrun, rfl⟩
  · exact ⟨digits, by tauto, rfl⟩
  · have hpoint : digits.next? '.' = some .point := by
      rcases hdigits with rfl | rfl <;> rfl
    refine ⟨.fraction, .inr (.inr rfl), ?_⟩
    rw [ScanState.through_cons (read_number hpoint read), through_run rfl rfl hrun]
    simp

theorem through_exponent {text : List Char} (h : IsExponent text) {digits : Digits}
    (hdigits : digits = .zero ∨ digits = .whole ∨ digits = .fraction) (read : List Char) :
    ∃ digits' : Digits, digits'.complete = true ∧
      (ScanState.number digits read).through text =
        some (.number digits' (text.reverse ++ read)) := by
  rcases h with rfl | ⟨mark, hmark, sign, hsign, run, hrun, rfl⟩
  · refine ⟨digits, ?_, rfl⟩
    rcases hdigits with rfl | rfl | rfl <;> rfl
  · have hnext : digits.next? mark = some .mark := by
      simp only [List.mem_cons, List.not_mem_nil, or_false] at hmark
      rcases hmark with rfl | rfl <;> rcases hdigits with rfl | rfl | rfl <;> rfl
    refine ⟨.exponent, rfl, ?_⟩
    rw [ScanState.through_cons (read_number hnext read)]
    simp only [List.mem_cons, List.not_mem_nil, or_false] at hsign
    rcases hsign with rfl | rfl | rfl
    · rw [List.nil_append, through_run rfl rfl hrun]
      simp
    all_goals
      rw [List.singleton_append, ScanState.through_cons (read_number rfl _),
        through_run rfl rfl hrun]
      simp

/-- **Every number of the grammar is read.** -/
theorem numeral_of_isNumber {lexeme : List Char} (h : IsNumber lexeme) : Numeral lexeme := by
  obtain ⟨sign, hsign, whole, fraction, exponent, hwhole, hfraction, hexponent, rfl⟩ := h
  obtain ⟨digits, hdigits, hidle, hminus⟩ := through_wholePart hwhole
  -- After the whole part both signs are alike.
  have hfront : ScanState.idle.through (sign ++ whole) =
      some (.number digits (sign ++ whole).reverse) := by
    simp only [List.mem_cons, List.not_mem_nil, or_false] at hsign
    rcases hsign with rfl | rfl
    · exact hidle
    · have hread : ScanState.idle.read '-' = some (.number .minus ['-'], []) := rfl
      rw [List.singleton_append, ScanState.through_cons hread, hminus]
      simp
  obtain ⟨digits', hdigits', hpoint⟩ := through_fraction hfraction hdigits (sign ++ whole).reverse
  obtain ⟨digits'', hcomplete, hmark⟩ :=
    through_exponent hexponent hdigits' (fraction.reverse ++ (sign ++ whole).reverse)
  refine ⟨digits'', hcomplete, ?_⟩
  rw [← List.append_assoc, ScanState.through_append hfront, ScanState.through_append hpoint, hmark]
  simp

/-! ### Texts -/

theorem Token.Valid.spelled {token : Token} (h : token.Valid) : token.Spelled := by
  cases token with
  | num lexeme => exact numeral_of_isNumber h
  | str spelling => exact spelling_of_characters h
  | _ => trivial

/-- **Every text of a value is read as this value.** -/
theorem parse?_of_written {j : Json} {text : String} (h : j.Written text) :
    parse? text = some j := by
  obtain ⟨hvalid, spaced, last, htokens, hspace, hlast, htext⟩ := h
  have hspelled : ∀ p ∈ spaced, p.2.Spelled := fun p hp =>
    (hvalid p.2 (htokens ▸ List.mem_map_of_mem hp)).spelled
  have hscan := Token.scan_spread hspelled (htokens.symm ▸ j.apart_tokens) hspace hlast
  rw [parse?, htext, hscan, htokens]
  exact ofTokens?_tokens j

end Json
end TaintGraph
