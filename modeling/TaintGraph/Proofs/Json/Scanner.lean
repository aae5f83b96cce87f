/-
# Tokens come back from their text

The scanner reads one character at a time. Where a text completes no token the scanner goes
*through* it, from one state to another (`Json.ScanState.through`). A string may be spelled in
every way that leads through it and back into it, a number in every way that ends where a
number may end (`Json.Spelling`, `Json.Numeral`); the spellings of texts and the digits of
natural numbers are among them.

A number ends only at the character behind it. So a number must not stand in front of another
one, and tokens of which no two numbers stand side by side come back from their texts, put
one after the other with white space between them or without (`Json.Token.scan_spread`,
`Json.Token.scan_texts`).

Key definitions: `Json.ScanState.through`, `Json.Spelling`, `Json.Numeral`,
`Json.Token.Spelled`, `Json.Token.Apart`, `Json.Token.spread`.
Key theorems: `Json.spelling_escape`, `Json.numeral_toDigits`, `Json.Token.scanFrom_token`,
`Json.Token.scan_spread`.
-/
import Mathlib.Data.List.Chain
import TaintGraph.Proofs.Json.Spelling

namespace TaintGraph
namespace Json

/-! ### Reading on inside a token -/

/-- The state to which a text leads that completes no token. -/
def ScanState.through (s : ScanState) : List Char → Option ScanState
  | [] => some s
  | c :: rest =>
    match s.read c with
    | some (s, []) => s.through rest
    | _ => none

namespace ScanState

variable {s s' s'' : ScanState} {c : Char} {text text' : List Char}

theorem through_cons (h : s.read c = some (s', [])) : s.through (c :: text) = s'.through text := by
  rw [through, h]

theorem through_append (h : s.through text = some s') :
    s.through (text ++ text') = s'.through text' := by
  induction text generalizing s with
  | nil =>
    cases h
    rfl
  | cons c text ih =>
    rw [through] at h
    split at h
    next t hread => exact (through_cons hread).trans (ih h)
    next => cases h

end ScanState

/-- The scanner goes on from where the text leads. -/
theorem Token.scanFrom_through {s s' : ScanState} {text : List Char} (h : s.through text = some s')
    (done : List Token) (rest : List Char) :
    scanFrom s done (text ++ rest) = scanFrom s' done rest := by
  induction text generalizing s with
  | nil =>
    cases h
    rfl
  | cons c text ih =>
    rw [ScanState.through] at h
    split at h
    next t hread =>
      rw [List.cons_append, scanFrom, hread]
      exact ih h
    next => cases h

/-! ### Strings -/

/-- The characters may stand between the quotes of a string. -/
def Spelling (spelling : List Char) : Prop :=
  ∀ read, (ScanState.text read).through spelling = some (.text (spelling.reverse ++ read))

theorem Spelling.append {left right : List Char} (hl : Spelling left) (hr : Spelling right) :
    Spelling (left ++ right) := by
  intro read
  rw [ScanState.through_append (hl read), hr, List.reverse_append, List.append_assoc]

theorem spelling_nil : Spelling [] := fun _ => rfl

theorem spelling_short {e c : Char} (h : shortEscape? e = some c) : Spelling ['\\', e] := by
  intro read
  have hslash : (ScanState.text read).read '\\' = some (.escape ('\\' :: read), []) := rfl
  have hletter : (ScanState.escape ('\\' :: read)).read e =
      some (.text (e :: '\\' :: read), []) := by
    simp [ScanState.read, shortEscape?_ne h, h]
  rw [ScanState.through_cons hslash, ScanState.through_cons hletter]
  rfl

theorem spelling_hex {a b c d : Char} (ha : (hexValue? a).isSome) (hb : (hexValue? b).isSome)
    (hc : (hexValue? c).isSome) (hd : (hexValue? d).isSome) :
    Spelling ['\\', 'u', a, b, c, d] := by
  intro read
  rw [Option.isSome_iff_ne_none] at ha hb hc hd
  simp [ScanState.through, ScanState.read, ha, hb, hc, hd]

theorem spelling_plain {c : Char} (hquote : c ≠ '"') (hslash : c ≠ '\\')
    (hcontrol : ¬ c.toNat < 0x20) : Spelling [c] := by
  intro read
  simp only [ScanState.through, ScanState.read, if_neg hquote, if_neg hslash, if_neg hcontrol]
  rfl

/-- The spelling of every text may stand in a string. -/
theorem spelling_escape (text : List Char) : Spelling (escape text) := by
  induction text with
  | nil => exact spelling_nil
  | cons c text ih =>
    refine Spelling.append ?_ ih
    rcases escapeChar_cases c with ⟨e, he, heq⟩ | ⟨hcontrol, heq⟩ | ⟨hquote, hslash, hcontrol, heq⟩
    · rw [heq]
      exact spelling_short he
    · have hdigit : ∀ n < 16, (hexValue? (hexDigit n)).isSome := fun n hn => by
        rw [hexValue?_hexDigit n hn]
        rfl
      rw [heq]
      exact spelling_hex rfl rfl (hdigit _ (by omega)) (hdigit _ (by omega))
    · rw [heq]
      exact spelling_plain hquote hslash hcontrol

/-! ### Numbers -/

/-- The characters are those of a number. -/
def Numeral (lexeme : List Char) : Prop :=
  ∃ digits : Digits, digits.complete = true ∧
    ScanState.idle.through lexeme = some (.number digits lexeme.reverse)

theorem begin_of_isDigit {c : Char} (hdigit : c.isDigit = true) (hne : c ≠ '0') :
    ScanState.begin c = some (.number .whole [c], []) := by
  unfold ScanState.begin
  split <;> simp_all

/-- Where a digit leads inside a number, wherever any digit may stand. -/
def Digits.afterDigit : Digits → Option Digits
  | .whole => some .whole
  | .point | .fraction => some .fraction
  | .mark | .sign | .exponent => some .exponent
  | .minus | .zero => none

theorem next?_of_isDigit {digits digits' : Digits} (h : digits.afterDigit = some digits') {c : Char}
    (hc : c.isDigit = true) : digits.next? c = some digits' := by
  have hsign : c ≠ '+' ∧ c ≠ '-' := by
    constructor <;> rintro rfl <;> cases hc
  cases digits <;> simp_all [Digits.afterDigit, Digits.next?]

theorem read_number {digits digits' : Digits} {c : Char} (h : digits.next? c = some digits')
    (read : List Char) :
    (ScanState.number digits read).read c = some (.number digits' (c :: read), []) := by
  simp [ScanState.read, h]

/-- Digits go on with digits. -/
theorem through_digits {digits : Digits} (hloop : digits.afterDigit = some digits)
    {text : List Char} (h : ∀ c ∈ text, c.isDigit = true) (read : List Char) :
    (ScanState.number digits read).through text = some (.number digits (text.reverse ++ read)) := by
  induction text generalizing read with
  | nil => rfl
  | cons c text ih =>
    obtain ⟨hc, htext⟩ := List.forall_mem_cons.1 h
    rw [ScanState.through_cons (read_number (next?_of_isDigit hloop hc) read), ih htext]
    simp

/-- The digits of every natural number are a number. -/
theorem numeral_toDigits (n : ℕ) : Numeral (Nat.toDigits 10 n) := by
  rcases Nat.eq_zero_or_pos n with rfl | hpos
  · exact ⟨.zero, rfl, rfl⟩
  · obtain ⟨c, rest, heq, hne⟩ := exists_toDigits_of_pos hpos
    have hdigits := List.all_eq_true.1 (all_isDigit_toDigits n)
    rw [heq] at hdigits ⊢
    refine ⟨.whole, rfl, ?_⟩
    have hbegin : ScanState.idle.read c = some (.number .whole [c], []) :=
      begin_of_isDigit (hdigits c List.mem_cons_self) hne
    rw [ScanState.through_cons hbegin,
      through_digits rfl fun d hd => hdigits d (List.mem_cons_of_mem _ hd)]
    simp

/-! ### Tokens -/

namespace Token

/-- What the token keeps of its text may stand there. -/
def Spelled : Token → Prop
  | .num lexeme => Numeral lexeme
  | .str spelling => Spelling spelling
  | _ => True

/-- The token is a number. -/
def isNumber : Token → Bool
  | .num _ => true
  | _ => false

/-- The tokens are not both numbers. -/
def Apart (a b : Token) : Prop :=
  a.isNumber = true → b.isNumber = false

/-- No number goes on with the text. -/
def Breaks (text : List Char) : Prop :=
  ∀ c ∈ text.head?, c.isDigit = false ∧ c ≠ '.' ∧ c ≠ 'e' ∧ c ≠ 'E'

theorem next?_of_breaks {digits : Digits} {c : Char} {rest : List Char} (h : Breaks (c :: rest))
    (hdigits : digits.complete = true) : digits.next? c = none := by
  obtain ⟨hdigit, hpoint, hlow, hhigh⟩ := h c rfl
  cases digits <;> simp_all [Digits.next?, Digits.complete]

theorem breaks_text {token : Token} (h : token.isNumber = false) (rest : List Char) :
    Breaks (token.text ++ rest) := by
  unfold Breaks
  cases token with
  | num lexeme => cases h
  | bool b => cases b <;> simp [text]
  | _ => simp [text]

/-- A number is complete when nothing goes on with it. -/
theorem scanFrom_number {digits : Digits} (hdigits : digits.complete = true) (read : List Char)
    (done : List Token) {rest : List Char} (hrest : Breaks rest) :
    scanFrom (.number digits read) done rest = scanFrom .idle (.num read.reverse :: done) rest := by
  cases rest with
  | nil => simp [scanFrom, ScanState.finish, hdigits]
  | cons c rest =>
    have hnext := next?_of_breaks hrest hdigits
    simp only [scanFrom, ScanState.read, hnext, hdigits, if_true]
    cases ScanState.begin c with
    | none => rfl
    | some next => simp

/-- **A token is read from its text**, a number when nothing goes on with it. -/
theorem scanFrom_token {token : Token} (h : token.Spelled) (done : List Token) {rest : List Char}
    (hrest : token.isNumber = true → Breaks rest) :
    scanFrom .idle done (token.text ++ rest) = scanFrom .idle (token :: done) rest := by
  cases token with
  | num lexeme =>
    obtain ⟨digits, hdigits, hthrough⟩ := h
    rw [text, scanFrom_through hthrough, scanFrom_number hdigits _ _ (hrest rfl),
      List.reverse_reverse]
  | str spelling =>
    have hspelling := h []
    rw [List.append_nil] at hspelling
    have hopen : scanFrom .idle done ((Token.str spelling).text ++ rest) =
        scanFrom (.text []) done (spelling ++ '"' :: rest) := by
      simp [text, scanFrom, ScanState.read, ScanState.begin]
    rw [hopen, scanFrom_through hspelling]
    simp [scanFrom, ScanState.read]
  | bool b => cases b <;> rfl
  | _ => rfl

/-! ### White space -/

/-- A character that may stand between tokens. -/
def isSpace (c : Char) : Bool :=
  c = ' ' || c = '\t' || c = '\n' || c = '\r'

theorem begin_of_isSpace {c : Char} (h : isSpace c = true) :
    ScanState.begin c = some (.idle, []) := by
  simp only [isSpace, Bool.or_eq_true, decide_eq_true_eq] at h
  rcases h with ((rfl | rfl) | rfl) | rfl <;> rfl

theorem scanFrom_space {gap : List Char} (h : ∀ c ∈ gap, isSpace c = true) (done : List Token)
    (rest : List Char) : scanFrom .idle done (gap ++ rest) = scanFrom .idle done rest := by
  refine scanFrom_through ?_ done rest
  induction gap with
  | nil => rfl
  | cons c gap ih =>
    have hread : ScanState.idle.read c = some (.idle, []) :=
      begin_of_isSpace (h c List.mem_cons_self)
    rw [ScanState.through_cons hread]
    exact ih fun d hd => h d (List.mem_cons_of_mem _ hd)

/-- White space ends a number, and lets stand what stands behind it. -/
theorem breaks_space {gap : List Char} (h : ∀ c ∈ gap, isSpace c = true) {rest : List Char}
    (hrest : Breaks rest) : Breaks (gap ++ rest) := by
  cases gap with
  | nil => exact hrest
  | cons c gap =>
    intro d hd
    obtain rfl : c = d := Option.some.inj hd
    have hc := h c List.mem_cons_self
    simp only [isSpace, Bool.or_eq_true, decide_eq_true_eq] at hc
    rcases hc with ((rfl | rfl) | rfl) | rfl <;> decide

/-- The tokens as written, each with the white space in front of it. -/
def spread (spaced : List (List Char × Token)) : List Char :=
  spaced.flatMap fun p => p.1 ++ p.2.text

/-- **Tokens are read from their texts**, with white space around them, when no two numbers stand
side by side. -/
theorem scan_spread {spaced : List (List Char × Token)} {last : List Char}
    (h : ∀ p ∈ spaced, p.2.Spelled) (hapart : (spaced.map Prod.snd).IsChain Apart)
    (hspace : ∀ p ∈ spaced, ∀ c ∈ p.1, isSpace c = true) (hlast : ∀ c ∈ last, isSpace c = true) :
    scan (spread spaced ++ last) = some (spaced.map Prod.snd) := by
  suffices hfrom : ∀ done, scanFrom .idle done (spread spaced ++ last) =
      some (done.reverse ++ spaced.map Prod.snd) from hfrom []
  have hend : Breaks last := List.append_nil last ▸ breaks_space hlast (by simp [Breaks])
  induction spaced with
  | nil =>
    intro done
    have hskip := scanFrom_space hlast done []
    rw [List.append_nil] at hskip
    show scanFrom .idle done last = _
    simp [hskip, scanFrom, ScanState.finish]
  | cons p spaced ih =>
    obtain ⟨gap, token⟩ := p
    obtain ⟨htoken, htokens⟩ := List.forall_mem_cons.1 h
    obtain ⟨hgap, hgaps⟩ := List.forall_mem_cons.1 hspace
    obtain ⟨hnext, htail⟩ := List.isChain_cons.1 hapart
    intro done
    have hrest : token.isNumber = true → Breaks (spread spaced ++ last) := by
      intro hnumber
      cases spaced with
      | nil => exact hend
      | cons p' spaced =>
        have hbreak := breaks_text (hnext p'.2 rfl hnumber) (spread spaced ++ last)
        have hbreak' := breaks_space (hgaps p' List.mem_cons_self) hbreak
        simpa [spread] using hbreak'
    calc scanFrom .idle done (spread ((gap, token) :: spaced) ++ last)
        = scanFrom .idle done (gap ++ (token.text ++ (spread spaced ++ last))) := by
          simp [spread]
      _ = scanFrom .idle (token :: done) (spread spaced ++ last) := by
          rw [scanFrom_space hgap, scanFrom_token htoken done hrest]
      _ = some (done.reverse ++ token :: spaced.map Prod.snd) := by
          rw [ih htokens htail hgaps]
          simp

theorem scan_texts {tokens : List Token} (h : ∀ token ∈ tokens, token.Spelled)
    (hapart : tokens.IsChain Apart) : scan (tokens.flatMap text) = some tokens := by
  have htokens : (tokens.map (([] : List Char), ·)).map Prod.snd = tokens :=
    List.map_map.trans (List.map_id tokens)
  have hscan : scan (spread (tokens.map ([], ·)) ++ []) =
      some ((tokens.map ([], ·)).map Prod.snd) :=
    scan_spread (by simpa using h) (htokens.symm ▸ hapart) (by simp) (by simp)
  rw [htokens] at hscan
  simpa [spread, List.flatMap_map] using hscan

end Token
end Json
end TaintGraph
