/-
# Values come back from their text

The reader builds a value with a stack of its own: a value is *closed* when it is complete,
and goes where the open value around it wants it. To read the tokens of a value inside open
ones is to close it there (`Json.readValue_tokens`), so a value is read from its tokens
(`Json.ofTokens?_tokens`). In these tokens no two numbers stand side by side, since something
always divides two values (`Json.apart_tokens`). Hence a value is read from its text, if the
numbers and strings in it are spelled as they may be (`Json.parse?_render`).

Key definitions: `Json.Spelled`.
Key theorems: `Json.induction`, `Json.readValue_tokens`, `Json.apart_tokens`,
`Json.parse?_render`.
-/
import TaintGraph.Proofs.Json.Scanner

namespace TaintGraph
namespace Json

/-- What holds of null, truth values, numbers and strings, and of an array or object when it
holds of all values in it, holds of every value. -/
@[elab_as_elim]
theorem induction {P : Json → Prop} (null : P .null) (bool : ∀ b, P (.bool b))
    (num : ∀ lexeme, P (.num lexeme)) (str : ∀ spelling, P (.str spelling))
    (arr : ∀ items, (∀ item ∈ items, P item) → P (.arr items))
    (obj : ∀ members : List (List Char × Json), (∀ m ∈ members, P m.2) → P (.obj members))
    (j : Json) : P j :=
  @Json.rec P (fun items => ∀ item ∈ items, P item) (fun members => ∀ m ∈ members, P m.2)
    (fun m => P m.2) null bool num str arr obj (by simp)
    (fun _ _ hitem hitems => List.forall_mem_cons.2 ⟨hitem, hitems⟩) (by simp)
    (fun _ _ hm hmembers => List.forall_mem_cons.2 ⟨hm, hmembers⟩) (fun _ _ hvalue => hvalue) j

/-! ### Reading tokens -/

/-- No value begins like the end of an array. -/
theorem itemTokens_ne (item : Json) (items : List Json) (tail rest : List Token) :
    itemTokens (item :: items) ++ tail ≠ .closeBracket :: rest := by
  have hfirst : ∀ more, item.tokens ++ more ≠ .closeBracket :: rest := by
    intro more
    cases item <;> simp [tokens]
  cases items with
  | nil => exact hfirst tail
  | cons item' items =>
    rw [itemTokens, List.append_assoc]
    · exact hfirst _
    · simp

/-- The reader inside an array: with `done` read, latest first, the items that follow are
read up to the end of the array. -/
theorem readValue_itemTokens {items : List Json} (hne : items ≠ [])
    (h : ∀ item ∈ items, ∀ stack rest, readValue stack (item.tokens ++ rest) =
      closeValue stack item rest) (done : List Json) (stack : List Open) (rest : List Token) :
    readValue (.arr done :: stack) (itemTokens items ++ .closeBracket :: rest) =
      closeValue stack (.arr (done.reverse ++ items)) rest := by
  induction items generalizing done with
  | nil => exact absurd rfl hne
  | cons item items ih =>
    have hitem := h item List.mem_cons_self
    cases items with
    | nil =>
      rw [itemTokens, hitem, closeValue, List.reverse_cons]
    | cons item' items =>
      have hitems := ih (by simp) (fun i hi => h i (List.mem_cons_of_mem _ hi)) (item :: done)
      rw [itemTokens, List.append_assoc, hitem, List.cons_append, closeValue, hitems]
      · simp
      · simp

theorem readValue_memberTokens {members : List (List Char × Json)} {key : List Char}
    {value : Json} (h : ∀ m ∈ (key, value) :: members, ∀ stack rest,
      readValue stack (m.2.tokens ++ rest) = closeValue stack m.2 rest)
    (done : List (List Char × Json)) (stack : List Open) (rest : List Token) :
    ∃ tokens, memberTokens ((key, value) :: members) = .str key :: .colon :: tokens ∧
      readValue (.obj done key :: stack) (tokens ++ .closeBrace :: rest) =
        closeValue stack (.obj (done.reverse ++ (key, value) :: members)) rest := by
  induction members generalizing key value done with
  | nil =>
    have hvalue := h (key, value) List.mem_cons_self
    refine ⟨value.tokens, rfl, ?_⟩
    rw [hvalue, closeValue, List.reverse_cons]
  | cons m members ih =>
    obtain ⟨key', value'⟩ := m
    have hvalue := h (key, value) List.mem_cons_self
    obtain ⟨tokens, htokens, hread⟩ :=
      ih (fun m hm => h m (List.mem_cons_of_mem _ hm)) ((key, value) :: done)
    refine ⟨value.tokens ++ .comma :: .str key' :: .colon :: tokens, ?_, ?_⟩
    · rw [memberTokens, htokens]
      simp
    · rw [List.append_assoc, hvalue]
      show readValue (.obj ((key, value) :: done) key' :: stack) (tokens ++ .closeBrace :: rest) = _
      rw [hread]
      simp

/-- **To read the tokens of a value is to close it.** -/
theorem readValue_tokens (j : Json) (stack : List Open) (rest : List Token) :
    readValue stack (j.tokens ++ rest) = closeValue stack j rest := by
  induction j using Json.induction generalizing stack rest with
  | null => rfl
  | bool b => rfl
  | num lexeme => rfl
  | str spelling => rfl
  | arr items h =>
    cases items with
    | nil => rfl
    | cons item items =>
      have hopen : readValue stack ((Json.arr (item :: items)).tokens ++ rest) =
          readValue (.arr [] :: stack) (itemTokens (item :: items) ++ .closeBracket :: rest) := by
        rw [Json.tokens, List.cons_append, List.append_assoc, readValue]
        · rfl
        · exact fun more heq => itemTokens_ne item items _ more heq
      rw [hopen]
      exact readValue_itemTokens (List.cons_ne_nil item items) h [] stack rest
  | obj members h =>
    cases members with
    | nil => rfl
    | cons m members =>
      obtain ⟨key, value⟩ := m
      obtain ⟨tokens, htokens, hread⟩ := readValue_memberTokens h [] stack rest
      rw [Json.tokens, htokens]
      simpa [readValue] using hread

theorem ofTokens?_tokens (j : Json) : ofTokens? j.tokens = some j := by
  have hread := readValue_tokens j [] []
  rw [List.append_nil] at hread
  rw [ofTokens?, hread]
  rfl

/-! ### The tokens of a value -/

/-- Whatever stands on either side, a divider keeps it apart. -/
theorem apart_append_cons {divider : Token} (hdivider : divider.isNumber = false)
    (left right : List Token) :
    (left ++ divider :: right).IsChain Token.Apart ↔
      left.IsChain Token.Apart ∧ right.IsChain Token.Apart := by
  have hright : (divider :: right).IsChain Token.Apart ↔ right.IsChain Token.Apart := by
    rw [List.isChain_cons]
    refine and_iff_right fun token _ hnumber => ?_
    rw [hdivider] at hnumber
    cases hnumber
  rw [List.isChain_append, hright]
  constructor
  · exact fun h => ⟨h.1, h.2.1⟩
  · intro h
    refine ⟨h.1, h.2, fun a _ b hb _ => ?_⟩
    cases hb
    exact hdivider

/-- Tokens between two brackets or braces are apart if they are apart among themselves. -/
theorem apart_enclosed {first last : Token} (hfirst : first.isNumber = false)
    (hlast : last.isNumber = false) {tokens : List Token} (h : tokens.IsChain Token.Apart) :
    (first :: (tokens ++ [last])).IsChain Token.Apart :=
  (apart_append_cons hfirst [] _).2
    ⟨List.IsChain.nil, (apart_append_cons hlast _ []).2 ⟨h, List.IsChain.nil⟩⟩

theorem apart_itemTokens {items : List Json}
    (h : ∀ item ∈ items, item.tokens.IsChain Token.Apart) :
    (itemTokens items).IsChain Token.Apart := by
  induction items with
  | nil => exact List.IsChain.nil
  | cons item items ih =>
    have hitems := ih fun i hi => h i (List.mem_cons_of_mem _ hi)
    cases items with
    | nil => exact h item List.mem_cons_self
    | cons item' items =>
      rw [itemTokens, apart_append_cons rfl]
      · exact ⟨h item List.mem_cons_self, hitems⟩
      · simp

theorem apart_memberTokens {members : List (List Char × Json)}
    (h : ∀ m ∈ members, m.2.tokens.IsChain Token.Apart) :
    (memberTokens members).IsChain Token.Apart := by
  induction members with
  | nil => exact List.IsChain.nil
  | cons m members ih =>
    obtain ⟨key, value⟩ := m
    have hvalue := h (key, value) List.mem_cons_self
    have hmembers := ih fun i hi => h i (List.mem_cons_of_mem _ hi)
    have hkey : ∀ {tokens : List Token}, tokens.IsChain Token.Apart →
        (.str key :: .colon :: tokens).IsChain Token.Apart := fun htokens =>
      (apart_append_cons rfl [.str key] _).2 ⟨List.isChain_singleton _, htokens⟩
    cases members with
    | nil => exact hkey hvalue
    | cons m' members =>
      rw [memberTokens]
      · exact hkey ((apart_append_cons rfl _ _).2 ⟨hvalue, hmembers⟩)
      · simp

/-- No two numbers stand side by side in a value. -/
theorem apart_tokens (j : Json) : j.tokens.IsChain Token.Apart := by
  induction j using Json.induction with
  | null => exact List.isChain_singleton _
  | bool b => exact List.isChain_singleton _
  | num lexeme => exact List.isChain_singleton _
  | str spelling => exact List.isChain_singleton _
  | arr items h => exact apart_enclosed rfl rfl (apart_itemTokens h)
  | obj members h => exact apart_enclosed rfl rfl (apart_memberTokens h)

/-- All numbers and strings in the value are spelled as they may be. -/
def Spelled (j : Json) : Prop :=
  ∀ token ∈ j.tokens, token.Spelled

/-- **A value is read from its text.** -/
theorem parse?_render {j : Json} (h : j.Spelled) : parse? j.render = some j := by
  have hscan := Token.scan_texts h j.apart_tokens
  rw [parse?, render, String.toList_ofList, hscan]
  exact ofTokens?_tokens j

end Json
end TaintGraph
