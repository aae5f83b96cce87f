/-
# Documents of one pair a line

A document may be no more than lines of a bare key, an equals sign and a whole number
(`Toml.Lines`). Each line is read as its pair (`Toml.pair?_line`), the lines are read one after
the other (`Toml.statementsUpTo?_lines`), and since no key is given twice, the root table of the
document has these pairs, in the order of their lines (`Toml.parse?_lines`). A number that does
not fit 64 bits spoils the document (`Toml.parse?_lines_eq_none`).

Key definitions: `Toml.Bare`, `Toml.Lines`, `Toml.entry`.
Key theorems: `Toml.pair?_line`, `Toml.statementsUpTo?_lines`, `Toml.parse?_lines`,
`Toml.parse?_lines_eq_none`.
-/
import TaintGraph.Proofs.Json.Members
import TaintGraph.Proofs.Toml.Integer
import TaintGraph.Toml.Document

namespace TaintGraph
namespace Toml

/-- A key that needs no quotes. -/
def Bare (key : String) : Prop :=
  key ≠ "" ∧ ∀ c ∈ key.toList, isBare c = true

/-- A key and its number on a line. -/
def line (p : String × Literal) : List Char :=
  p.1.toList ++ ' ' :: '=' :: ' ' :: p.2.text

/-- The text has one line for each pair. A line ends with a line feed, alone or after a carriage
return; the last one may end with the text. -/
inductive Lines : List (String × Literal) → List Char → Prop
  | nil : Lines [] []
  | last (p : String × Literal) : Lines [p] (line p)
  | cons (p : String × Literal) {pairs : List (String × Literal)} {ending text : List Char}
    (hending : ending = ['\n'] ∨ ending = ['\r', '\n']) (h : Lines pairs text) :
    Lines (p :: pairs) (line p ++ (ending ++ text))

/-- What a pair adds to the root table. -/
def entry (p : String × Literal) : String × Item :=
  (p.1, .number (.integer p.2.value))

/-- The statement of a line, if its number fits 64 bits. -/
def statement? (p : String × Literal) : Option Statement :=
  (word64? p.2.value).map fun n => .pair [] p.1 (.number (.integer n))

/-! ### One line -/

theorem Bare.exists_cons {key : String} (h : Bare key) :
    ∃ c more, key.toList = c :: more ∧ isBare c = true := by
  obtain ⟨hne, hall⟩ := h
  cases hkey : key.toList with
  | nil => exact absurd (String.toList_eq_nil_iff.1 hkey) hne
  | cons c more => exact ⟨c, more, rfl, hall c (by rw [hkey]; exact List.mem_cons_self)⟩

theorem skipBlank_cons {c : Char} (hc : isBlank c = false) (text : List Char) :
    skipBlank (c :: text) = c :: text :=
  List.dropWhile_cons_of_neg (by rw [hc]; decide)

theorem isBlank_of_isBare {c : Char} (hc : isBare c = true) : isBlank c = false := by
  have hspace : c ≠ ' ' := ne_of_test hc rfl
  have htab : c ≠ '\t' := ne_of_test hc rfl
  simp [isBlank, hspace, htab]

theorem keyPart?_bare {key : String} (h : Bare key) (rest : List Char) :
    keyPart? (key.toList ++ ' ' :: rest) = some (key, ' ' :: rest) := by
  obtain ⟨c, more, heq, hc⟩ := h.exists_cons
  have htake : (key.toList ++ ' ' :: rest).takeWhile isBare = key.toList := by
    rw [List.takeWhile_append_of_pos h.2, List.takeWhile_cons_of_neg (by decide), List.append_nil]
  have hdrop : (key.toList ++ ' ' :: rest).dropWhile isBare = ' ' :: rest := by
    rw [List.dropWhile_append_of_pos h.2, List.dropWhile_cons_of_neg (by decide)]
  have hquote : ∀ {d : Char} {text : List Char}, isBare d = false →
      key.toList ++ ' ' :: rest ≠ d :: text := by
    intro d text hd hcons
    rw [heq] at hcons
    exact ne_of_test hc hd (List.cons.inj hcons).1
  rw [keyPart?, htake, hdrop]
  · rw [heq]
    show some (String.ofList (c :: more), _) = _
    rw [← heq, String.ofList_toList]
  · exact fun _ => hquote rfl
  · exact fun _ => hquote rfl

theorem key?_bare {key : String} (h : Bare key) (rest : List Char) :
    key? (key.toList ++ ' ' :: '=' :: rest) = some (([], key), '=' :: rest) := by
  obtain ⟨c, more, heq, hc⟩ := h.exists_cons
  have hfront : skipBlank (key.toList ++ ' ' :: '=' :: rest) =
      key.toList ++ ' ' :: '=' :: rest := by
    rw [heq]
    exact skipBlank_cons (isBlank_of_isBare hc) _
  have hkey : keyUpTo? maxNesting (key.toList ++ ' ' :: '=' :: rest) =
      some ([key], '=' :: rest) := by
    rw [maxNesting, keyUpTo?, hfront, keyPart?_bare h]
    rfl
  rw [key?, hkey]
  rfl

theorem endLine?_ending {ending : List Char} (h : ending = ['\n'] ∨ ending = ['\r', '\n'])
    (text : List Char) : endLine? (ending ++ text) = some text := by
  rcases h with rfl | rfl <;> rfl

theorem atEnd_nil : AtEnd [] := by
  simp [AtEnd]

theorem atEnd_ending {ending : List Char} (h : ending = ['\n'] ∨ ending = ['\r', '\n'])
    (text : List Char) : AtEnd (ending ++ text) := by
  rcases h with rfl | rfl <;> simp [AtEnd]

/-- **A line is read as its pair.** -/
theorem pair?_line {p : String × Literal} (h : Bare p.1) {rest text : List Char}
    (hrest : AtEnd rest) (hend : endLine? rest = some text) :
    pair? (line p ++ rest) = (statement? p).map fun s => (s, text) := by
  have hkey : key? (line p ++ rest) = some (([], p.1), '=' :: ' ' :: (p.2.text ++ rest)) := by
    rw [line, List.append_assoc]
    exact key?_bare h _
  have hblank : skipBlank (' ' :: (p.2.text ++ rest)) = p.2.text ++ rest := by
    obtain ⟨c, more, heq, hc⟩ := exists_literal p.2 rest
    have hblank : isBlank c = false := by
      rcases hc with hc | rfl
      · simp [isBlank, ne_of_test hc (show ' '.isDigit = false from rfl),
          ne_of_test hc (show '\t'.isDigit = false from rfl)]
      · rfl
    rw [heq]
    exact skipBlank_cons hblank more
  have hequals : only? '=' ('=' :: ' ' :: (p.2.text ++ rest)) = some (' ' :: (p.2.text ++ rest)) :=
    rfl
  simp only [pair?, hkey, hequals, hblank, value?_literal hrest, Option.bind_eq_bind,
    Option.bind_some, statement?]
  cases word64? p.2.value with
  | none => rfl
  | some n =>
    simp only [Option.map_some, Option.bind_some, hend]
    rfl

/-! ### All lines -/

theorem Lines.length_le {pairs : List (String × Literal)} {text : List Char}
    (h : Lines pairs text) : pairs.length ≤ text.length := by
  induction h with
  | nil => exact le_rfl
  | last p =>
    simp only [line, List.length_append, List.length_cons, List.length_nil]
    omega
  | cons p hending _ ih =>
    simp only [line, List.length_append, List.length_cons]
    omega

theorem statementsUpTo?_line {p : String × Literal} (h : Bare p.1) {rest text : List Char}
    (hrest : AtEnd rest) (hend : endLine? rest = some text) (steps : ℕ) :
    statementsUpTo? (steps + 1) (line p ++ rest) = (statement? p).bind fun s =>
      (statementsUpTo? steps text).map (s :: ·) := by
  obtain ⟨c, more, heq, hc⟩ := h.exists_cons
  have hpair := pair?_line h hrest hend
  have hfront : line p ++ rest = c :: (more ++ ' ' :: '=' :: ' ' :: p.2.text ++ rest) := by
    rw [line, heq]
    rfl
  rw [hfront] at hpair ⊢
  rw [statementsUpTo?, skipBlank_cons (isBlank_of_isBare hc)]
  split
  · rename_i hnil
    cases hnil
  · rename_i hcons
    exact absurd (List.cons.inj hcons).1 (ne_of_test hc rfl)
  · rename_i hcons
    exact absurd (List.cons.inj hcons).1 (ne_of_test hc rfl)
  · rename_i hcons
    exact absurd (List.cons.inj hcons).1 (ne_of_test hc rfl)
  · rename_i hcons
    exact absurd (List.cons.inj hcons).1 (ne_of_test hc rfl)
  · rw [hpair]
    cases statement? p with
    | none => rfl
    | some s =>
      simp only [Option.bind_eq_bind, Option.bind_some, Option.map_eq_bind]
      rfl

theorem statementsUpTo?_lines {pairs : List (String × Literal)} {text : List Char}
    (h : Lines pairs text) (hkeys : ∀ p ∈ pairs, Bare p.1) {steps : ℕ}
    (hsteps : pairs.length < steps) :
    statementsUpTo? steps text = pairs.mapM statement? := by
  -- Each line takes one step, and one more sees the end of the text.
  induction h generalizing steps with
  | nil =>
    obtain ⟨steps, rfl⟩ := Nat.exists_eq_succ_of_ne_zero (Nat.ne_zero_of_lt hsteps)
    rfl
  | last p =>
    obtain ⟨steps, rfl⟩ := Nat.exists_eq_add_of_le' (show 2 ≤ steps from hsteps)
    have hread := statementsUpTo?_line (hkeys p List.mem_cons_self) (atEnd_nil) rfl (steps + 1)
    rw [List.append_nil] at hread
    rw [hread, List.mapM_cons]
    cases statement? p <;> rfl
  | @cons p pairs ending text hending _ ih =>
    obtain ⟨hp, hpairs⟩ := List.forall_mem_cons.1 hkeys
    obtain ⟨steps, rfl⟩ := Nat.exists_eq_succ_of_ne_zero (Nat.ne_zero_of_lt hsteps)
    rw [statementsUpTo?_line hp (atEnd_ending hending text) (endLine?_ending hending text),
      ih hpairs (Nat.lt_of_succ_lt_succ hsteps), List.mapM_cons]
    simp only [Option.map_eq_bind, Option.bind_eq_bind]
    rfl

/-! ### The root table -/

theorem foldlM_pairs {pairs root : Entries} (hkeys : ((root ++ pairs).map Prod.fst).Nodup) :
    (pairs.map fun p => Statement.pair [] p.1 p.2).foldlM Statement.apply? { root := root } =
      some { root := root ++ pairs } := by
  -- Each step moves a pair to the root, so the keys of both together stay distinct.
  induction pairs generalizing root with
  | nil => simp
  | cons p pairs ih =>
    have hshift : root ++ p :: pairs = (root ++ [p]) ++ pairs := by simp
    have hfresh : root.lookup p.1 = none := by
      rw [List.map_append, List.nodup_append] at hkeys
      rw [List.lookup_eq_none_iff]
      intro e he
      have hne := hkeys.2.2 e.1 (List.mem_map_of_mem he) p.1 List.mem_cons_self
      simpa using Ne.symm hne
    have hadd : Statement.apply? { root := root } (.pair [] p.1 p.2) =
        some { root := root ++ [p] } := by
      show (addPair? p.1 p.2 [] root).bind _ = _
      rw [addPair?, hfresh]
      rfl
    rw [hshift] at hkeys ⊢
    rw [List.map_cons, List.foldlM_cons, hadd]
    exact ih hkeys

theorem mapM_statement? {pairs : List (String × Literal)}
    (hfits : ∀ p ∈ pairs, word64? p.2.value = some p.2.value) :
    pairs.mapM statement? = some ((pairs.map entry).map fun e => .pair [] e.1 e.2) := by
  induction pairs with
  | nil => rfl
  | cons p pairs ih =>
    obtain ⟨hp, hpairs⟩ := List.forall_mem_cons.1 hfits
    rw [List.mapM_cons, ih hpairs, statement?, hp]
    rfl

section Parse

variable {pairs : List (String × Literal)} {text : String} (h : Lines pairs text.toList)
  (hkeys : ∀ p ∈ pairs, Bare p.1)
include h hkeys

theorem skipMark_lines : skipMark text.toList = text.toList := by
  have hbare : ∀ {p : String × Literal} (rest : List Char), Bare p.1 →
      skipMark (line p ++ rest) = line p ++ rest := by
    intro p rest hp
    obtain ⟨c, more, heq, hc⟩ := hp.exists_cons
    rw [line, heq, skipMark]
    exact fun _ hcons => ne_of_test hc rfl (List.cons.inj hcons).1
  generalize text.toList = chars at h ⊢
  cases h with
  | nil => rfl
  | last p =>
    rw [← List.append_nil (line p)]
    exact hbare [] (hkeys p List.mem_cons_self)
  | cons p hending _ => exact hbare _ (hkeys p List.mem_cons_self)

theorem statements?_lines : statements? (skipMark text.toList) = pairs.mapM statement? := by
  rw [skipMark_lines h hkeys]
  exact statementsUpTo?_lines h hkeys (Nat.lt_succ_of_le h.length_le)

/-- **The root table has the pairs of the lines.** -/
theorem parse?_lines (hnodup : (pairs.map Prod.fst).Nodup)
    (hfits : ∀ p ∈ pairs, word64? p.2.value = some p.2.value) :
    parse? text = some (pairs.map entry) := by
  have hstatements := mapM_statement? hfits
  have hentries : (([] ++ pairs.map entry).map Prod.fst).Nodup := by
    rwa [List.nil_append, List.map_map]
  rw [parse?, statements?_lines h hkeys, hstatements, Option.bind_eq_bind, Option.bind_some,
    foldlM_pairs hentries]
  rfl

/-- A number that does not fit 64 bits spoils the document. -/
theorem parse?_lines_eq_none {p : String × Literal} (hp : p ∈ pairs)
    (hbig : word64? p.2.value = none) : parse? text = none := by
  have hnone : pairs.mapM statement? = none :=
    Json.mapM_eq_none_of_mem hp (by rw [statement?, hbig]; rfl)
  rw [parse?, statements?_lines h hkeys, hnone]
  rfl

end Parse

end Toml
end TaintGraph
