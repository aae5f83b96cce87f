/-
# The order in which a walk descends

A depth-first walk keeps a stack of the callees still to be tried at each ID of
its chain. Read from the bottom, the lengths of these lists fall in the
lexicographic order with every step: trying a callee shortens one list, whatever
is stacked on top of it, and going back removes the last one. On stacks of
bounded height that order is well founded (`Stack.wellFounded`), which is why
the walk ends.

Key definitions: `Stack.Below`.
Key theorems: `Stack.wellFounded`, `Stack.below_push`, `Stack.below_pop`.
-/

namespace TaintGraph

/-- The lengths of the lists on a stack of at most `height` lists, from the
bottom. -/
structure Stack (height : Nat) where
  /-- The lengths, from the bottom. -/
  lengths : List Nat

namespace Stack

/-- Before in the lexicographic order, and not too high. -/
def Below {height : Nat} (a b : Stack height) : Prop :=
  a.lengths.length ≤ height ∧ List.Lex (· < ·) a.lengths b.lengths

private theorem acc_nil (height : Nat) : Acc Below (⟨[]⟩ : Stack height) :=
  ⟨_, fun _ h => absurd h.2 List.not_lex_nil⟩

private theorem acc_cons {height : Nat} (ih : ∀ l : List Nat, Acc Below (⟨l⟩ : Stack height)) :
    ∀ (n : Nat) (l : List Nat), Acc Below (⟨n :: l⟩ : Stack (height + 1)) := by
  intro n
  induction n using Nat.strongRecOn with
  | ind n outer =>
    intro l
    -- The tail descends in the order of the stacks one lower.
    generalize hs : (⟨l⟩ : Stack height) = s
    have hacc : Acc Below s := hs ▸ ih l
    induction hacc generalizing l with
    | intro s _ inner =>
      subst hs
      refine ⟨_, fun a hab => ?_⟩
      obtain ⟨lengths⟩ := a
      obtain ⟨hlen, hlex⟩ := hab
      cases hlex with
      | nil => exact acc_nil _
      | rel hlt => exact outer _ hlt _
      | cons htail =>
        exact inner ⟨_⟩ ⟨Nat.le_of_succ_le_succ hlen, htail⟩ _ rfl

private theorem acc_all : ∀ (height : Nat) (l : List Nat), Acc Below (⟨l⟩ : Stack height)
  | 0, l => by
    refine ⟨_, fun a hab => ?_⟩
    obtain ⟨lengths⟩ := a
    have hnil : lengths = [] := List.length_eq_zero_iff.1 (Nat.le_zero.1 hab.1)
    exact hnil ▸ acc_nil 0
  | _ + 1, [] => acc_nil _
  | height + 1, n :: l => acc_cons (acc_all height) n l

/-- **Walks end.** There is no infinite descent among stacks of bounded
height. -/
theorem wellFounded (height : Nat) : WellFounded (@Below height) :=
  ⟨fun s => acc_all height s.lengths⟩

instance (height : Nat) : WellFoundedRelation (Stack height) :=
  ⟨Below, wellFounded height⟩

private theorem lex_append_left (base : List Nat) {a b : List Nat}
    (h : List.Lex (· < ·) a b) : List.Lex (· < ·) (base ++ a) (base ++ b) := by
  induction base with
  | nil => exact h
  | cons n base ih => exact .cons ih

/-- Shortening the top list goes down, whatever is put above it. -/
theorem below_push {height n : Nat} (base above : List Nat)
    (h : (base ++ n :: above).length ≤ height) :
    Below (⟨base ++ n :: above⟩ : Stack height) ⟨base ++ [n + 1]⟩ :=
  ⟨h, lex_append_left base (.rel (Nat.lt_succ_self n))⟩

/-- Removing the top list goes down. -/
theorem below_pop {height n : Nat} (base : List Nat) (h : base.length ≤ height) :
    Below (⟨base⟩ : Stack height) ⟨base ++ [n]⟩ := by
  refine ⟨h, ?_⟩
  have hlex := lex_append_left base (@List.Lex.nil Nat (· < ·) n [])
  rwa [List.append_nil] at hlex

end Stack

end TaintGraph
