/-
# Chains with the calls they take

A chain of IDs does not say which calls it takes: between two IDs there may be several, and
then a walk finds the same chain several times. A *trail* is the sequence of the calls
themselves. This module enumerates trails the way `Walk.completions` enumerates chains, for
any kind of exits out of an ID: the chains are those of the trails, in the same order
(`Walk.completions_eq_map_trails`), and unlike chains no trail is listed twice. Trails are
listed in the order of the exits, compared at the first exit in which they differ
(`Walk.pairwise_lex_trails`).

Key definitions: `Walk.trails`, `Walk.Along`.
Key theorems: `Walk.completions_eq_map_trails`, `Walk.mem_trails`,
`Walk.pairwise_lex_trails`.
-/
import TaintGraph.Proofs.Walk.Enumeration

namespace TaintGraph
namespace Walk

variable {ε : Type} (exits : String → List ε) (callee : ε → String) (isSink : String → Bool)

/-- The trails to a sink that continue a chain by at most `hops` exits. The chain ends at
`id`; `below` is what stands before, from the end. -/
def trails : (hops : ℕ) → (id : String) → (below : List String) → List (List ε)
  | 0, _, _ => []
  | hops + 1, id, below =>
    (exits id).flatMap fun e =>
      if callee e ∈ id :: below then []
      else if isSink (callee e) then [[e]]
      else (trails hops (callee e) (id :: below)).map (e :: ·)

/-- Each exit of the trail leaves where the one before it arrives, the first at `id`. -/
structure Along (id : String) (trail : List ε) : Prop where
  first : ∀ e ∈ trail.head?, e ∈ exits id
  joined : trail.IsChain fun e e' => e' ∈ exits (callee e)

/-- The trails that begin with the exit `e`. -/
def trailsBy (hops : ℕ) (chain : List String) (e : ε) : List (List ε) :=
  if callee e ∈ chain then []
  else if isSink (callee e) then [[e]]
  else (trails exits callee isSink hops (callee e) chain).map (e :: ·)

theorem trails_succ (hops : ℕ) (id : String) (below : List String) :
    trails exits callee isSink (hops + 1) id below =
      (exits id).flatMap (trailsBy exits callee isSink hops (id :: below)) := rfl

variable {exits callee isSink} {hops : ℕ} {id : String} {below : List String} {e : ε}
  {trail : List ε}

/-- The chains to a sink are those of the trails, one for each trail. -/
theorem completions_eq_map_trails (exits : String → List ε) (callee : ε → String)
    (isSink : String → Bool) (hops : ℕ) (id : String) (below : List String) :
    completions (fun id => (exits id).map callee) isSink hops id below =
      (trails exits callee isSink hops id below).map fun trail =>
        (id :: below).reverse ++ trail.map callee := by
  induction hops generalizing id below with
  | zero => rfl
  | succ hops ih =>
    rw [completions_succ, trails_succ, List.flatMap_map, List.map_flatMap]
    congr 1
    funext e
    unfold leadsTo trailsBy
    split_ifs
    · rfl
    · simp
    · rw [ih]
      simp

/-! ### Which trails are listed -/

theorem mem_trailsBy {chain : List String} :
    trail ∈ trailsBy exits callee isSink hops chain e ↔
      callee e ∉ chain ∧ ∃ rest, trail = e :: rest ∧
        ((isSink (callee e) = true ∧ rest = []) ∨
          (isSink (callee e) = false ∧
            rest ∈ trails exits callee isSink hops (callee e) chain)) := by
  unfold trailsBy
  split_ifs with hseen hsink
  · simp [hseen]
  · simp [hseen, hsink]
  · rw [Bool.not_eq_true] at hsink
    simp [hseen, hsink, and_comm, eq_comm]

theorem along_nil : Along exits callee id [] :=
  ⟨by simp, List.IsChain.nil⟩

theorem along_cons :
    Along exits callee id (e :: trail) ↔ e ∈ exits id ∧ Along exits callee (callee e) trail := by
  constructor
  · intro h
    obtain ⟨hjoined, htail⟩ := List.isChain_cons.1 h.joined
    exact ⟨h.first e rfl, hjoined, htail⟩
  · intro h
    obtain ⟨he, htrail⟩ := h
    exact ⟨by simpa using he, List.isChain_cons.2 ⟨htrail.first, htrail.joined⟩⟩

/-- The chain of a trail follows its exits. -/
theorem Along.isChain (h : Along exits callee id trail) :
    (id :: trail.map callee).IsChain fun a b => b ∈ (exits a).map callee := by
  induction trail generalizing id with
  | nil => exact List.isChain_singleton id
  | cons e trail ih =>
    obtain ⟨he, htrail⟩ := along_cons.1 h
    rw [List.map_cons, List.isChain_cons_cons]
    exact ⟨List.mem_map_of_mem he, ih htrail⟩

/-- A trail is listed when it leads along the exits and its chain completes the one before
it within the hops allowed. -/
theorem mem_trails :
    trail ∈ trails exits callee isSink hops id below ↔
      trail.length ≤ hops ∧ Along exits callee id trail ∧
        SinkChain (fun id => (exits id).map callee) isSink (id :: below) id (trail.map callee) := by
  induction hops generalizing id below trail with
  | zero =>
    simp only [trails, List.not_mem_nil, false_iff]
    intro h
    obtain ⟨hlen, -, hchain⟩ := h
    obtain rfl := List.length_eq_zero_iff.1 (Nat.le_zero.1 hlen)
    exact SinkChain.not_nil hchain
  | succ hops ih =>
    rw [trails_succ, List.mem_flatMap]
    simp only [mem_trailsBy]
    constructor
    · intro h
      obtain ⟨e, he, hnew, rest, rfl, hrest⟩ := h
      have hnext : callee e ∈ (exits id).map callee := List.mem_map_of_mem he
      rw [List.map_cons, SinkChain.cons_iff, along_cons]
      rcases hrest with ⟨hsink, rfl⟩ | ⟨hpass, hrest⟩
      · refine ⟨by simp, ⟨he, along_nil⟩, hnext, hnew, ?_⟩
        exact Or.inl ⟨hsink, rfl⟩
      · obtain ⟨hlen, halong, hchain⟩ := ih.1 hrest
        refine ⟨?_, ⟨he, halong⟩, hnext, hnew, Or.inr ⟨hpass, hchain⟩⟩
        rw [List.length_cons]
        omega
    · intro h
      obtain ⟨hlen, halong, hchain⟩ := h
      cases trail with
      | nil => exact absurd hchain SinkChain.not_nil
      | cons e rest =>
        rw [along_cons] at halong
        rw [List.map_cons, SinkChain.cons_iff] at hchain
        rw [List.length_cons] at hlen
        obtain ⟨-, hnew, hrest⟩ := hchain
        refine ⟨e, halong.1, hnew, rest, rfl, ?_⟩
        rcases hrest with ⟨hsink, hnil⟩ | ⟨hpass, hchain⟩
        · exact Or.inl ⟨hsink, List.map_eq_nil_iff.1 hnil⟩
        · exact Or.inr ⟨hpass, ih.2 ⟨by omega, halong.2, hchain⟩⟩

/-! ### The order in which they are listed -/

/-- Where the exits of every ID stand in an order, the trails stand in its lexicographic
order. -/
theorem pairwise_lex_trails {earlier : ε → ε → Prop} (h : ∀ id, (exits id).Pairwise earlier) :
    (trails exits callee isSink hops id below).Pairwise (List.Lex earlier) := by
  induction hops generalizing id below with
  | zero => exact List.Pairwise.nil
  | succ hops ih =>
    rw [trails_succ, List.pairwise_flatMap]
    constructor
    · intro e _
      unfold trailsBy
      split_ifs
      · exact List.Pairwise.nil
      · exact List.pairwise_singleton _ _
      · exact List.pairwise_map.2 (ih.imp fun hlex => hlex.cons)
    · -- Trails of two exits differ in the first of their calls.
      refine (h id).imp fun {e f} hef x hx y hy => ?_
      obtain ⟨-, rest, rfl, -⟩ := mem_trailsBy.1 hx
      obtain ⟨-, rest', rfl, -⟩ := mem_trailsBy.1 hy
      exact List.Lex.rel hef

theorem nodup_trails {earlier : ε → ε → Prop} (hirrefl : ∀ e, ¬ earlier e e)
    (h : ∀ id, (exits id).Pairwise earlier) :
    (trails exits callee isSink hops id below).Nodup := by
  refine (pairwise_lex_trails h).imp fun {x y} hlex heq => ?_
  rw [heq] at hlex
  exact List.lex_irrefl hirrefl y hlex

end Walk
end TaintGraph
