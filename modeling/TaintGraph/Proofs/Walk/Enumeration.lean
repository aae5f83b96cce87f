/-
# A walk enumerates chains depth first

The machine of `TaintGraph.Walk` keeps a stack of its own. What it finds is what
plain recursion gives: `Walk.completions` extends a chain by each callee in turn,
ends at the first sink, and goes no further than the hops allow. A frame *owes*
what its pending callees lead to. A step changes nothing in what has been found
followed by what is still owed (`Walk.found_step`), so a walk finds the first
`maxPaths` completions of its start (`Walk.chains_eq_take`).

Completions follow the callees: more of them give more completions
(`Walk.completions_sublist`), and another order gives another order
(`Walk.completions_perm`). Fewer hops leave the shorter completions, in the order
in which they were (`Walk.completions_filter`).

A completion is told from other lists without recursion by `SinkChain`: its IDs
follow the calls, none is met twice, and the first sink on it is its end
(`Walk.mem_completions`).

Key definitions: `Walk.completions`, `Walk.owed`, `Walk.OnTrack`, `SinkChain`.
Key theorems: `Walk.step_cases`, `Walk.found_step`, `Walk.chains_eq_take`,
`Walk.completions_sublist`, `Walk.completions_perm`, `Walk.mem_completions`,
`Walk.completions_filter`.
-/
import Mathlib.Data.List.Chain
import Mathlib.Data.List.Flatten
import Mathlib.Data.List.Nodup
import Mathlib.Data.List.Perm.Basic
import TaintGraph.Walk

namespace TaintGraph

open Std (TreeSet)

namespace Walk

variable (next : String → List String) (isSink : String → Bool)

/-- The chains to a sink that begin with a given chain and have at most `hops`
hops more. The given chain ends at `id`; `below` is what stands before, from the
end. -/
def completions : (hops : ℕ) → (id : String) → (below : List String) → List (List String)
  | 0, _, _ => []
  | hops + 1, id, below =>
    (next id).flatMap fun c =>
      if c ∈ id :: below then []
      else if isSink c then [(c :: id :: below).reverse]
      else completions hops c (id :: below)

/-- What trying the callee `c` at the end of a chain leads to. -/
def leadsTo (hops : ℕ) (chain : List String) (c : String) : List (List String) :=
  if c ∈ chain then []
  else if isSink c then [(c :: chain).reverse]
  else completions next isSink hops c chain

/-- What the pending callees of a stack lead to, the top frame first. -/
def owed (maxDepth : ℕ) : List Frame → List (List String)
  | [] => []
  | f :: below =>
    f.pending.flatMap (leadsTo next isSink (maxDepth - (below.length + 1))
      (f.id :: below.map Frame.id)) ++ owed maxDepth below

theorem completions_succ (hops : ℕ) (id : String) (below : List String) :
    completions next isSink (hops + 1) id below =
      (next id).flatMap (leadsTo next isSink hops (id :: below)) := rfl

variable {next isSink}
variable {maxDepth : ℕ} {w : Walk maxDepth}

/-! ### One step -/

/-- **The three steps of an unfinished walk**: go back, pass over a callee that the
chain holds, or extend the chain by one that it does not hold. -/
theorem step_cases (next : String → List String) (isSink : String → Bool) (hw : w.frames ≠ []) :
    (∃ id below, ∃ h : w.frames = ⟨id, []⟩ :: below,
      w.step next isSink = w.leave id below h) ∨
    (∃ id c rest below, ∃ h : w.frames = ⟨id, c :: rest⟩ :: below,
      c ∈ w.onPath ∧ w.step next isSink = w.take id rest below h) ∨
    (∃ id c rest below, ∃ h : w.frames = ⟨id, c :: rest⟩ :: below,
      ∃ hroom : (w.take id rest below h).height ≤ maxDepth,
      c ∉ w.onPath ∧ w.step next isSink = (w.take id rest below h).enter next isSink c hroom) := by
  unfold step
  split
  next h => exact absurd h hw
  next id below h => exact Or.inl ⟨id, below, h, rfl⟩
  next id c rest below h =>
    split
    next hc => exact Or.inr (Or.inl ⟨id, c, rest, below, h, hc, rfl⟩)
    next hc =>
      have hroom : w.height ≤ maxDepth := w.room _ _ h (List.cons_ne_nil _ _)
      exact Or.inr (Or.inr ⟨id, c, rest, below, h, hroom, hc, rfl⟩)

/-- The IDs of the stack are distinct, and the set kept beside it is theirs. -/
structure OnTrack (w : Walk maxDepth) : Prop where
  nodup : (w.frames.map Frame.id).Nodup
  onPath_iff : ∀ id, id ∈ w.onPath ↔ id ∈ w.frames.map Frame.id

theorem OnTrack.step (h : w.OnTrack) (hw : w.frames ≠ []) : (w.step next isSink).OnTrack := by
  have hnodup := h.nodup
  have hmem := h.onPath_iff
  rcases step_cases next isSink hw with
    ⟨id, below, hf, hs⟩ | ⟨id, c, rest, below, hf, hc, hs⟩ | ⟨id, c, rest, below, hf, hroom, hc, hs⟩
  · rw [hf, List.map_cons, List.nodup_cons] at hnodup
    rw [hs]
    refine ⟨hnodup.2, fun x => ?_⟩
    simp only [leave, TreeSet.mem_erase, ne_eq, Std.LawfulEqCmp.compare_eq_iff_eq, hmem, hf,
      List.map_cons, List.mem_cons]
    constructor
    · rintro ⟨hne, rfl | hx⟩
      · exact absurd rfl hne
      · exact hx
    · intro hx
      exact ⟨fun he => hnodup.1 (he ▸ hx), Or.inr hx⟩
  · rw [hf] at hnodup hmem
    rw [hs]
    exact ⟨hnodup, hmem⟩
  · rw [hf] at hnodup hmem
    have hnew : c ∉ (⟨id, rest⟩ :: below : List Frame).map Frame.id := fun hx => hc ((hmem c).2 hx)
    rw [hs]
    refine ⟨List.nodup_cons.2 ⟨hnew, hnodup⟩, fun x => ?_⟩
    have hx : x ∈ w.onPath ↔ x ∈ (⟨id, rest⟩ :: below : List Frame).map Frame.id := hmem x
    simp only [enter, take, TreeSet.mem_insert, Std.LawfulEqCmp.compare_eq_iff_eq, hx,
      List.map_cons, List.mem_cons, eq_comm (a := c)]

theorem size_found_enter {id : String} (h : w.height ≤ maxDepth) :
    (w.enter next isSink id h).found.size ≤ w.found.size + 1 := by
  unfold enter
  by_cases hsink : 0 < w.height ∧ isSink id = true
  · simp [hsink]
  · simp [hsink]

theorem size_found_step (next : String → List String) (isSink : String → Bool)
    (hw : w.frames ≠ []) :
    (w.step next isSink).found.size ≤ w.found.size + 1 := by
  rcases step_cases next isSink hw with
    ⟨id, below, hf, hs⟩ | ⟨id, c, rest, below, hf, hc, hs⟩ | ⟨id, c, rest, below, hf, hroom, hc, hs⟩
  · rw [hs]
    simp [leave]
  · rw [hs]
    simp [take]
  · rw [hs]
    exact size_found_enter hroom

/-- Entering an ID pays what it leads to: a sink is found at once, all else is owed
by the new frame. -/
theorem found_enter {id : String} (h : w.height ≤ maxDepth) (hpos : 0 < w.height)
    (hid : id ∉ w.frames.map Frame.id) :
    (w.enter next isSink id h).found.toList ++
        owed next isSink maxDepth (w.enter next isSink id h).frames =
      w.found.toList ++ leadsTo next isSink (maxDepth - w.frames.length)
        (w.frames.map Frame.id) id ++ owed next isSink maxDepth w.frames := by
  have hheight := w.height_eq
  have hpath : w.path ++ [id] = (id :: w.frames.map Frame.id).reverse := by
    rw [path, List.reverse_cons]
  by_cases hsink : isSink id = true
  · simp [enter, owed, leadsTo, hid, hsink, hpos, hpath]
  · by_cases hroom : w.height < maxDepth
    · have hhops : maxDepth - w.frames.length = (maxDepth - (w.frames.length + 1)) + 1 := by omega
      simp [enter, owed, leadsTo, hid, hsink, hroom, hhops, completions_succ]
    · have hhops : maxDepth - w.frames.length = 0 := by omega
      simp [enter, owed, leadsTo, hid, hsink, hroom, hhops, completions]

/-- **A step keeps what is found followed by what is owed.** -/
theorem found_step (h : w.OnTrack) (hw : w.frames ≠ []) :
    (w.step next isSink).found.toList ++ owed next isSink maxDepth (w.step next isSink).frames =
      w.found.toList ++ owed next isSink maxDepth w.frames := by
  have hmem := h.onPath_iff
  rcases step_cases next isSink hw with
    ⟨id, below, hf, hs⟩ | ⟨id, c, rest, below, hf, hc, hs⟩ | ⟨id, c, rest, below, hf, hroom, hc, hs⟩
  · rw [hs, hf]
    simp [leave, owed]
  · have hc' : c ∈ id :: below.map Frame.id := by simpa [hf] using (hmem c).1 hc
    rw [hs, hf]
    simp [take, owed, leadsTo, hc']
  · have hc' : c ∉ (w.take id rest below hf).frames.map Frame.id := fun hx =>
      hc ((hmem c).2 (by rw [hf]; exact hx))
    have hpos : 0 < (w.take id rest below hf).height := by
      have := w.height_eq
      rw [hf, List.length_cons] at this
      simp only [take]
      omega
    rw [hs, found_enter hroom hpos hc', hf]
    simp [take, owed]

/-! ### Whole walks -/

/-- A walk finds what it has found and what it owes, up to its bound. -/
theorem run_found {maxPaths : ℕ} (h : w.OnTrack) (hle : w.found.size ≤ maxPaths) :
    (w.run next isSink maxPaths).found.toList =
      (w.found.toList ++ owed next isSink maxDepth w.frames).take maxPaths := by
  fun_induction Walk.run next isSink maxPaths w with
  | case1 w hlt hnil =>
    rw [hnil, owed, List.append_nil, List.take_of_length_le]
    simpa using hle
  | case2 w hlt hne ih =>
    have hstep := size_found_step next isSink hne
    rw [ih (h.step hne) (by omega), found_step h hne]
  | case3 w hge =>
    have hsize : w.found.size = maxPaths := by omega
    rw [List.take_append_of_le_length, List.take_of_length_le] <;> simp [hsize]

theorem OnTrack.start (id : String) : (start next isSink id : Walk maxDepth).OnTrack where
  nodup := by simp [Walk.start, enter, idle]
  onPath_iff := fun x => by
    simp only [Walk.start, enter, idle, TreeSet.mem_insert, Std.LawfulEqCmp.compare_eq_iff_eq,
      TreeSet.not_mem_emptyc, or_false, List.map_cons, List.map_nil, List.mem_singleton]
    exact eq_comm

/-- **A walk enumerates depth first.** It finds the completions of its start in
order, and as many of them as it may. -/
theorem chains_eq_take (next : String → List String) (isSink : String → Bool)
    (maxDepth maxPaths : ℕ) (id : String) :
    chains next isSink maxDepth maxPaths id =
      (completions next isSink maxDepth id []).take maxPaths := by
  have hfound : (start next isSink id : Walk maxDepth).found = #[] := by simp [start, enter, idle]
  have howed : owed next isSink maxDepth (start next isSink id : Walk maxDepth).frames =
      completions next isSink maxDepth id [] := by
    cases maxDepth with
    | zero => simp [start, enter, idle, owed, completions]
    | succ n => simp [start, enter, idle, owed, completions_succ]
  rw [chains, run_found (OnTrack.start id) (by simp [hfound]), hfound, howed]
  rfl

/-! ### Walks along other calls -/

section OtherCalls

variable {next' : String → List String} {isSink' : String → Bool}

/-- More callees lead to more completions, the old ones in their order among them, as long
as what was a callee stays a sink or stays none. -/
theorem completions_sublist (hnext : ∀ id, (next id).Sublist (next' id))
    (hsink : ∀ id, ∀ c ∈ next id, isSink c = isSink' c) (hops : ℕ) (id : String)
    (below : List String) :
    (completions next isSink hops id below).Sublist (completions next' isSink' hops id below) := by
  induction hops generalizing id below with
  | zero => exact .refl _
  | succ hops ih =>
    rw [completions_succ, completions_succ]
    refine (List.Sublist.flatMap_right _ fun c hc => ?_).trans ((hnext id).flatMap _)
    unfold leadsTo
    rw [← hsink id c hc]
    split_ifs
    · exact .refl _
    · exact .refl _
    · exact ih c (id :: below)

/-- Callees in another order lead to the same completions in another order. -/
theorem completions_perm (hnext : ∀ id, (next id).Perm (next' id)) (hops : ℕ) (id : String)
    (below : List String) :
    (completions next isSink hops id below).Perm (completions next' isSink hops id below) := by
  induction hops generalizing id below with
  | zero => exact .refl _
  | succ hops ih =>
    rw [completions_succ, completions_succ]
    refine (hnext id).flatMap fun c _ => ?_
    unfold leadsTo
    split_ifs
    · exact .refl _
    · exact .refl _
    · exact ih c (id :: below)

end OtherCalls

end Walk

/-! ### What a completion is -/

/-- The IDs after the end `id` of a chain that complete it: they follow the calls,
none of them was seen before, and the first sink among them is the last. -/
structure SinkChain (next : String → List String) (isSink : String → Bool) (seen : List String)
    (id : String) (tail : List String) : Prop where
  joined : (id :: tail).IsChain fun a b => b ∈ next a
  fresh : ∀ x ∈ tail, x ∉ seen
  nodup : tail.Nodup
  last : ∃ front c, tail = front ++ [c] ∧ isSink c = true ∧ ∀ x ∈ front, isSink x = false

namespace SinkChain

variable {next : String → List String} {isSink : String → Bool} {seen : List String}
  {id c : String} {tail : List String}

theorem not_nil : ¬ SinkChain next isSink seen id [] := fun h => by
  obtain ⟨front, c, heq, -⟩ := h.last
  simp at heq

/-- A completion is a sink that ends it, or another ID and a completion from there. -/
theorem cons_iff :
    SinkChain next isSink seen id (c :: tail) ↔
      c ∈ next id ∧ c ∉ seen ∧
        ((isSink c = true ∧ tail = []) ∨
          (isSink c = false ∧ SinkChain next isSink (c :: seen) c tail)) := by
  constructor
  · intro h
    obtain ⟨hstep, hjoined⟩ := List.isChain_cons_cons.1 h.joined
    obtain ⟨hnew, hnodup⟩ := List.nodup_cons.1 h.nodup
    refine ⟨hstep, h.fresh c List.mem_cons_self, ?_⟩
    obtain ⟨front, d, heq, hsink, hfront⟩ := h.last
    cases front with
    | nil =>
      obtain ⟨rfl, rfl⟩ : c = d ∧ tail = [] := by simpa using heq
      exact Or.inl ⟨hsink, rfl⟩
    | cons e front =>
      obtain ⟨rfl, rfl⟩ : c = e ∧ tail = front ++ [d] := by simpa using heq
      refine Or.inr ⟨hfront c List.mem_cons_self, hjoined, fun x hx => ?_, hnodup,
        front, d, rfl, hsink, fun x hx => hfront x (List.mem_cons_of_mem _ hx)⟩
      rw [List.mem_cons, not_or]
      exact ⟨fun he => hnew (he ▸ hx), h.fresh x (List.mem_cons_of_mem _ hx)⟩
  · rintro ⟨hstep, hnew, ⟨hsink, rfl⟩ | ⟨hpass, h⟩⟩
    · refine ⟨by simpa using hstep, by simpa using hnew, List.nodup_singleton c,
        [], c, rfl, hsink, fun x hx => absurd hx List.not_mem_nil⟩
    · obtain ⟨front, d, rfl, hsink, hfront⟩ := h.last
      refine ⟨List.isChain_cons_cons.2 ⟨hstep, h.joined⟩, fun x hx => ?_,
        List.nodup_cons.2 ⟨fun hc => h.fresh c hc List.mem_cons_self, h.nodup⟩,
        c :: front, d, rfl, hsink, fun x hx => ?_⟩
      · rcases List.mem_cons.1 hx with rfl | hx
        · exact hnew
        · exact fun hs => h.fresh x hx (List.mem_cons_of_mem _ hs)
      · rcases List.mem_cons.1 hx with rfl | hx
        · exact hpass
        · exact hfront x hx

end SinkChain

/-- The completions of a chain are the chain followed by a tail that completes it. -/
theorem Walk.mem_completions {next : String → List String} {isSink : String → Bool} {hops : ℕ}
    {id : String} {below chain : List String} :
    chain ∈ completions next isSink hops id below ↔
      ∃ tail, chain = (id :: below).reverse ++ tail ∧ tail.length ≤ hops ∧
        SinkChain next isSink (id :: below) id tail := by
  induction hops generalizing id below with
  | zero =>
    simp only [completions, List.not_mem_nil, false_iff]
    rintro ⟨tail, -, hlen, h⟩
    obtain rfl := List.length_eq_zero_iff.1 (Nat.le_zero.1 hlen)
    exact SinkChain.not_nil h
  | succ hops ih =>
    rw [completions_succ, List.mem_flatMap]
    constructor
    · rintro ⟨c, hc, hchain⟩
      unfold leadsTo at hchain
      split_ifs at hchain with hseen hsink
      · exact absurd hchain List.not_mem_nil
      · refine ⟨[c], ?_, by simp, SinkChain.cons_iff.2 ⟨hc, hseen, Or.inl ⟨hsink, rfl⟩⟩⟩
        rw [List.mem_singleton.1 hchain, List.reverse_cons]
      · obtain ⟨tail, rfl, hlen, h⟩ := ih.1 hchain
        refine ⟨c :: tail, by simp, by simpa using hlen, ?_⟩
        exact SinkChain.cons_iff.2 ⟨hc, hseen, Or.inr ⟨by simpa using hsink, h⟩⟩
    · rintro ⟨tail, rfl, hlen, h⟩
      cases tail with
      | nil => exact absurd h SinkChain.not_nil
      | cons c tail =>
        obtain ⟨hc, hseen, ⟨hsink, rfl⟩ | ⟨hpass, h⟩⟩ := SinkChain.cons_iff.1 h
        · refine ⟨c, hc, ?_⟩
          rw [leadsTo, if_neg hseen, if_pos hsink, List.mem_singleton]
          simp
        · refine ⟨c, hc, ?_⟩
          rw [leadsTo, if_neg hseen, if_neg (by simp [hpass])]
          exact ih.2 ⟨tail, by simp, by simpa using hlen, h⟩

/-! ### Walks of fewer hops -/

/-- Fewer hops leave those completions that have no more of them, in their order. -/
theorem Walk.completions_filter (next : String → List String) (isSink : String → Bool)
    {hops more : ℕ} (hle : hops ≤ more) (id : String) (below : List String) :
    completions next isSink hops id below =
      (completions next isSink more id below).filter fun chain =>
        chain.length ≤ hops + (below.length + 1) := by
  induction hops generalizing more id below with
  | zero =>
    refine (List.filter_eq_nil_iff.2 fun chain hchain => ?_).symm
    obtain ⟨tail, rfl, -, htail⟩ := mem_completions.1 hchain
    have hpos : tail ≠ [] := fun hnil => SinkChain.not_nil (hnil ▸ htail)
    have hlen := List.length_pos_of_ne_nil hpos
    simp only [List.length_append, List.length_reverse, List.length_cons, decide_eq_true_eq]
    omega
  | succ hops ih =>
    cases more with
    | zero => omega
    | succ more =>
      rw [completions_succ, completions_succ, List.filter_flatMap]
      congr 1
      funext c
      unfold leadsTo
      split_ifs
      · rfl
      · have hfits : (c :: id :: below).reverse.length ≤ hops + 1 + (below.length + 1) := by
          simp only [List.length_reverse, List.length_cons]
          omega
        rw [List.filter_singleton, decide_eq_true hfits]
        rfl
      · rw [ih (Nat.le_of_succ_le_succ hle), List.length_cons]
        refine List.filter_congr fun chain _ => ?_
        rw [Nat.add_right_comm hops 1, ← Nat.add_assoc hops]

end TaintGraph
