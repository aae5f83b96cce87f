/-
# The iterations of a walk

The loop of `Walk.run` counts nothing. It enters an ID again after leaving it, its stack grows
and shrinks, and on a graph with cycles and no bound on the hops there is no number at hand that
falls. It is still a finite number of steps, namely as many as it takes until nothing is pending
or enough is found (`Walk.exists_iterate_eq_run`), by the order in which a walk descends
(`TaintGraph.Walk.Order`).

Between any two steps the stack is in order: the set kept beside it holds its IDs
(`Walk.OnTrack`), what is pending at an ID are callees of it, and the IDs follow the calls from
the start (`Walk.Threaded`). So the current chain is a simple live one at every moment. All of
this is said of the loop that keeps its stacks apart (`CallTable.loop`), in which a list of
callees for each ID of the chain is no matter of course; it runs in step with the walk
(`CallTable.loop_eq`).

Key definitions: `Walk.Threaded`, `CallTable.walk`, `CallTable.loop`.
Key theorems: `Walk.Threaded.step`, `Walk.exists_iterate_eq_run`, `CallTable.loop_eq`,
`CallTable.enumeration_stays_wellFormed`.
-/
import TaintGraph.Proofs.Table.LiveChain
import TaintGraph.Proofs.Walk.Stacks

namespace TaintGraph

namespace Walk

variable {next : String → List String} {isSink : String → Bool} {maxDepth : ℕ} {w : Walk maxDepth}
  {root : String}

/-! ### One step -/

/-- What is pending at an ID are callees of it, and the IDs of the stack follow the calls from
`root`, which stands at the bottom. -/
structure Threaded (next : String → List String) (root : String) (w : Walk maxDepth) : Prop where
  pending : ∀ f ∈ w.frames, ∀ c ∈ f.pending, c ∈ next f.id
  joined : (w.frames.map Frame.id).IsChain fun b a => b ∈ next a
  bottom : ∀ id ∈ (w.frames.map Frame.id).getLast?, id = root

theorem pending_enter {id : String} {h : w.height ≤ maxDepth}
    (hw : ∀ f ∈ w.frames, ∀ c ∈ f.pending, c ∈ next f.id) :
    ∀ f ∈ (w.enter next isSink id h).frames, ∀ c ∈ f.pending, c ∈ next f.id := by
  intro f hf c hc
  rcases List.mem_cons.1 hf with rfl | hf
  · simp only at hc ⊢
    split_ifs at hc
    · cases hc
    · exact hc
    · cases hc
  · exact hw f hf c hc

/-- Taking a callee off the top of the stack leaves callees pending. -/
theorem pending_top {id c : String} {rest : List String} {below : List Frame}
    (h : ∀ f ∈ (⟨id, c :: rest⟩ : Frame) :: below, ∀ x ∈ f.pending, x ∈ next f.id) :
    c ∈ next id ∧ ∀ f ∈ (⟨id, rest⟩ : Frame) :: below, ∀ x ∈ f.pending, x ∈ next f.id := by
  obtain ⟨htop, hbelow⟩ := List.forall_mem_cons.1 h
  refine ⟨htop c List.mem_cons_self, List.forall_mem_cons.2 ⟨fun x hx => ?_, hbelow⟩⟩
  exact htop x (List.mem_cons_of_mem _ hx)

theorem Threaded.start (id : String) :
    Threaded next id (start next isSink id : Walk maxDepth) where
  pending := pending_enter fun _ hf => absurd hf List.not_mem_nil
  joined := List.isChain_singleton id
  bottom := fun _ hx => (Option.some.inj hx).symm

theorem Threaded.step (h : w.Threaded next root) (hw : w.frames ≠ []) :
    (w.step next isSink).Threaded next root := by
  have hpending := h.pending
  have hjoined := h.joined
  have hbottom := h.bottom
  rcases step_cases next isSink hw with
    ⟨id, below, hf, hs⟩ | ⟨id, c, rest, below, hf, hc, hs⟩ | ⟨id, c, rest, below, hf, hroom, hc, hs⟩
  · rw [hf, List.forall_mem_cons] at hpending
    rw [hf, List.map_cons] at hjoined hbottom
    rw [hs]
    refine ⟨hpending.2, hjoined.tail, fun x hx => hbottom x ?_⟩
    -- Unless it was the last frame, the one that is left has others below it.
    cases below with
    | nil => cases hx
    | cons f below => exact hx
  · rw [hf] at hpending hjoined hbottom
    rw [hs]
    exact ⟨(pending_top hpending).2, hjoined, hbottom⟩
  · rw [hf] at hpending hjoined hbottom
    obtain ⟨hc, hrest⟩ := pending_top hpending
    rw [hs]
    exact ⟨pending_enter hrest, List.isChain_cons_cons.2 ⟨hc, hjoined⟩, hbottom⟩

/-! ### Any number of steps -/

/-- What every step of an unfinished walk keeps, any number of steps keeps. -/
theorem iterate_induction {P : Walk maxDepth → Prop} (hw : P w)
    (hstep : ∀ w, P w → w.frames ≠ [] → P (w.step next isSink)) (n : ℕ) :
    P ((step next isSink)^[n] w) := by
  induction n with
  | zero => exact hw
  | succ n ih =>
    rw [Function.iterate_succ_apply']
    by_cases hnil : ((step next isSink)^[n] w).frames = []
    · rwa [step_of_frames_nil hnil]
    · exact hstep _ ih hnil

/-- **A walk ends.** Its run is a number of steps, before each of which something is pending and
too little is found, and after which this is not so. -/
theorem exists_iterate_eq_run (next : String → List String) (isSink : String → Bool)
    (maxPaths : ℕ) (w : Walk maxDepth) :
    ∃ n, w.run next isSink maxPaths = (step next isSink)^[n] w ∧
      (∀ k < n, ((step next isSink)^[k] w).found.size < maxPaths ∧
        ((step next isSink)^[k] w).frames ≠ []) ∧
      (((step next isSink)^[n] w).found.size < maxPaths →
        ((step next isSink)^[n] w).frames = []) := by
  fun_induction Walk.run next isSink maxPaths w with
  | case1 w hlt hnil => exact ⟨0, rfl, fun k hk => absurd hk (Nat.not_lt_zero k), fun _ => hnil⟩
  | case2 w hlt hne ih =>
    obtain ⟨n, hrun, hbefore, hstop⟩ := ih
    refine ⟨n + 1, hrun, fun k hk => ?_, hstop⟩
    cases k with
    | zero => exact ⟨hlt, hne⟩
    | succ k => exact hbefore k (Nat.lt_of_succ_lt_succ hk)
  | case3 w hge => exact ⟨0, rfl, fun k hk => absurd hk (Nat.not_lt_zero k), fun h => absurd h hge⟩

theorem path_eq_nil_iff : w.path = [] ↔ w.frames = [] := by
  simp [path]

theorem pending_eq_nil_iff : w.pending = [] ↔ w.frames = [] := by
  simp [Walk.pending]

end Walk

namespace CallTable

variable {t : CallTable} {source : String}

/-- A chain of successors from a known ID is live. -/
theorem liveChain_of_isChain {chain : List String} {last : String}
    (hsource : t.contains source = true) (hhead : chain.head? = some source)
    (hlast : chain.getLast? = some last) (hchain : chain.IsChain fun a b => b ∈ t.successors a) :
    t.LiveChain source last chain := by
  refine ⟨hhead, hlast, ?_, hchain.imp fun a b hab => (mem_successors.1 hab).1⟩
  induction chain generalizing source with
  | nil => exact fun id hid => absurd hid List.not_mem_nil
  | cons id chain ih =>
    obtain rfl : id = source := Option.some.inj hhead
    refine List.forall_mem_cons.2 ⟨hsource, ?_⟩
    cases chain with
    | nil => exact fun id hid => absurd hid List.not_mem_nil
    | cons b chain =>
      obtain ⟨hb, hrest⟩ := List.isChain_cons_cons.1 hchain
      exact ih (contains_of_mem_successors hb) rfl hlast hrest

/-- The walk over a table from an ID, after `n` steps. -/
def walk (t : CallTable) (maxDepth : ℕ) (source : String) (n : ℕ) : Walk maxDepth :=
  (Walk.step t.successors t.isSink)^[n] (Walk.start t.successors t.isSink source)

/-- The loop over a table from an ID, with its stacks apart, after `n` iterations. -/
def loop (t : CallTable) (maxDepth : ℕ) (source : String) (n : ℕ) : Stacks :=
  (Stacks.step t.successors t.isSink maxDepth)^[n]
    (Stacks.enter t.successors t.isSink maxDepth source {})

theorem loop_eq (t : CallTable) (maxDepth : ℕ) (source : String) (n : ℕ) :
    t.loop maxDepth source n = (t.walk maxDepth source n).apart := by
  have hstart : (Walk.start t.successors t.isSink source : Walk maxDepth).apart =
      Stacks.enter t.successors t.isSink maxDepth source {} :=
    Walk.apart_enter source _
  rw [walk, Walk.apart_iterate, hstart, loop]

theorem onTrack_walk (t : CallTable) (maxDepth : ℕ) (source : String) (n : ℕ) :
    (t.walk maxDepth source n).OnTrack :=
  Walk.iterate_induction (Walk.OnTrack.start source) (fun _ h => h.step) n

theorem threaded_walk (t : CallTable) (maxDepth : ℕ) (source : String) (n : ℕ) :
    (t.walk maxDepth source n).Threaded t.successors source :=
  Walk.iterate_induction (Walk.Threaded.start source) (fun _ h => h.step) n

theorem liveChain_walk (hsource : t.contains source = true) {maxDepth n : ℕ}
    (hne : (t.walk maxDepth source n).path ≠ []) :
    ∃ last, t.LiveChain source last (t.walk maxDepth source n).path := by
  have hthread := t.threaded_walk maxDepth source n
  obtain ⟨first, hfirst⟩ := Option.isSome_iff_exists.1 (List.isSome_head?.2 hne)
  obtain ⟨last, hlast⟩ := Option.isSome_iff_exists.1 (List.getLast?_isSome.2 hne)
  obtain rfl : first = source := by
    refine hthread.bottom first ?_
    rwa [Walk.path, List.head?_reverse] at hfirst
  exact ⟨last, liveChain_of_isChain hsource hfirst hlast (List.isChain_reverse.2 hthread.joined)⟩

/-- **An enumeration stays well-formed and ends.** From a known ID, whatever the bounds, the loop
goes through the states of the walk. After every number of iterations there is a list of pending
callees for each ID of the current chain, the set kept beside the chain holds exactly its IDs,
none of them occurs twice, the chain has at most `maxDepth` hops, and it is a live chain from the
start unless it is empty. After some number of iterations the enumeration stops: before each of
them something was pending and too little was found, and unless enough is found by then, nothing
is left of the chain and of what was pending. -/
theorem enumeration_stays_wellFormed (t : CallTable) {source : String}
    (hsource : t.contains source = true) (maxDepth maxPaths : ℕ) :
    (∀ n, t.loop maxDepth source n = (t.walk maxDepth source n).apart ∧
      (t.loop maxDepth source n).path.length = (t.loop maxDepth source n).pending.length ∧
      (∀ id, id ∈ (t.loop maxDepth source n).onPath ↔ id ∈ (t.loop maxDepth source n).path) ∧
      (t.loop maxDepth source n).path.Nodup ∧
      (t.loop maxDepth source n).path.length ≤ maxDepth + 1 ∧
      ((t.loop maxDepth source n).path ≠ [] →
        ∃ last, t.LiveChain source last (t.loop maxDepth source n).path)) ∧
    ∃ n, (∀ k < n, (t.loop maxDepth source k).found.size < maxPaths ∧
        (t.loop maxDepth source k).pending ≠ []) ∧
      ((t.loop maxDepth source n).found.size < maxPaths →
        (t.loop maxDepth source n).path = [] ∧ (t.loop maxDepth source n).pending = []) ∧
      t.chainsToSinks maxDepth maxPaths source = (t.loop maxDepth source n).found.toList := by
  simp only [loop_eq, true_and]
  refine ⟨fun n => ?_, ?_⟩
  · have htrack := t.onTrack_walk maxDepth source n
    refine ⟨?_, fun id => ?_, ?_, ?_, liveChain_walk hsource⟩
    · simp [Walk.apart, Walk.path, Walk.pending]
    · simp [Walk.apart, htrack.onPath_iff, Walk.path]
    · exact List.nodup_reverse.2 htrack.nodup
    · exact (Walk.length_path _).trans_le (t.walk maxDepth source n).height_le
  · obtain ⟨n, hrun, hbefore, hstop⟩ := Walk.exists_iterate_eq_run t.successors t.isSink maxPaths
      (Walk.start t.successors t.isSink source : Walk maxDepth)
    refine ⟨n, fun k hk => ?_, fun hfew => ?_, ?_⟩
    · exact ⟨(hbefore k hk).1, fun hnil => (hbefore k hk).2 (Walk.pending_eq_nil_iff.1 hnil)⟩
    · exact ⟨Walk.path_eq_nil_iff.2 (hstop hfew), Walk.pending_eq_nil_iff.2 (hstop hfew)⟩
    · rw [chainsToSinks, if_pos hsource, Walk.chains, hrun]
      rfl

/-- Three IDs on a circle, with a call back on it, and a sink behind the last. -/
def ring : CallTable :=
  [("a", "b"), ("b", "a"), ("b", "c"), ("c", "a"), ("c", "exec")].foldl
    (fun t p => t.record { caller := p.1, callee := p.2 })
    ((({} : CallTable).insert { id := "a", name := "a" } |>.insert { id := "b", name := "b" }
      |>.insert { id := "c", name := "c" }).insert { id := "exec", name := "exec", role := .sink })

/-- With as many hops allowed as fit in 64 bits the enumeration goes once around the circle and
ends with an empty chain. -/
theorem enumeration_stays_wellFormed_ring :
    ring.contains "a" = true ∧
    (ring.loop 18446744073709551615 "a" 4).path = ["a", "b", "c"] ∧
    (ring.loop 18446744073709551615 "a" 4).pending = [[], [], ["exec"]] ∧
    (∃ last, ring.LiveChain "a" last ["a", "b", "c"]) ∧
    ∃ n, (ring.loop 18446744073709551615 "a" n).found.toList = [["a", "b", "c", "exec"]] ∧
      (ring.loop 18446744073709551615 "a" n).path = [] := by
  have hknown : ring.contains "a" = true := by decide +kernel
  have hpath : (ring.loop 18446744073709551615 "a" 4).path = ["a", "b", "c"] := by decide +kernel
  have hpending : (ring.loop 18446744073709551615 "a" 4).pending = [[], [], ["exec"]] := by
    decide +kernel
  obtain ⟨hmoments, n, -, hstop, hchains⟩ :=
    enumeration_stays_wellFormed ring hknown 18446744073709551615 10
  obtain ⟨-, -, -, -, -, hlive⟩ := hmoments 4
  rw [hpath] at hlive
  have hfound : (ring.loop 18446744073709551615 "a" n).found.toList = [["a", "b", "c", "exec"]] := by
    rw [← hchains, chainsToSinks, if_pos hknown, Walk.chains_eq_take]
    decide +kernel
  have hfew : (ring.loop 18446744073709551615 "a" n).found.size < 10 := by
    rw [← Array.length_toList, hfound]
    decide
  exact ⟨hknown, hpath, hpending, hlive (List.cons_ne_nil _ _), n, hfound, (hstop hfew).1⟩

end CallTable
end TaintGraph
