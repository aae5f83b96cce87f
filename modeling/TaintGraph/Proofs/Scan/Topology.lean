/-
# Distances depend on topology only

Two runs may differ in what their callables say, in how often a callable is replaced, and
in the passes and questions between their steps. As long as the same IDs become known and
the same calls are recorded at the same points, no distance tells the runs apart, nor does
the memo behind it: the same questions hit and miss, and the same entries are dropped and
pushed out.

`Scan.Twins` says which runs are meant: their common steps are aligned, and between them
either run may take *idle* steps of its own. Two cores *match* when their tables have the
same wiring and their memos are equal, in contents, order and counts. An idle step keeps
a core matching with itself (`Core.Matches.of_idle`), a common step keeps two cores
matching (`Core.Matches.perform`), so the cores of twins match (`Scan.Twins.matches`).

Key definitions: `Request.SameId`, `Request.idle`, `Scan.Twins`, `Core.Matches`.
Key theorems: `Core.Matches.perform`, `Core.Matches.of_idle`, `Scan.Twins.matches`,
`Scan.distances_depend_on_topology`.
-/
import TaintGraph.Proofs.Scan.Staleness
import TaintGraph.Proofs.Table.Wiring

namespace TaintGraph

/-- The requests are the same, or they bring callables that share their ID. -/
inductive Request.SameId : Request → Request → Prop
  /-- The same request. -/
  | refl (r : Request) : SameId r r
  /-- Callables to be added. -/
  | add {c c' : Callable} (h : c.id = c'.id) : SameId (.add c) (.add c')
  /-- Callables to be added unless their ID is known. -/
  | addIfAbsent {c c' : Callable} (h : c.id = c'.id) : SameId (.addIfAbsent c) (.addIfAbsent c')

/-- The request brings a callable of a known ID, measures, or reads something other than
a distance. -/
def Request.idle (t : CallTable) : Request → Bool
  | .add c | .addIfAbsent c => t.contains c.id
  | .distance _ _ => false
  | r => !r.enters

/-- From the two scans, the two runs take the same steps, up to what their callables say
beside the ID; between these, each may take idle steps of its own. -/
inductive Scan.Twins : Scan → Scan → List Request → List Request → Prop
  /-- Nothing more happens. -/
  | nil {s s' : Scan} : Twins s s' [] []
  /-- Both take corresponding steps. -/
  | both {s s' : Scan} {r r' : Request} {rest rest' : List Request} (hr : r.SameId r')
    (h : Twins (s.perform r).2 (s'.perform r').2 rest rest') : Twins s s' (r :: rest) (r' :: rest')
  /-- The first takes an idle step. -/
  | left {s s' : Scan} {r : Request} {rest rest' : List Request} (hr : r.idle s.table = true)
    (h : Twins (s.perform r).2 s' rest rest') : Twins s s' (r :: rest) rest'
  /-- The second takes an idle step. -/
  | right {s s' : Scan} {r : Request} {rest rest' : List Request} (hr : r.idle s'.table = true)
    (h : Twins s (s'.perform r).2 rest rest') : Twins s s' rest (r :: rest')

/-! ### Matching cores -/

theorem CallTable.SameWiring.arrival {t t' : CallTable} (h : t.SameWiring t') :
    Entry.arrival t = Entry.arrival t' :=
  funext fun id => by rw [Entry.arrival, Entry.arrival, h.contains, h.incoming]

namespace Core

/-- The tables have the same wiring and the memos are equal. -/
structure Matches (k k' : Core) : Prop where
  wiring : k.table.SameWiring k'.table
  memo : k.memo = k'.memo

namespace Matches

variable {k k' k'' : Core}

theorem refl (k : Core) : k.Matches k :=
  ⟨.refl _, rfl⟩

theorem symm (h : k.Matches k') : k'.Matches k :=
  ⟨h.wiring.symm, h.memo.symm⟩

theorem trans (h : k.Matches k') (h' : k'.Matches k'') : k.Matches k'' :=
  ⟨h.wiring.trans h'.wiring, h.memo.trans h'.memo⟩

/-- A callable arrives by its ID: what is dropped with it is the same. -/
theorem add (h : k.Matches k') {c c' : Callable} (hid : c.id = c'.id) :
    (Edit.apply k (.enter (.add c))).Matches (Edit.apply k' (.enter (.add c'))) where
  wiring := h.wiring.insert hid
  memo := by
    show k.memo.dropAll (Entry.arrival k.table c.id) =
      k'.memo.dropAll (Entry.arrival k'.table c'.id)
    rw [h.memo, h.wiring.arrival, hid]

theorem offer (h : k.Matches k') {c c' : Callable} (hid : c.id = c'.id) :
    (Edit.apply k (.enter (.offer c))).Matches (Edit.apply k' (.enter (.offer c'))) where
  wiring := by
    show (if k.table.contains c.id then k.table else k.table.insert c).SameWiring
      (if k'.table.contains c'.id then k'.table else k'.table.insert c')
    rw [h.wiring.contains, hid]
    split_ifs
    · exact h.wiring
    · exact h.wiring.insert hid
  memo := (h.add hid).memo

theorem apply (h : k.Matches k') (e : Edit) : (Edit.apply k e).Matches (Edit.apply k' e) := by
  cases e with
  | enter e =>
    cases e with
    | add c => exact h.add rfl
    | offer c => exact h.offer rfl
    | call c => exact ⟨h.wiring.record c, congrArg (Memo.dropAll _) h.memo⟩
  | measure d =>
    -- The two passes may write different distances, but neither touches the wiring.
    have hself := CallTable.SameWiring.mapCallables
    exact ⟨((hself _ _).trans h.wiring).trans (hself _ _).symm, h.memo⟩
  | ask source target =>
    refine ⟨h.wiring, ?_⟩
    show k.memo.consult _ (k.table.distance? source target) =
      k'.memo.consult _ (k'.table.distance? source target)
    rw [h.memo, h.wiring.distance?]

theorem edits (h : k.Matches k') (es : List Edit) :
    (es.foldl Edit.apply k).Matches (es.foldl Edit.apply k') := by
  induction es generalizing k k' with
  | nil => exact h
  | cons e es ih => exact ih (h.apply e)

variable {s s' : Scan}

/-- **Corresponding steps keep cores matching.** -/
theorem perform (h : s.core.Matches s'.core) {r r' : Request} (hr : r.SameId r') :
    (s.perform r).2.core.Matches (s'.perform r').2.core := by
  rw [Scan.perform_core, Scan.perform_core]
  cases hr with
  | refl r => exact h.edits r.edits
  | add hid => exact h.add hid
  | addIfAbsent hid => exact h.offer hid

/-- **Idle steps are not seen.** -/
theorem of_idle {r : Request} (hr : r.idle s.table = true) :
    (s.perform r).2.core.Matches s.core := by
  cases r with
  | add c =>
    have hknown : s.table.contains c.id = true := hr
    rw [Scan.perform_core]
    refine ⟨.insert_known hknown, ?_⟩
    show s.memo.dropAll (Entry.arrival s.table c.id) = s.memo
    rw [Entry.arrival, if_pos hknown]
    rfl
  | addIfAbsent c =>
    have hknown : s.table.contains c.id = true := hr
    have hsame : (s.addIfAbsent c).2.core = s.core := by
      rw [Scan.addIfAbsent, if_pos hknown, Scan.core_enter]
    exact hsame ▸ .refl _
  | entryPass | sinkPass | failingEntryPass =>
    rw [Scan.perform_core]
    exact ⟨.mapCallables _ _, rfl⟩
  | declareFunction | declareMethod | addCall | recordCall | distance => cases hr
  | _ =>
    rw [Scan.perform_core]
    exact .refl _

theorem distance (h : s.core.Matches s'.core) (a b : String) :
    (s.distance a b).1 = (s'.distance a b).1 := by
  have hwiring : s.table.SameWiring s'.table := h.wiring
  exact Scan.distance_congr h.memo hwiring.distance? a b

end Matches
end Core

namespace Scan

theorem Twins.matches {s s' : Scan} {requests requests' : List Request}
    (h : s.Twins s' requests requests') (hcore : s.core.Matches s'.core) :
    (s.run requests).core.Matches (s'.run requests').core := by
  induction h with
  | nil => exact hcore
  | both hr _ ih => exact ih (hcore.perform hr)
  | left hr _ ih => exact ih ((Core.Matches.of_idle hr).trans hcore)
  | right hr _ ih => exact ih (hcore.trans (Core.Matches.of_idle hr).symm)

/-! ### What twins answer -/

/-- The memos hold as many distances and have had as many hits and misses. -/
structure SameCounts (s s' : Scan) : Prop where
  cached : s.census.cached = s'.census.cached
  hits : s.census.hits = s'.census.hits
  misses : s.census.misses = s'.census.misses

theorem sameCounts_of_matches {s s' : Scan} (h : s.core.Matches s'.core) : s.SameCounts s' := by
  have hmemo : s.memo = s'.memo := h.memo
  exact ⟨congrArg Memo.size hmemo, congrArg Memo.hits hmemo, congrArg Memo.misses hmemo⟩

/-- **Distances depend on topology only.** Let two runs from one empty scan take the same
steps, up to what the callables say beside their IDs, and let each replace callables,
measure and ask for anything but distances in between as it likes. Whenever they have come
equally far, their memos hold as many distances and have had as many hits and misses. A
distance asked for then is the same in both, and is a hit in both or a miss in both. A
shortest chain asked for then has the same IDs in both. -/
theorem distances_depend_on_topology {limits : Limits} {start : Scan}
    (hstart : ofLimits limits = .ok start) {requests requests' : List Request}
    (h : start.Twins start requests requests') :
    let s := start.run requests
    let s' := start.run requests'
    s.SameCounts s' ∧
    ∀ a b,
      (s.perform (.distance a b)).1 = (s'.perform (.distance a b)).1 ∧
      (s.perform (.distance a b)).2.SameCounts (s'.perform (.distance a b)).2 ∧
      ∃ chain chain',
        (s.perform (.shortestChain a b)).1 = .chain chain ∧
        (s'.perform (.shortestChain a b)).1 = .chain chain' ∧
        chain.map (List.map Callable.id) = chain'.map (List.map Callable.id) := by
  intro s s'
  have hmatch : s.core.Matches s'.core := h.matches (.refl _)
  have hwiring : s.table.SameWiring s'.table := hmatch.wiring
  have hwf : s.table.WellFormed := Reachable.wellFormed ⟨limits, start, requests, hstart, rfl⟩
  have hwf' : s'.table.WellFormed := Reachable.wellFormed ⟨limits, start, requests', hstart, rfl⟩
  have hids : List.map Callable.id ∘ s.table.resolve = List.map Callable.id ∘ s'.table.resolve :=
    funext fun ids => by
      rw [Function.comp_apply, Function.comp_apply, hwf.map_id_resolve, hwf'.map_id_resolve,
        hwiring.contains]
  refine ⟨sameCounts_of_matches hmatch, fun a b => ⟨?_, ?_, _, _, rfl, rfl, ?_⟩⟩
  · exact congrArg Reply.distance (hmatch.distance a b)
  · exact sameCounts_of_matches (hmatch.perform (.refl _))
  · rw [Option.map_map, Option.map_map, hwiring.shortestChain?, hids]

/-- Two callables, a call, and a question for the distance. -/
def plainRun : List Request :=
  [.add { id := "a", name := "a" }, .add { id := "b", name := "b" },
    .addCall { caller := "a", callee := "b" }, .census, .distance "a" "b"]

/-- The same with roles, with a callable that is replaced, with passes and with other
questions. -/
def dressedRun : List Request :=
  [.add { id := "a", name := "main", role := .entryPoint, line := 7 }, .entryPass,
    .add { id := "b", name := "exec", role := .sink }, .addCall { caller := "a", callee := "b" },
    .sinksFrom "a", .add { id := "b", name := "b" }, .distance "a" "b", .sinkPass]

/-- Both runs have missed once for the distance, and both hit when it is asked for
again. -/
theorem distances_depend_on_topology_dressed :
    ofLimits {} = .ok new ∧ new.Twins new plainRun dressedRun ∧
    (new.run plainRun).census.misses = 1 ∧ (new.run dressedRun).census.misses = 1 ∧
    ((new.run plainRun).perform (.distance "a" "b")).1 = .distance (some 1) ∧
    ((new.run dressedRun).perform (.distance "a" "b")).1 = .distance (some 1) ∧
    ((new.run plainRun).perform (.distance "a" "b")).2.census.hits = 1 ∧
    ((new.run dressedRun).perform (.distance "a" "b")).2.census.hits = 1 := by
  have hstart : ofLimits {} = .ok new := rfl
  have htwins : new.Twins new plainRun dressedRun :=
    .both (.add rfl) <| .right rfl <| .both (.add rfl) <| .both (.refl _) <| .right rfl <|
      .right (by decide +kernel) <| .left rfl <| .both (.refl _) <| .right rfl .nil
  obtain ⟨hcounts, hasked⟩ := distances_depend_on_topology hstart htwins
  obtain ⟨hanswer, hafter, -⟩ := hasked "a" "b"
  have hmisses : (new.run plainRun).census.misses = 1 := by decide +kernel
  have hone : ((new.run plainRun).perform (.distance "a" "b")).1 = .distance (some 1) :=
    congrArg Reply.distance (by decide +kernel)
  have hhits : ((new.run plainRun).perform (.distance "a" "b")).2.census.hits = 1 := by
    decide +kernel
  exact ⟨hstart, htwins, hmisses, hcounts.misses ▸ hmisses, hone, hanswer ▸ hone, hhits,
    hafter.hits ▸ hhits⟩

end Scan
end TaintGraph
