/-
# Growing makes nothing harder to reach

A call that is recorded and a callable that becomes known add to a table and take nothing
from it: roles stay, and the calls of an ID stay in their order with new ones among them
(`CallTable.Extends`). So live chains stay live, and what is measured by a shortest chain
can only get closer; what is collected along chains can only become more
(`Scan.growth_is_monotone`). Replacing a callable is no such step: it may take a role away,
and with it a sink.

Key definitions: `NoFurther`, `CallTable.Extends`.
Key theorems: `CallTable.Extends.enter`, `CallTable.Extends.chainsToSinks`,
`Scan.growth_is_monotone`.
-/
import TaintGraph.Proofs.Scan.Agreement
import TaintGraph.Proofs.Scan.Arrival

namespace TaintGraph

/-- At most as many hops as the other number; none stands for no chain at all. -/
def NoFurther (d e : Option ℕ) : Prop :=
  ∀ n, e = some n → ∃ m ≤ n, d = some m

theorem IsFewest.noFurther {P Q : ℕ → Prop} {d e : Option ℕ} (hd : IsFewest Q d)
    (he : IsFewest P e) (h : ∀ n, P n → Q n) : NoFurther d e := by
  rintro n rfl
  exact (hd.exists_le_iff n).1 ⟨n, le_rfl, h n he.1⟩

namespace CallTable

/-- The table is part of the other one: no role is lost, and no call, and the calls of an
ID keep their order. -/
structure Extends (t t' : CallTable) : Prop where
  hasRole : ∀ role id, t.HasRole role id → t'.HasRole role id
  outgoing : ∀ id, (t.outgoing id).Sublist (t'.outgoing id)

namespace Extends

variable {t t' : CallTable} {a b : String} {n k maxPaths : ℕ}

theorem refl (t : CallTable) : t.Extends t :=
  ⟨fun _ _ h => h, fun _ => .refl _⟩

/-- A callable that becomes known. -/
theorem insert {c : Callable} (hc : t.contains c.id = false) : t.Extends (t.insert c) where
  hasRole := fun role id hrole => by
    obtain ⟨d, hd, hr⟩ := hrole
    have hne : c.id ≠ id := fun he => by
      rw [he, contains_eq_false_iff, hd] at hc
      cases hc
    exact ⟨d, by simp [hne, hd], hr⟩
  outgoing := fun id => by simp

/-- A call that is recorded. -/
theorem record (t : CallTable) (c : Call) : t.Extends (t.record c) where
  hasRole := fun role id hrole => by simpa [HasRole] using hrole
  outgoing := fun id => by
    rw [outgoing_record]
    split_ifs
    · exact List.sublist_append_left _ _
    · exact .refl _

/-- **Growing extends**: an entry that brings no callable of a known ID takes nothing
away. -/
theorem enter {e : Entry} (hnew : ∀ id, e.brings id = true → t.contains id = false) :
    t.Extends (e.enter t) := by
  cases e with
  | add c => exact .insert (hnew c.id (by simp [Entry.brings]))
  | offer c =>
    rw [Entry.enter]
    split_ifs
    · exact .refl t
    · exact .insert (hnew c.id (by simp [Entry.brings]))
  | call c => exact .record t c

theorem contains (h : t.Extends t') (ha : t.contains a = true) : t'.contains a = true := by
  obtain ⟨role, hrole⟩ := contains_iff_hasRole.1 ha
  exact contains_iff_hasRole.2 ⟨role, h.hasRole role a hrole⟩

theorem grows (h : t.Extends t') : t.Grows t' where
  contains := fun _ => h.contains
  calls := fun a _ hcall => by
    obtain ⟨c, hc, hcallee⟩ := hcall
    exact ⟨c, (h.outgoing a).subset hc, hcallee⟩

theorem successors (h : t.Extends t') (id : String) :
    (t.successors id).Sublist (t'.successors id) :=
  (List.monotone_filter_right _ fun _ => h.contains).trans (((h.outgoing id).map _).filter _)

theorem isSink (h : t.Extends t') (ha : t.contains a = true) : t.isSink a = t'.isSink a := by
  obtain ⟨c, hc⟩ := contains_iff.1 ha
  obtain ⟨c', hc', hrole⟩ := h.hasRole c.role a ⟨c, hc, rfl⟩
  simp [CallTable.isSink, Callable.isSink, hc, hc', hrole]

/-! ### What is found in an extended table -/

theorem distance? (h : t.Extends t') (a b : String) :
    NoFurther (t'.distance? a b) (t.distance? a b) :=
  (t'.distance?_isFewest a b).noFurther (t.distance?_isFewest a b) fun _ => h.grows.linked

/-- A shortest chain does not get longer. -/
theorem shortestChain? (h : t.Extends t') {chain : List Callable}
    (hchain : (t.shortestChain? a b).map t.resolve = some chain) :
    ∃ chain', (t'.shortestChain? a b).map t'.resolve = some chain' ∧
      chain'.length ≤ chain.length := by
  have hlen := t.length_resolve_shortestChain? a b
  rw [hchain] at hlen
  obtain ⟨n, hn, hn'⟩ := Option.map_eq_some_iff.1 hlen.symm
  obtain ⟨m, hle, hm⟩ := h.distance? a b n hn
  have hlen' := t'.length_resolve_shortestChain? a b
  rw [hm, Option.map_some] at hlen'
  obtain ⟨chain', hchain', hm'⟩ := Option.map_eq_some_iff.1 hlen'
  exact ⟨chain', hchain', by omega⟩

/-- Reachable sinks stay reachable. -/
theorem sinksFrom (h : t.Extends t') (root : String) : t.sinksFrom root ⊆ t'.sinksFrom root := by
  intro b hb
  obtain ⟨hne, hsink, n, hn⟩ := mem_sinksFrom.1 hb
  exact mem_sinksFrom.2 ⟨hne, h.hasRole _ b hsink, n, h.grows.linked hn⟩

/-- A walk that is not cut off finds all chains that were found before, in their order. -/
theorem chainsToSinks (h : t.Extends t') (root : String)
    (hlt : (t'.chainsToSinks k maxPaths root).length < maxPaths) :
    (t.chainsToSinks k maxPaths root).Sublist (t'.chainsToSinks k maxPaths root) := by
  by_cases hroot : t.contains root = true
  · rw [chainsToSinks_eq_completions (h.contains hroot) hlt, chainsToSinks_eq t k maxPaths hroot]
    refine (List.take_sublist _ _).trans (Walk.completions_sublist h.successors ?_ _ _ _)
    exact fun _ c hc => h.isSink (mem_successors.1 hc).2
  · rw [CallTable.chainsToSinks, if_neg hroot]
    exact List.nil_sublist _

end Extends
end CallTable

namespace Scan

/-- Passes after a growing step measure no more than passes just before it. -/
theorem passes_noFurther {s : Scan} (h : s.Reachable) {e : Entry}
    (hnew : ∀ id, e.brings id = true → s.table.contains id = false) {id : String} {c : Callable}
    (hc : (s.run [.entryPass, .sinkPass]).table.callable? id = some c) :
    ∃ c', (((s.run [.entryPass, .sinkPass]).perform e.request).2.run
        [.entryPass, .sinkPass]).table.callable? id = some c' ∧
      NoFurther c'.fromEntry c.fromEntry ∧ NoFurther c'.toSink c.toSink := by
  have hreach : (s.run [.entryPass, .sinkPass]).Reachable := (h.perform _).perform _
  have hmid := hreach.perform e.request
  -- Only its shape ties the table in the middle to the one at the start.
  generalize hstep : ((s.run [.entryPass, .sinkPass]).perform e.request).2 = mid at hmid ⊢
  have hshape := s.sameShape_passes
  have hext : (s.run [.entryPass, .sinkPass]).table.Extends mid.table := by
    rw [← hstep, perform_entry_table]
    refine .enter fun x hx => ?_
    have hunknown := hnew x hx
    rw [← Bool.not_eq_true] at hunknown ⊢
    exact mt (hshape.contains x).2 hunknown
  have hlinked : ∀ n a b, s.table.Linked n a b → mid.table.Linked n a b := fun n a b hn =>
    hext.grows.linked ((hshape.linked n a b).1 hn)
  have hrole : ∀ role a, s.table.HasRole role a → mid.table.HasRole role a := fun role a ha =>
    hext.hasRole role a ((hshape.hasRole role a).1 ha)
  have hknown : (mid.run [.entryPass, .sinkPass]).table.contains id = true :=
    (grows_run mid _).contains id (hext.contains (CallTable.contains_iff.2 ⟨c, hc⟩))
  obtain ⟨c', hc'⟩ := CallTable.contains_iff.1 hknown
  obtain ⟨hentry, hsink⟩ := isFewest_of_passes h.wellFormed hc
  obtain ⟨hentry', hsink'⟩ := isFewest_of_passes hmid.wellFormed hc'
  refine ⟨c', hc', hentry'.noFurther hentry fun n hn => ?_, hsink'.noFurther hsink fun n hn => ?_⟩
  · obtain ⟨a, ha, hn⟩ := hn
    exact ⟨a, hrole _ a ha, hlinked n a id hn⟩
  · obtain ⟨b, hb, hn⟩ := hn
    exact ⟨b, hrole _ b hb, hlinked n id b hn⟩

/-- **Growth is monotone.** Let a reachable scan record a call, or take in a callable of an
ID that was not known. Passes after the step measure at most the distances that passes just
before it measured, for every callable that was known. A shortest chain that was found
before is found again, or a shorter one. Sinks that were reachable before are reachable.
And if the enumeration after the step stays below its limit, it holds the chains found
before, by ID and each as often, in their order. -/
theorem growth_is_monotone {s : Scan} (h : s.Reachable) {e : Entry}
    (hnew : ∀ id, e.brings id = true → s.table.contains id = false) :
    let s' := (s.perform e.request).2
    let before := s.run [.entryPass, .sinkPass]
    let after := (before.perform e.request).2.run [.entryPass, .sinkPass]
    (∀ id c, before.table.callable? id = some c → ∃ c', after.table.callable? id = some c' ∧
      NoFurther c'.fromEntry c.fromEntry ∧ NoFurther c'.toSink c.toSink) ∧
    (∀ a b chain, (s.perform (.shortestChain a b)).1 = .chain (some chain) →
      ∃ chain', (s'.perform (.shortestChain a b)).1 = .chain (some chain') ∧
        chain'.length ≤ chain.length) ∧
    (∀ source, ∃ sinks sinks',
      (s.perform (.sinksFrom source)).1 = .callables sinks ∧
      (s'.perform (.sinksFrom source)).1 = .callables sinks' ∧
      sinks.map Callable.id ⊆ sinks'.map Callable.id) ∧
    ∀ source k, ∃ chains chains',
      (s.perform (.chainsToSinks source k)).1 = .chains chains ∧
      (s'.perform (.chainsToSinks source k)).1 = .chains chains' ∧
      (chains'.length < s.limits.maxPaths →
        (chains.map (List.map Callable.id)).Sublist (chains'.map (List.map Callable.id))) := by
  intro s' before after
  have hwf : s.table.WellFormed := h.wellFormed
  have hwf' : s'.table.WellFormed := (h.perform e.request).wellFormed
  have hext : s.table.Extends s'.table := perform_entry_table s e ▸ .enter hnew
  refine ⟨fun id c hc => passes_noFurther h hnew hc, fun a b chain hchain => ?_,
    fun source => ⟨_, _, rfl, rfl, ?_⟩, fun source k =>
      ⟨(s.chainsToSinks source _).1, (s'.chainsToSinks source _).1, rfl, rfl, fun hlt => ?_⟩⟩
  · obtain ⟨chain', hchain', hle⟩ := hext.shortestChain? (Reply.chain.inj hchain)
    exact ⟨chain', congrArg Reply.chain hchain', hle⟩
  · rw [hwf.map_id_sinksFrom, hwf'.map_id_sinksFrom]
    exact hext.sinksFrom source
  · have hlimits : s'.limits = s.limits := limits_perform s e.request
    rw [chainsToSinks_fst, List.length_map, hlimits] at hlt
    rw [chainsToSinks_fst, chainsToSinks_fst, hlimits, hwf.map_id_chainsToSinks,
      hwf'.map_id_chainsToSinks]
    exact hext.chainsToSinks source hlt

/-- A way of three hops to a sink, and the calls of a shorter one through an ID that is not
known. -/
def detour : List Request :=
  [.add { id := "main", name := "main", role := .entryPoint }, .add { id := "f", name := "f" },
    .add { id := "g", name := "g" }, .add { id := "exec", name := "exec", role := .sink },
    .addCall { caller := "main", callee := "f" }, .addCall { caller := "f", callee := "g" },
    .addCall { caller := "g", callee := "exec" }, .addCall { caller := "main", callee := "late" },
    .addCall { caller := "late", callee := "exec" }]

/-- The callable that was missing. -/
def latecomer : Entry :=
  .add { id := "late", name := "late" }

/-- The sink is three hops from the entry point before the callable arrives, and no further
afterwards; a shortest chain of at most so many hops is still found. -/
theorem growth_is_monotone_detour :
    let s := new.run detour
    let before := s.run [.entryPass, .sinkPass]
    let after := (before.perform latecomer.request).2.run [.entryPass, .sinkPass]
    s.Reachable ∧ (∀ id, latecomer.brings id = true → s.table.contains id = false) ∧
    before.table.callable? "exec" = some
      { id := "exec", name := "exec", role := .sink, fromEntry := some 3, toSink := some 0 } ∧
    (∃ c', after.table.callable? "exec" = some c' ∧ NoFurther c'.fromEntry (some 3)) ∧
    ∃ chain', ((s.perform latecomer.request).2.perform (.shortestChain "main" "exec")).1 =
      .chain (some chain') ∧ chain'.length ≤ 4 := by
  intro s before after
  have hreach : s.Reachable := ⟨{}, new, detour, rfl, rfl⟩
  have hnew : ∀ id, latecomer.brings id = true → s.table.contains id = false := by
    intro id hid
    obtain rfl : "late" = id := by simpa [latecomer, Entry.brings] using hid
    decide +kernel
  have hexec : before.table.callable? "exec" = some
      { id := "exec", name := "exec", role := .sink, fromEntry := some 3, toSink := some 0 } := by
    decide +kernel
  have hchain : (s.perform (.shortestChain "main" "exec")).1 = .chain (some
      [{ id := "main", name := "main", role := .entryPoint, fromEntry := some 0 },
        { id := "f", name := "f" }, { id := "g", name := "g" },
        { id := "exec", name := "exec", role := .sink, toSink := some 0 }]) :=
    congrArg Reply.chain (by decide +kernel)
  obtain ⟨hpasses, hshortest, -⟩ := growth_is_monotone hreach hnew
  obtain ⟨c', hc', hentry, -⟩ := hpasses "exec" _ hexec
  exact ⟨hreach, hnew, hexec, ⟨c', hc', hentry⟩, hshortest "main" "exec" _ hchain⟩

end Scan
end TaintGraph
