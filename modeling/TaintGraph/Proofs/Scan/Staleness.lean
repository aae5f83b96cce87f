/-
# How stale a distance can be

The memo is only partly kept in step with the table: an entry drops the
distances from the ends of a new call, from an ID whose first callable arrives
and from those that call it already, and leaves all others. So a remembered
distance is that of an earlier table, and what has happened since spares its
source: no call was recorded at it, and neither it nor an ID that it calls has
become known. That is enough for a distance of one hop to be exact.

Since tables only grow, the chain that a remembered distance was measured on is
still live. So a stale distance may be too large but never too small, and an ID that
cannot be reached is never said to be at some distance
(`Scan.distance_never_underReports`).

`Scan.peek?_perform` says what one request can leave in the memo;
`Scan.Origin` follows a remembered distance back to the request that computed it.

Key definitions: `Scan.Spares`, `Scan.Origin`, `CallTable.SameTopology`.
Key theorems: `Scan.peek?_perform`, `Scan.exists_origin`,
`Scan.distance_staleness_bounded`, `Scan.distance_never_underReports`.
-/
import TaintGraph.Proofs.Memo.Index
import TaintGraph.Proofs.Scan.Growth
import TaintGraph.Proofs.Table.WellFormed

namespace TaintGraph

/-! ### What the memo still holds -/

namespace Memo

variable {m : Memo} {pair : Endpoints} {d : Option ℕ}

theorem Indexed.dropAll (h : Indexed m) (sources : List String) : Indexed (m.dropAll sources) := by
  induction sources generalizing m with
  | nil => exact h
  | cons source sources ih => exact ih (h.dropFrom source)

theorem Indexed.peek?_dropAll (h : Indexed m) {sources : List String}
    (hd : (m.dropAll sources).peek? pair = some d) :
    pair.source ∉ sources ∧ m.peek? pair = some d := by
  induction sources generalizing m with
  | nil => exact ⟨List.not_mem_nil, hd⟩
  | cons source sources ih =>
    obtain ⟨hnot, hdrop⟩ := ih (h.dropFrom source) hd
    rw [(h.dropFrom source).peek?_eq_some_iff, h.dropFrom_entries, List.mem_filter,
      decide_eq_true_eq] at hdrop
    refine ⟨?_, h.peek?_eq_some_iff.2 hdrop.1⟩
    rw [List.mem_cons, not_or]
    exact ⟨hdrop.2, hnot⟩

theorem Indexed.consult (h : Indexed m) (asked : Endpoints) (compute : Option ℕ) :
    Indexed (m.consult asked compute) := by
  have hfind := h.find asked
  rw [Memo.consult]
  split <;> rename_i heq <;> rw [heq] at hfind
  · exact hfind
  · exact hfind.write asked compute

/-- A question adds no entry but its own, and that only on a miss. -/
theorem Indexed.peek?_consult (h : Indexed m) {asked : Endpoints} {compute : Option ℕ}
    (hd : (m.consult asked compute).peek? pair = some d) :
    m.peek? pair = some d ∨ (pair = asked ∧ m.peek? pair = none ∧ d = compute) := by
  have hmem := mem_entries_of_peek? hd
  cases hp : m.peek? asked with
  | some found =>
    have hconsult : m.consult asked compute = (m.find asked).2 := by
      simp only [Memo.consult, Memo.find, hp]
    rw [hconsult] at hmem
    exact .inl (h.peek?_eq_some_iff.2 (m.entries_find_subset asked hmem))
  | none =>
    have hconsult : m.consult asked compute = ((m.find asked).2.write asked compute).1 := by
      simp only [Memo.consult, Memo.find, hp]
    rw [hconsult] at hmem
    rcases mem_entries_write hmem with heq | ⟨hold, -⟩
    · cases heq
      exact .inr ⟨rfl, hp, rfl⟩
    · exact .inl (h.peek?_eq_some_iff.2 (m.entries_find_subset asked hold))

theorem Indexed.edit (h : Indexed m) (t : CallTable) (e : Edit) : Indexed (e.memo t m) := by
  cases e with
  | enter e => exact h.dropAll _
  | measure d => exact h
  | ask source target => exact h.consult _ _

end Memo

theorem Scan.Reachable.indexed {s : Scan} (h : s.Reachable) : s.memo.Indexed :=
  h.induction (P := fun k => k.memo.Indexed) (fun _ hpos => .empty hpos) fun k e hk =>
    hk.edit k.table e

/-! ### What an edit spares -/

variable {t : CallTable} {m : Memo} {source target : String} {d : Option ℕ}

/-- The first callable of an ID drops the distances from it and from its callers. -/
theorem Entry.mem_arrival (ht : t.WellFormed) {id : String} (hid : ¬ t.contains id = true)
    (hnear : id = source ∨ t.Calls source id) : source ∈ Entry.arrival t id := by
  rw [Entry.arrival, if_neg hid, List.mem_append, List.mem_singleton, List.mem_map]
  rcases hnear with rfl | hcalls
  · exact Or.inr rfl
  · exact Or.inl (ht.calls_iff_incoming.1 hcalls)

theorem Entry.contains_of_notMem_stale (ht : t.WellFormed) {e : Entry}
    (hstale : source ∉ e.stale t) {id : String} (hnear : id = source ∨ t.Calls source id)
    (hid : (e.enter t).contains id = true) : t.contains id = true := by
  by_contra hnot
  have harrival := Entry.mem_arrival ht hnot hnear
  cases e with
  | add c =>
    obtain rfl := ((CallTable.contains_insert c t id).1 hid).resolve_right hnot
    exact hstale harrival
  | offer c =>
    rw [Entry.enter] at hid
    split_ifs at hid
    · exact hnot hid
    · obtain rfl := ((CallTable.contains_insert c t id).1 hid).resolve_right hnot
      exact hstale harrival
  | call c =>
    exact hnot (by simpa [Entry.enter] using hid)

theorem Entry.ends_ne_of_notMem_stale {c : Call} (h : source ∉ (Entry.call c).stale t) :
    c.caller ≠ source ∧ c.callee ≠ source := by
  rw [Entry.stale] at h
  split_ifs at h with heq
  · rw [List.mem_singleton] at h
    exact ⟨Ne.symm h, fun hcallee => h (hcallee ▸ heq)⟩
  · simp only [List.mem_cons, List.not_mem_nil, or_false, not_or] at h
    exact ⟨Ne.symm h.1, Ne.symm h.2⟩

/-- A distance that an edit other than a question leaves in the memo was there
before, and the edit spares its source. -/
theorem Edit.peek?_memo (hm : m.Indexed) (ht : t.WellFormed) {e : Edit}
    (hask : ∀ a b, e ≠ .ask a b) (hd : (e.memo t m).peek? ⟨source, target⟩ = some d) :
    m.peek? ⟨source, target⟩ = some d ∧
    (∀ c, e = .enter (.call c) → c.caller ≠ source ∧ c.callee ≠ source) ∧
    ∀ id, (id = source ∨ t.Calls source id) → (e.table t).contains id = true →
      t.contains id = true := by
  cases e with
  | ask a b => exact absurd rfl (hask a b)
  | measure d =>
    refine ⟨hd, fun c hc => ?_, fun id _ hid => ?_⟩
    · cases hc
    · simpa [Edit.table] using hid
  | enter e =>
    obtain ⟨hstale, hpeek⟩ := hm.peek?_dropAll hd
    refine ⟨hpeek, fun c hc => ?_, fun id => Entry.contains_of_notMem_stale ht hstale⟩
    cases hc
    exact Entry.ends_ne_of_notMem_stale hstale

theorem Core.peek?_edits {k : Core} (hm : k.memo.Indexed) (ht : k.table.WellFormed)
    {es : List Edit} (hask : ∀ a b, .ask a b ∉ es)
    (hd : (es.foldl Edit.apply k).memo.peek? ⟨source, target⟩ = some d) :
    k.memo.peek? ⟨source, target⟩ = some d ∧
    (∀ c, .enter (.call c) ∈ es → c.caller ≠ source ∧ c.callee ≠ source) ∧
    ∀ id, (id = source ∨ k.table.Calls source id) →
      (es.foldl Edit.apply k).table.contains id = true → k.table.contains id = true := by
  induction es generalizing k with
  | nil => exact ⟨hd, fun c hc => absurd hc List.not_mem_nil, fun _ _ hid => hid⟩
  | cons e es ih =>
    have hrest : ∀ a b, .ask a b ∉ es := fun a b hab => hask a b (List.mem_cons_of_mem _ hab)
    have hfirst : ∀ a b, e ≠ .ask a b := fun a b hab => hask a b (hab ▸ List.mem_cons_self)
    have ih := ih (k := Edit.apply k e) (hm.edit k.table e) (ht.edit e) hrest hd
    obtain ⟨hpeek, hcall, hknown⟩ := Edit.peek?_memo hm ht hfirst ih.1
    refine ⟨hpeek, fun c hc => ?_, fun id hnear hid => hknown id hnear ?_⟩
    · rcases List.mem_cons.1 hc with heq | hc
      · exact hcall c heq.symm
      · exact ih.2.1 c hc
    · -- The first edit keeps the calls of the source, so the rest spares the same IDs.
      have hgrows := CallTable.Grows.edit e k.table
      exact ih.2.2 id (hnear.imp_right (hgrows.calls source id)) hid

/-! ### What a request spares -/

theorem Request.ask_notMem_edits {r : Request} (h : ∀ a b, r ≠ .distance a b)
    (a b : String) : .ask a b ∉ r.edits := by
  cases r with
  | distance source target => exact absurd rfl (h source target)
  | recordCall k f caller t site =>
    rw [edits]
    split_ifs <;> simp
  | _ => simp [edits]

namespace Scan

/-- The request spares the distances from `source`: it records no call with that
end, and brings the first callable neither of `source` nor of an ID that `source`
calls already. -/
structure Spares (s : Scan) (r : Request) (source : String) : Prop where
  call : ∀ c, r.call? = some c → c.caller ≠ source ∧ c.callee ≠ source
  self : (s.perform r).2.table.contains source = true → s.table.contains source = true
  callee : ∀ id, s.table.Calls source id →
    (s.perform r).2.table.contains id = true → s.table.contains id = true

theorem spares_distance (s : Scan) (a b : String) : s.Spares (.distance a b) source := by
  have htable : (s.perform (.distance a b)).2.table = s.table := by
    rw [perform_table, Request.edits]
    split_ifs <;> rfl
  refine ⟨fun c hc => ?_, fun h => ?_, fun id _ h => ?_⟩
  · cases hc
  · rwa [htable] at h
  · rwa [htable] at h

/-- **What one request can leave in the memo**: a distance that was there before,
when the request spares its source, or the one that the request computes. -/
theorem peek?_perform {s : Scan} (h : s.Reachable) {r : Request}
    (hd : (s.perform r).2.memo.peek? ⟨source, target⟩ = some d) :
    (s.memo.peek? ⟨source, target⟩ = some d ∧ s.Spares r source) ∨
    (r = .distance source target ∧ s.memo.peek? ⟨source, target⟩ = none ∧
      d = s.table.distance? source target) := by
  have hmemo : (s.perform r).2.memo = (r.edits.foldl Edit.apply s.core).memo :=
    congrArg Core.memo (perform_core s r)
  rw [hmemo] at hd
  by_cases hr : ∃ a b, r = .distance a b
  · obtain ⟨a, b, rfl⟩ := hr
    rw [Request.edits] at hd
    split_ifs at hd with hab
    · exact Or.inl ⟨hd, s.spares_distance a b⟩
    · obtain hpeek | ⟨hpair, hnone, hcomputed⟩ := h.indexed.peek?_consult hd
      · exact Or.inl ⟨hpeek, s.spares_distance a b⟩
      · cases hpair
        exact Or.inr ⟨rfl, hnone, hcomputed⟩
  · have hask := Request.ask_notMem_edits fun a b hab => hr ⟨a, b, hab⟩
    obtain ⟨hpeek, hcalls, hknown⟩ := Core.peek?_edits h.indexed h.wellFormed hask hd
    rw [← perform_table] at hknown
    exact Or.inl ⟨hpeek, fun c hc => hcalls c (Request.mem_edits_call.2 hc),
      hknown source (Or.inl rfl), fun id hid => hknown id (Or.inr hid)⟩

/-- What spares an ID leaves its live chains of one hop as they are. -/
theorem Spares.linked_one {s : Scan} {r : Request} (h : s.Spares r source) :
    (s.perform r).2.table.Linked 1 source target ↔ s.table.Linked 1 source target := by
  refine ⟨fun hone => ?_, (s.grows_perform r).linked⟩
  obtain ⟨hsource, htarget, hcalls⟩ := CallTable.linked_one.1 hone
  have hbefore : s.table.Calls source target := by
    obtain hbefore | ⟨c, hc, hcaller, -⟩ := (s.calls_perform r source target).1 hcalls
    · exact hbefore
    · exact absurd hcaller (h.call c hc).1
  exact CallTable.linked_one.2 ⟨h.self hsource, h.callee target hbefore htarget, hbefore⟩

/-! ### Where an answer comes from -/

/-- What a run remembers of a pair it remembers since `before`: all that follows
spares the source, and the pair is never computed again. -/
structure Origin (start : Scan) (requests : List Request) (source target : String)
    (before : List Request) : Prop where
  le : before <+: requests
  spares : ∀ p r, before <+: p → p ++ [r] <+: requests → (start.run p).Spares r source
  held : ∀ p, before <+: p → p <+: requests → p ≠ before →
    (start.run p).memo.peek? ⟨source, target⟩ ≠ none

variable {start : Scan} {before requests : List Request}

theorem Origin.refl (start : Scan) (requests : List Request) (source target : String) :
    Origin start requests source target requests where
  le := List.prefix_refl _
  spares := fun p r hp hr => by
    have hlt := hr.length_le
    have hlen := hp.length_le
    rw [List.length_append, List.length_singleton] at hlt
    omega
  held := fun p hp hp' hne => absurd (hp'.eq_of_length_le hp.length_le) hne

theorem Origin.snoc (h : Origin start requests source target before) {r : Request}
    (hspares : (start.run requests).Spares r source)
    (hheld : (start.run (requests ++ [r])).memo.peek? ⟨source, target⟩ ≠ none) :
    Origin start (requests ++ [r]) source target before where
  le := h.le.trans (List.prefix_append _ _)
  spares := fun p q hp hq => by
    rcases List.prefix_concat_iff.1 hq with heq | hq
    · obtain ⟨rfl, hqr⟩ := List.append_inj' heq rfl
      obtain rfl : q = r := by simpa using hqr
      exact hspares
    · exact h.spares p q hp hq
  held := fun p hp hq hne => by
    rcases List.prefix_concat_iff.1 hq with rfl | hq
    · exact hheld
    · exact h.held p hp hq hne

theorem peek?_run {limits : Limits} (hstart : ofLimits limits = .ok start)
    (requests : List Request)
    (hd : (start.run requests).memo.peek? ⟨source, target⟩ = some d) :
    ∃ before, Origin start requests source target before ∧
      d = (start.run before).table.distance? source target := by
  induction requests using List.reverseRecOn with
  | nil =>
    obtain ⟨hpos, rfl⟩ := ofLimits_eq_ok hstart
    cases hd
  | append_singleton requests r ih =>
    have hheld : (start.run (requests ++ [r])).memo.peek? ⟨source, target⟩ ≠ none := by
      rw [hd]
      exact Option.some_ne_none d
    have hreach : (start.run requests).Reachable := ⟨limits, start, requests, hstart, rfl⟩
    rw [run_snoc] at hd
    obtain ⟨hpeek, hspares⟩ | ⟨rfl, -, hcomputed⟩ := peek?_perform hreach hd
    · obtain ⟨before, horigin, hdist⟩ := ih hpeek
      exact ⟨before, horigin.snoc hspares hheld, hdist⟩
    · exact ⟨requests, (Origin.refl ..).snoc (spares_distance ..) hheld, hcomputed⟩

theorem perform_distance_fst (s : Scan) :
    (s.perform (.distance source target)).1 = .distance (s.distance source target).1 := rfl

theorem distance_eq (s : Scan) (h : source ≠ target) :
    (s.distance source target).1 =
      (s.memo.peek? ⟨source, target⟩).getD (s.table.distance? source target) := by
  simp only [distance, if_neg h, lookUp, fill, Memo.find, enter_table, enter_memo]
  cases s.memo.peek? ⟨source, target⟩ <;> rfl

/-- Answers depend on the memo and on the fewest hops only. -/
theorem distance_congr {s s' : Scan} (hmemo : s.memo = s'.memo)
    (hdistance : s.table.distance? = s'.table.distance?) (source target : String) :
    (s.distance source target).1 = (s'.distance source target).1 := by
  by_cases h : source = target
  · simp [distance, h]
  · rw [distance_eq s h, distance_eq s' h, hmemo, hdistance]

/-- Every answer has an origin: the moment when it was computed, which is the present
one when the memo does not hold it. -/
theorem exists_origin {limits : Limits} (hstart : ofLimits limits = .ok start)
    (requests : List Request) (h : source ≠ target) :
    ∃ before, Origin start requests source target before ∧
      ((start.run requests).distance source target).1 =
        (start.run before).table.distance? source target := by
  rw [distance_eq _ h]
  cases hpeek : (start.run requests).memo.peek? ⟨source, target⟩ with
  | none => exact ⟨requests, Origin.refl .., rfl⟩
  | some d => exact peek?_run hstart requests hpeek

/-- The live chains of one hop are those of the origin. -/
theorem Origin.linked_one (h : Origin start requests source target before) :
    (start.run requests).table.Linked 1 source target ↔
      (start.run before).table.Linked 1 source target := by
  obtain ⟨after, hafter⟩ := h.le
  suffices hrun : ∀ p, before ++ p <+: requests →
      ((start.run (before ++ p)).table.Linked 1 source target ↔
        (start.run before).table.Linked 1 source target) by
    simpa [hafter] using hrun after (hafter ▸ List.prefix_refl _)
  intro p
  induction p using List.reverseRecOn with
  | nil => simp
  | append_singleton p r ih =>
    rw [← List.append_assoc]
    intro hp
    have hspares := h.spares (before ++ p) r (List.prefix_append _ _) hp
    rw [run_snoc, hspares.linked_one]
    exact ih ((List.prefix_append _ _).trans hp)

end Scan

/-- The same IDs are known and the same ones call each other. -/
structure CallTable.SameTopology (t t' : CallTable) : Prop where
  contains : ∀ id, t.contains id = t'.contains id
  calls : ∀ a b, t.Calls a b ↔ t'.Calls a b

theorem CallTable.SameTopology.grows {t t' : CallTable} (h : t.SameTopology t') : t'.Grows t :=
  ⟨fun id hid => (h.contains id).trans hid, fun a b => (h.calls a b).2⟩

namespace Scan

/-- **A distance is stale only in what spares its source.** The answer for two
different IDs is the fewest hops of a live chain at some moment of the run, and
every request since spares the source. Hence it is exact when the topology is that
of the moment when the pair was last computed, and it is one hop just when a
call joins the two IDs and both are known. -/
theorem distance_staleness_bounded {limits : Limits} {start : Scan}
    (hstart : ofLimits limits = .ok start) (requests : List Request) {source target : String}
    (hne : source ≠ target) :
    let now := (start.run requests).table
    ∃ d, ((start.run requests).perform (.distance source target)).1 = .distance d ∧
      (∃ before, before <+: requests ∧
        IsFewest (fun n => (start.run before).table.Linked n source target) d ∧
        ∀ p r, before <+: p → p ++ [r] <+: requests → (start.run p).Spares r source) ∧
      (∀ before, before ++ [.distance source target] <+: requests ++ [.distance source target] →
        (start.run before).memo.peek? ⟨source, target⟩ = none →
        (start.run before).table.SameTopology now →
        IsFewest (fun n => now.Linked n source target) d) ∧
      (d = some 1 ↔
        now.contains source = true ∧ now.contains target = true ∧ now.Calls source target) := by
  intro now
  obtain ⟨origin, horigin, hanswer⟩ := exists_origin hstart requests hne
  have hfewest := (start.run origin).table.distance?_isFewest source target
  rw [← hanswer] at hfewest
  refine ⟨((start.run requests).distance source target).1, rfl,
    ⟨origin, horigin.le, hfewest, horigin.spares⟩, fun before hle hnone hsame => ?_, ?_⟩
  · have hbefore : before <+: requests := by
      have hlen := hle.length_le
      simp only [List.length_append, List.length_singleton] at hlen
      exact List.prefix_of_prefix_length_le ((List.prefix_append _ _).trans hle)
        (List.prefix_append _ _) (by omega)
    -- The origin is not before the computation, or the pair would have been held there.
    have horder : before <+: origin := by
      rcases List.prefix_or_prefix_of_prefix hbefore horigin.le with h | h
      · exact h
      · by_cases heq : before = origin
        · exact heq ▸ List.prefix_refl _
        · exact absurd hnone (horigin.held before h hbefore heq)
    refine hfewest.congr fun n => ⟨(start.grows_of_earlier horigin.le).linked, fun hn => ?_⟩
    exact (start.grows_of_earlier horder).linked (hsame.grows.linked hn)
  · have hzero : ¬ (start.run origin).table.Linked 0 source target := fun h =>
      hne (CallTable.linked_zero.1 h).1
    rw [hfewest.eq_one_iff hzero, ← horigin.linked_one, CallTable.linked_one]

/-- A chain of three hops, a question for its length, and then a shortcut that
does not touch its source. -/
def shortcut : List Request :=
  [.add { id := "a", name := "a" }, .add { id := "b", name := "b" },
    .add { id := "c", name := "c" }, .add { id := "d", name := "d" },
    .addCall { caller := "a", callee := "b" }, .addCall { caller := "b", callee := "c" },
    .addCall { caller := "c", callee := "d" }, .distance "a" "d",
    .addCall { caller := "b", callee := "d" }]

/-- The answer is still three hops, as at an earlier moment, while there are two
by now. -/
theorem distance_staleness_bounded_shortcut :
    ofLimits {} = .ok new ∧ "a" ≠ "d" ∧
    ((new.run shortcut).perform (.distance "a" "d")).1 = .distance (some 3) ∧
    (∃ before, before <+: shortcut ∧
      IsFewest (fun n => (new.run before).table.Linked n "a" "d") (some 3) ∧
      ∀ p r, before <+: p → p ++ [r] <+: shortcut → (new.run p).Spares r "a") ∧
    IsFewest (fun n => (new.run shortcut).table.Linked n "a" "d") (some 2) := by
  have hstart : ofLimits {} = .ok new := rfl
  have hne : "a" ≠ "d" := by decide
  have hanswer : ((new.run shortcut).perform (.distance "a" "d")).1 = .distance (some 3) :=
    congrArg Reply.distance (by decide +kernel)
  have hnow : (new.run shortcut).table.distance? "a" "d" = some 2 := by decide +kernel
  obtain ⟨d, hd, horigin, -⟩ := distance_staleness_bounded hstart shortcut hne
  obtain rfl : some 3 = d := Reply.distance.inj (hanswer.symm.trans hd)
  exact ⟨hstart, hne, hanswer, horigin, hnow ▸ CallTable.distance?_isFewest _ "a" "d"⟩

/-! ### A distance is never too small -/

/-- An answer is the length of a chain that was live at its origin and still is. -/
theorem Reachable.linked_of_distance {s : Scan} (h : s.Reachable) {source target : String}
    (hne : source ≠ target) {n : ℕ} (hd : (s.distance source target).1 = some n) :
    s.table.Linked n source target := by
  obtain ⟨limits, start, requests, hstart, rfl⟩ := h
  obtain ⟨origin, horigin, hanswer⟩ := exists_origin hstart requests hne
  have hfewest := (start.run origin).table.distance?_isFewest source target
  rw [← hanswer, hd] at hfewest
  exact (start.grows_of_earlier horigin.le).linked hfewest.1

/-- **A distance is never too small.** Whatever the memo held and however the table has
grown since, an answer of `n` hops for two different IDs is the length of a chain that
is live now, so the fewest hops are at most `n`; and when no chain is live between
them now, the answer is none. -/
theorem distance_never_underReports {s : Scan} (h : s.Reachable) {source target : String}
    (hne : source ≠ target) :
    ∃ d, (s.perform (.distance source target)).1 = .distance d ∧
      (∀ n, d = some n → s.table.Linked n source target ∧
        ∃ least ≤ n, IsFewest (fun k => s.table.Linked k source target) (some least)) ∧
      (IsFewest (fun k => s.table.Linked k source target) none → d = none) := by
  refine ⟨(s.distance source target).1, rfl, fun n hn => ?_, fun hnone => ?_⟩
  · have hlinked := h.linked_of_distance hne hn
    have hfewest := s.table.distance?_isFewest source target
    obtain ⟨least, hle, hleast⟩ := (hfewest.exists_le_iff n).1 ⟨n, le_rfl, hlinked⟩
    exact ⟨hlinked, least, hle, hleast ▸ hfewest⟩
  · rw [Option.eq_none_iff_forall_ne_some]
    intro n hn
    exact hnone n (h.linked_of_distance hne hn)

/-- After the shortcut the answer for its ends is three hops, and a chain of three hops
is live beside the shorter one; the way back is still none. -/
theorem distance_never_underReports_shortcut :
    (new.run shortcut).Reachable ∧ "a" ≠ "d" ∧ "d" ≠ "a" ∧
    ((new.run shortcut).perform (.distance "a" "d")).1 = .distance (some 3) ∧
    (new.run shortcut).table.Linked 3 "a" "d" ∧
    (∃ least ≤ 3, IsFewest (fun k => (new.run shortcut).table.Linked k "a" "d") (some least)) ∧
    IsFewest (fun k => (new.run shortcut).table.Linked k "d" "a") none ∧
    ((new.run shortcut).perform (.distance "d" "a")).1 = .distance none := by
  have hreach : (new.run shortcut).Reachable := ⟨{}, new, shortcut, rfl, rfl⟩
  have hne : "a" ≠ "d" := by decide
  have hanswer : ((new.run shortcut).perform (.distance "a" "d")).1 = .distance (some 3) :=
    congrArg Reply.distance (by decide +kernel)
  have hback : (new.run shortcut).table.distance? "d" "a" = none := by decide +kernel
  have hnone : IsFewest (fun k => (new.run shortcut).table.Linked k "d" "a") none :=
    hback ▸ CallTable.distance?_isFewest _ "d" "a"
  obtain ⟨d, hd, hlinked, -⟩ := distance_never_underReports hreach hne
  obtain rfl : some 3 = d := Reply.distance.inj (hanswer.symm.trans hd)
  obtain ⟨e, he, -, hunreached⟩ := distance_never_underReports hreach hne.symm
  obtain rfl : e = none := hunreached hnone
  exact ⟨hreach, hne, hne.symm, hanswer, (hlinked 3 rfl).1, (hlinked 3 rfl).2, hnone, he⟩

end Scan
end TaintGraph
