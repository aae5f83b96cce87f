/-
# The accounts of the memo balance

The counters of a scan and its journal tell the same story about the memo. A question
for two different IDs is a hit or a miss. A miss brings one new entry into the memo, and
an entry leaves it in two ways only: it is pushed out by a newer one, or dropped because
its source has changed. Both are reported. So the misses are the entries held now, those
pushed out and those dropped, whatever the order of questions, calls and callables, and
however often one request drops the same source.

This is so in sequential runs, and in shared use when the questions are apart. In other
runs two questions for one pair may both miss and bring in one entry between them
(`SharedScan.overlapping_questions_unbalanced`). What holds in all runs counts such misses
too, and those of questions that are still pending: they are *outstanding*
(`SharedScan.accounted_run`).

Key definitions: `Event.isEviction`, `Event.dropped`, `released`, `Memo.Balanced`,
`Scan.Accounted`.
Key theorems: `Memo.size_dropFrom`, `Memo.size_write`, `Scan.Accounted.move`,
`SharedScan.accounted_step`, `SharedScan.lookups_run`, `SharedScan.memo_accounts_balance`.
-/
import Mathlib.Algebra.Ring.Nat
import TaintGraph.Proofs.Scan.Move
import TaintGraph.Proofs.Scan.Shared

namespace TaintGraph

/-- The event reports that an entry was pushed out. -/
def Event.isEviction : Event → Bool
  | .evicted _ => true
  | _ => false

/-- How many entries the event reports as dropped with their source. -/
def Event.dropped : Event → ℕ
  | .invalidated count _ => count
  | _ => 0

/-- How many entries the memo has given up according to the events. -/
def released (events : List Event) : ℕ :=
  events.countP Event.isEviction + (events.map Event.dropped).sum

theorem released_append (before after : List Event) :
    released (before ++ after) = released before + released after := by
  simp only [released, List.countP_append, List.map_append, List.sum_append]
  omega

theorem released_of_not_ofMemo {e : Event} (h : e.ofMemo = false) : released [e] = 0 := by
  cases e with
  | evicted | invalidated => cases h
  | _ => rfl

theorem released_invalidated (count : ℕ) (source : String) :
    released [.invalidated count source] = count := by
  simp [released, Event.isEviction, Event.dropped]

theorem released_evicted (pairs : List Endpoints) :
    released (pairs.map Event.evicted) = pairs.length := by
  induction pairs with
  | nil => rfl
  | cons pair pairs ih =>
    calc released (.evicted pair :: pairs.map Event.evicted)
        = released [.evicted pair] + released (pairs.map Event.evicted) := released_append [_] _
      _ = 1 + pairs.length := by rw [ih]; rfl
      _ = (pair :: pairs).length := by rw [List.length_cons, Nat.add_comm]

/-! ### What one use does to the size -/

namespace Memo

variable {m : Memo} {pair : Endpoints} {d : Option ℕ}

/-- What is dropped and what is left make up what was there. -/
theorem size_dropFrom (m : Memo) (source : String) :
    (m.dropFrom source).2.1.size + released (m.dropFrom source).2.2 = m.size := by
  unfold dropFrom
  cases m.targets[source]? with
  | none => rfl
  | some held =>
    have hle : (m.entries.filter fun e =>
        !(e.1.source == source && held.contains e.1.target)).length ≤ m.entries.length :=
      List.length_filter_le _ _
    simp only [size]
    split_ifs with hcount
    · rw [released_invalidated]
      omega
    · -- Nothing was dropped, and nothing is reported.
      have hnothing : released [] = 0 := rfl
      rw [hnothing]
      omega

/-- What is written, what stays beside it and what is pushed out for it. -/
theorem size_write (m : Memo) (pair : Endpoints) (d : Option ℕ) :
    (m.write pair d).1.size + released (m.write pair d).2 = (m.others pair).length + 1 := by
  have hsplit := congrArg List.length (List.take_append_drop (m.capacity - 1) (m.others pair))
  rw [List.length_append] at hsplit
  simp only [write, size, released_evicted, List.length_cons, List.length_map]
  omega

/-- Every miss of the memo is accounted for: its entry is held, or the journal says that
it was given up, or it is one of those outstanding. -/
structure Balanced (m : Memo) (journal : List Event) (outstanding : ℕ) : Prop where
  indexed : m.Indexed
  misses_eq : m.misses = m.size + released journal + outstanding

namespace Balanced

variable {journal : List Event} {outstanding : ℕ}

theorem report (h : m.Balanced journal outstanding) {e : Event} (he : e.ofMemo = false) :
    m.Balanced (journal ++ [e]) outstanding := by
  refine ⟨h.indexed, ?_⟩
  rw [released_append, released_of_not_ofMemo he]
  exact h.misses_eq

theorem dropFrom (h : m.Balanced journal outstanding) (source : String) :
    (m.dropFrom source).2.1.Balanced (journal ++ (m.dropFrom source).2.2) outstanding := by
  have hsize := m.size_dropFrom source
  have hbefore := h.misses_eq
  refine ⟨h.indexed.dropFrom source, ?_⟩
  rw [released_append, misses_dropFrom]
  omega

theorem hit (h : m.Balanced journal outstanding) (hp : m.peek? pair = some d) :
    (m.find pair).2.Balanced journal outstanding := by
  refine ⟨h.indexed.find pair, ?_⟩
  rw [h.indexed.size_find]
  simpa [hp] using h.misses_eq

/-- A miss is outstanding. -/
theorem miss (h : m.Balanced journal outstanding) (hp : m.peek? pair = none) :
    (m.find pair).2.Balanced journal (outstanding + 1) := by
  have hbefore := h.misses_eq
  refine ⟨h.indexed.find pair, ?_⟩
  rw [h.indexed.size_find]
  simp only [misses_find, hp, Option.isSome_none, Bool.false_eq_true, if_false]
  omega

/-- The entry that it brings in settles it. -/
theorem fill (h : m.Balanced journal (outstanding + 1)) (hp : m.peek? pair = none)
    (d : Option ℕ) :
    (m.write pair d).1.Balanced (journal ++ (m.write pair d).2) outstanding := by
  have hsize := m.size_write pair d
  have hbefore := h.misses_eq
  refine ⟨h.indexed.write pair d, ?_⟩
  rw [others_eq_of_peek?_none hp] at hsize
  rw [released_append, misses_write, hbefore, size]
  omega

/-- An entry that is there already settles nothing. -/
theorem refill (h : m.Balanced journal outstanding) (hp : m.peek? pair = some d)
    (d' : Option ℕ) :
    (m.write pair d').1.Balanced (journal ++ (m.write pair d').2) outstanding := by
  have hheld : pair ∈ m.keys := mem_keys_iff.2 ⟨d, mem_entries_of_peek? hp⟩
  have hsize := m.size_write pair d'
  have hothers := h.indexed.length_others hheld
  have hbefore := h.misses_eq
  refine ⟨h.indexed.write pair d', ?_⟩
  rw [released_append, misses_write]
  omega

end Balanced

/-! ### How often the memo is asked -/

/-- How many look-ups the memo has counted. -/
def lookups (m : Memo) : ℕ :=
  m.hits + m.misses

theorem lookups_dropFrom (m : Memo) (source : String) :
    (m.dropFrom source).2.1.lookups = m.lookups := by
  simp [lookups]

theorem lookups_dropAll (m : Memo) (sources : List String) :
    (m.dropAll sources).lookups = m.lookups := by
  induction sources generalizing m with
  | nil => rfl
  | cons source sources ih => exact (ih _).trans (m.lookups_dropFrom source)

/-- A look-up is a hit or a miss. -/
theorem lookups_find (m : Memo) (pair : Endpoints) :
    (m.find pair).2.lookups = m.lookups + 1 := by
  simp only [lookups, hits_find, misses_find]
  split_ifs <;> omega

theorem lookups_write (m : Memo) (pair : Endpoints) (d : Option ℕ) :
    (m.write pair d).1.lookups = m.lookups := rfl

/-- A question is one look-up, whether it hits or misses. -/
theorem lookups_consult (m : Memo) (pair : Endpoints) (compute : Option ℕ) :
    (m.consult pair compute).lookups = m.lookups + 1 := by
  have hfind := m.lookups_find pair
  rw [consult]
  split <;> rename_i heq <;> rw [heq] at hfind
  · exact hfind
  · exact hfind

end Memo

theorem Core.lookups_edits {k : Core} {es : List Edit} (hask : ∀ a b, .ask a b ∉ es) :
    (es.foldl Edit.apply k).memo.lookups = k.memo.lookups := by
  induction es generalizing k with
  | nil => rfl
  | cons e es ih =>
    have hrest : ∀ a b, .ask a b ∉ es := fun a b hab => hask a b (List.mem_cons_of_mem _ hab)
    rw [List.foldl_cons, ih hrest]
    cases e with
    | enter e => exact k.memo.lookups_dropAll _
    | measure d => rfl
    | ask a b => exact absurd List.mem_cons_self (hask a b)

namespace Scan

theorem lookups_perform (s : Scan) (r : Request) :
    (s.perform r).2.memo.lookups = s.memo.lookups + if r.asked?.isSome then 1 else 0 := by
  by_cases hr : ∃ a b, r = .distance a b
  · obtain ⟨a, b, rfl⟩ := hr
    rw [memo_perform_of_reads s rfl]
    cases (Request.distance a b).asked? with
    | none => rfl
    | some pair => exact s.memo.lookups_consult pair _
  · have hmemo : (s.perform r).2.memo = (r.edits.foldl Edit.apply s.core).memo :=
      congrArg Core.memo (perform_core s r)
    have hask := Request.ask_notMem_edits fun a b hab => hr ⟨a, b, hab⟩
    have hquiet : r.asked? = none := by
      cases r with
      | distance a b => exact absurd ⟨a, b, rfl⟩ hr
      | _ => rfl
    rw [hmemo, Core.lookups_edits hask, hquiet]
    rfl

/-! ### Moves -/

theorem journal_report (s : Scan) (events : List Event) :
    (s.report events).journal.toList = s.journal.toList ++ events := by
  simp [report]

theorem consult_of_hit {s : Scan} {pair : Endpoints} {found : Option ℕ}
    (hp : s.memo.peek? pair = some found) (d : Option ℕ) :
    s.consult pair d = { s with memo := (s.memo.find pair).2 } := by
  unfold consult Memo.find
  rw [hp]

theorem consult_of_miss {s : Scan} {pair : Endpoints} (hp : s.memo.peek? pair = none)
    (d : Option ℕ) :
    s.consult pair d = { s with memo := ((s.memo.find pair).2.write pair d).1 }.report
      ((s.memo.find pair).2.write pair d).2 := by
  unfold consult Memo.find
  rw [hp]

/-- The memo has its capacity and balances against the journal. -/
structure Accounted (s : Scan) (capacity outstanding : ℕ) : Prop where
  capacity_eq : s.memo.capacity = capacity
  balanced : s.memo.Balanced s.journal.toList outstanding

section Accounted

variable {s s' : Scan} {capacity outstanding : ℕ} {pair : Endpoints} {d : Option ℕ}

theorem Accounted.empty {limits : Limits} (hstart : ofLimits limits = .ok s) :
    s.Accounted limits.maxDistances 0 := by
  obtain ⟨hpos, rfl⟩ := ofLimits_eq_ok hstart
  exact ⟨rfl, .empty hpos, rfl⟩

/-- When a write balances, so does the scan that reports what was pushed out for it. -/
theorem Accounted.written {outstanding' : ℕ} (h : s.Accounted capacity outstanding)
    (hwrite : (s.memo.write pair d).1.Balanced (s.journal.toList ++ (s.memo.write pair d).2)
      outstanding') :
    ({ s with memo := (s.memo.write pair d).1 }.report (s.memo.write pair d).2).Accounted
      capacity outstanding' := by
  refine ⟨h.capacity_eq, ?_⟩
  rw [journal_report]
  exact hwrite

theorem Accounted.hit (h : s.Accounted capacity outstanding) (hp : s.memo.peek? pair = some d) :
    { s with memo := (s.memo.find pair).2 }.Accounted capacity outstanding :=
  ⟨(Memo.capacity_find _ _).trans h.capacity_eq, h.balanced.hit hp⟩

theorem Accounted.miss (h : s.Accounted capacity outstanding) (hp : s.memo.peek? pair = none) :
    { s with memo := (s.memo.find pair).2 }.Accounted capacity (outstanding + 1) :=
  ⟨(Memo.capacity_find _ _).trans h.capacity_eq, h.balanced.miss hp⟩

/-- **Every move keeps the accounts.** -/
theorem Accounted.move (h : s.Accounted capacity outstanding) (hmove : Move s s') :
    s'.Accounted capacity outstanding := by
  cases hmove with
  | report e he =>
    refine ⟨h.capacity_eq, ?_⟩
    rw [journal_report]
    exact h.balanced.report he
  | setTable t => exact ⟨h.capacity_eq, h.balanced⟩
  | poison => exact ⟨h.capacity_eq, h.balanced⟩
  | forget source =>
    refine ⟨(Memo.capacity_dropFrom _ _).trans h.capacity_eq, ?_⟩
    unfold forget
    rw [journal_report]
    exact h.balanced.dropFrom source
  | consult pair d =>
    cases hp : s.memo.peek? pair with
    | some found =>
      rw [consult_of_hit hp]
      exact h.hit hp
    | none =>
      -- The miss is outstanding for as long as it takes to fill the pair in.
      rw [consult_of_miss hp]
      have hmiss := h.miss hp
      exact hmiss.written (hmiss.balanced.fill (Memo.peek?_find_of_none hp pair) d)

theorem Accounted.moves (h : s.Accounted capacity outstanding) (hmoves : Moves s s') :
    s'.Accounted capacity outstanding :=
  hmoves.keeps (P := fun x => x.Accounted capacity outstanding)
    (fun _ _ hmove h => h.move hmove) h

end Accounted

end Scan

/-! ### Shared use -/

namespace SharedScan

variable {c : SharedScan} {e : Step} {capacity spent : ℕ}

theorem lookups_step (c : SharedScan) (e : Step) :
    (c.step e).scan.memo.lookups = c.scan.memo.lookups + if e.asked?.isSome then 1 else 0 := by
  cases e with
  | perform r => exact c.scan.lookups_perform r
  | lookUp pair =>
    show (c.scan.enter.memo.find pair).2.lookups = c.scan.memo.lookups + 1
    rw [Memo.lookups_find, Scan.enter_memo]
  | fill pair => exact c.scan.memo.lookups_write pair _

theorem lookups_run (c : SharedScan) (steps : List Step) :
    (c.run steps).scan.memo.lookups =
      c.scan.memo.lookups + steps.countP fun e => e.asked?.isSome := by
  induction steps generalizing c with
  | nil => rfl
  | cons e steps ih =>
    rw [run_cons, ih, lookups_step, List.countP_cons]
    omega

/-- **A step keeps the accounts.** Outstanding are the misses of the pending questions and of
those that filled a pair in twice. -/
theorem accounted_step (h : c.scan.Accounted capacity (c.pending.length + spent))
    (hallows : c.Allows e) :
    (c.step e).scan.Accounted capacity
      ((c.step e).pending.length + (spent + if c.refillsBy e then 1 else 0)) := by
  cases e with
  | perform r => exact h.moves (Scan.moves_perform c.scan r)
  | lookUp pair =>
    have henter := h.moves (Scan.moves_enter c.scan)
    have hfound : (c.scan.lookUp pair).1 = c.scan.enter.memo.peek? pair := Memo.find_fst _ _
    simp only [step, hfound]
    cases hp : c.scan.enter.memo.peek? pair with
    | some d => exact henter.hit hp
    | none =>
      have hmiss := henter.miss hp
      rw [Nat.add_right_comm] at hmiss
      exact hmiss
  | fill pair =>
    have hlength : (c.pending.erase pair).length + 1 = c.pending.length := by
      rw [List.length_erase_of_mem hallows]
      exact Nat.sub_add_cancel (List.length_pos_of_mem hallows)
    rw [← hlength, Nat.add_right_comm] at h
    cases hp : c.scan.memo.peek? pair with
    | some d =>
      have hheld : c.refillsBy (.fill pair) = true := congrArg Option.isSome hp
      rw [hheld]
      exact h.written (h.balanced.refill hp _)
    | none =>
      have habsent : c.refillsBy (.fill pair) = false := congrArg Option.isSome hp
      rw [habsent]
      exact h.written (h.balanced.fill hp _)

theorem accounted_run {steps : List Step}
    (h : c.scan.Accounted capacity (c.pending.length + spent)) (hlegal : c.Legal steps) :
    (c.run steps).scan.Accounted capacity
      ((c.run steps).pending.length + (spent + c.refills steps)) := by
  induction steps generalizing c spent with
  | nil => exact h
  | cons e steps ih =>
    obtain ⟨hallows, hlegal⟩ := legal_cons.1 hlegal
    have hrest := ih (accounted_step h hallows) hlegal
    rwa [run_cons, refills_cons, Nat.add_comm (refills _ _), ← Nat.add_assoc spent]

/-- What the counters and the journal say after a run that starts from nothing. -/
theorem accounts_of_legal {limits : Limits} {start : Scan}
    (hstart : Scan.ofLimits limits = .ok start) {steps : List Step}
    (hlegal : SharedScan.Legal { scan := start } steps) :
    let c := SharedScan.run { scan := start } steps
    c.scan.census.hits + c.scan.census.misses = steps.countP (fun e => e.asked?.isSome) ∧
    c.scan.census.cached ≤ limits.maxDistances ∧
    c.scan.census.misses = c.scan.census.cached + c.scan.journal.toList.countP Event.isEviction +
      (c.scan.journal.toList.map Event.dropped).sum + c.pending.length +
      SharedScan.refills { scan := start } steps := by
  intro c
  have haccounted : c.scan.Accounted limits.maxDistances (c.pending.length + (0 + _)) :=
    accounted_run (c := { scan := start }) (.empty hstart) hlegal
  refine ⟨?_, ?_, ?_⟩
  · have hasked : c.scan.memo.lookups = _ := lookups_run { scan := start } steps
    have hnone : start.memo.lookups = 0 := by
      obtain ⟨hpos, rfl⟩ := Scan.ofLimits_eq_ok hstart
      rfl
    rw [hnone, Nat.zero_add] at hasked
    exact hasked
  · have hsize := haccounted.balanced.indexed.size_le
    rw [haccounted.capacity_eq] at hsize
    exact hsize
  · have hmisses := haccounted.balanced.misses_eq
    unfold released at hmisses
    show c.scan.memo.misses = c.scan.memo.size + _ + _ + _ + _
    omega

/-- **The accounts of the memo balance.** After every run of a scan in shared use, hits and
misses are together the look-ups, and the memo holds no more than it may. The misses are the
entries that it holds, those that the journal reports as pushed out, those that it reports as
dropped, and then the questions still pending and the times that a pair was filled in twice.
When the questions are apart and none is pending, the last two are nothing. So it is after a
sequential run, where every request is done before the next begins. -/
theorem memo_accounts_balance {limits : Limits} {start : Scan}
    (hstart : Scan.ofLimits limits = .ok start) :
    (∀ steps, SharedScan.Legal { scan := start } steps →
      let c := SharedScan.run { scan := start } steps
      let evicted := c.scan.journal.toList.countP Event.isEviction
      let dropped := (c.scan.journal.toList.map Event.dropped).sum
      c.scan.census.hits + c.scan.census.misses = steps.countP (fun e => e.asked?.isSome) ∧
      c.scan.census.cached ≤ limits.maxDistances ∧
      c.scan.census.misses = c.scan.census.cached + evicted + dropped + c.pending.length +
        SharedScan.refills { scan := start } steps ∧
      (SharedScan.Apart { scan := start } steps → c.pending = [] →
        c.scan.census.misses = c.scan.census.cached + evicted + dropped)) ∧
    ∀ requests : List Request,
      let s := start.run requests
      s.census.hits + s.census.misses = requests.countP (fun r => r.asked?.isSome) ∧
      s.census.misses = s.census.cached + s.journal.toList.countP Event.isEviction +
        (s.journal.toList.map Event.dropped).sum ∧
      s.census.cached ≤ limits.maxDistances := by
  refine ⟨fun steps hlegal => ?_, fun requests => ?_⟩
  · obtain ⟨hasked, hsize, hmisses⟩ := accounts_of_legal hstart hlegal
    refine ⟨hasked, hsize, hmisses, fun hapart hpending => ?_⟩
    have hrefills := hapart.refills hlegal ⟨List.nodup_nil, List.forall_mem_nil _⟩
    rw [hrefills, hpending] at hmisses
    exact hmisses
  · -- A sequential run is one of whole requests.
    obtain ⟨hrun, hlegal, hrefills⟩ := run_requests start requests
    obtain ⟨hasked, hsize, hmisses⟩ := accounts_of_legal hstart hlegal
    rw [hrun] at hasked hsize hmisses
    rw [List.countP_map] at hasked
    rw [hrefills] at hmisses
    exact ⟨hasked, hmisses, hsize⟩

/-- An empty scan that remembers two distances. -/
def roomForTwo : Scan :=
  { limits := { maxDistances := 2 }, memo := Memo.empty 2 Nat.two_pos }

/-- Questions that repeat each other, that push each other out, and one for an ID and
itself; then an ID becomes known that the same ID calls twice. -/
def busy : List Request :=
  [.add { id := "a", name := "a" }, .add { id := "b", name := "b" },
    .addCall { caller := "a", callee := "b" }, .addCall { caller := "a", callee := "x" },
    .addCall { caller := "a", callee := "x" }, .distance "a" "b", .distance "a" "b",
    .distance "a" "a", .distance "b" "a", .distance "a" "x", .distance "a" "b",
    .add { id := "x", name := "x" }, .distance "a" "x", .distance "b" "x"]

/-- Three questions that overlap, and one that is asked and answered meanwhile; then a call
that drops two distances, and a question that is asked again. -/
def crowded : List Step :=
  [.perform (.addCall { caller := "a", callee := "b" }), .lookUp ⟨"a", "b"⟩, .lookUp ⟨"b", "a"⟩,
    .fill ⟨"b", "a"⟩, .lookUp ⟨"a", "x"⟩, .perform (.distance "b" "x"), .fill ⟨"a", "b"⟩,
    .fill ⟨"a", "x"⟩, .lookUp ⟨"a", "b"⟩, .perform (.addCall { caller := "a", callee := "x" }),
    .lookUp ⟨"a", "b"⟩, .fill ⟨"a", "b"⟩]

/-- Of seven questions one after the other six are misses: two of their entries are held, two
were pushed out and two dropped, both at the first of two drops of one source. Of six that
overlap five are misses: one of their entries is held, two were pushed out and two dropped. -/
theorem memo_accounts_balance_busy :
    Scan.ofLimits { maxDistances := 2 } = .ok roomForTwo ∧
    (roomForTwo.run busy).census.hits + (roomForTwo.run busy).census.misses = 7 ∧
    (roomForTwo.run busy).journal.toList.countP Event.isEviction = 2 ∧
    ((roomForTwo.run busy).journal.toList.map Event.dropped).sum = 2 ∧
    (roomForTwo.run busy).census.cached = 2 ∧ (roomForTwo.run busy).census.misses = 6 ∧
    SharedScan.Legal { scan := roomForTwo } crowded ∧
    SharedScan.Apart { scan := roomForTwo } crowded ∧
    let s := (SharedScan.run { scan := roomForTwo } crowded).scan
    s.census.hits + s.census.misses = 6 ∧
    s.journal.toList.countP Event.isEviction = 2 ∧
    (s.journal.toList.map Event.dropped).sum = 2 ∧ s.census.cached = 1 ∧ s.census.misses = 5 := by
  have hstart : Scan.ofLimits { maxDistances := 2 } = .ok roomForTwo := rfl
  obtain ⟨hshared, hsequential⟩ := memo_accounts_balance hstart
  obtain ⟨hasked, hmisses, -⟩ := hsequential busy
  have hevicted : (roomForTwo.run busy).journal.toList.countP Event.isEviction = 2 := by
    decide +kernel
  have hdropped : ((roomForTwo.run busy).journal.toList.map Event.dropped).sum = 2 := by
    decide +kernel
  have hcached : (roomForTwo.run busy).census.cached = 2 := by decide +kernel
  have hlegal : SharedScan.Legal { scan := roomForTwo } crowded := by decide +kernel
  have hapart : SharedScan.Apart { scan := roomForTwo } crowded := by decide +kernel
  obtain ⟨hlookups, -, -, hbalance⟩ := hshared crowded hlegal
  have hbalance := hbalance hapart (by decide +kernel)
  refine ⟨hstart, hasked, hevicted, hdropped, hcached, ?_, hlegal, hapart, ?_⟩
  · rw [hmisses, hcached, hevicted, hdropped]
  · intro s
    have hevicted : s.journal.toList.countP Event.isEviction = 2 := by decide +kernel
    have hdropped : (s.journal.toList.map Event.dropped).sum = 2 := by decide +kernel
    have hcached : s.census.cached = 1 := by decide +kernel
    refine ⟨hlookups, hevicted, hdropped, hcached, ?_⟩
    rw [hbalance, hcached, hevicted, hdropped]

/-- Two questions for one pair, each begun before the other is done. -/
def overlapping : List Step :=
  [.perform (.add { id := "a", name := "a" }), .perform (.add { id := "b", name := "b" }),
    .perform (.addCall { caller := "a", callee := "b" }), .lookUp ⟨"a", "b"⟩, .lookUp ⟨"a", "b"⟩,
    .fill ⟨"a", "b"⟩, .fill ⟨"a", "b"⟩]

/-- **Two questions for one pair may both miss and bring in one entry.** Nothing is pushed out or
dropped, and no question is left pending. -/
theorem overlapping_questions_unbalanced :
    Scan.ofLimits {} = .ok Scan.new ∧
    SharedScan.Legal { scan := Scan.new } overlapping ∧
    let c := SharedScan.run { scan := Scan.new } overlapping
    c.pending = [] ∧ c.scan.census.hits = 0 ∧ c.scan.census.misses = 2 ∧
    c.scan.census.cached = 1 ∧ c.scan.journal.toList.countP Event.isEviction = 0 ∧
    (c.scan.journal.toList.map Event.dropped).sum = 0 := by
  refine ⟨rfl, ?_⟩
  decide +kernel

end SharedScan
end TaintGraph
