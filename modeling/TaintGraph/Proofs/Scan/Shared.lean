/-
# Scans in shared use

Several threads may use one scan. Its table is behind one lock and its memo behind another. A
request that changes the table holds the first lock alone, the others hold it together, and
each use of the memo holds the second. So a request is one step as far as the memo goes, with
one exception: a question for a distance looks its pair up, lets go of the memo, and comes back
to it after a miss to fill the distance in. Other questions may come in between. Requests that
change the table may not, so the question is answered from the table that it began with
(`SharedScan.table_run`).

A `SharedScan` is a scan with the questions that are between their two uses of the memo, and a
run is a list of steps in the order in which they take place, whichever threads take them. A
sequential run is one whose steps are whole requests (`SharedScan.run_requests`). A call found
in a file takes two steps, and the requests `addIfAbsent` and `addCall` stand for them.

Two questions for one pair may both miss and both fill it in, the second one in vain. This does
not happen when the questions of a run are *apart*: no pair is looked up while another question
for it is pending (`SharedScan.Apart.refills`).

Key definitions: `Request.writes`, `Request.asked?`, `SharedScan`, `SharedScan.Step`,
`SharedScan.run`, `SharedScan.Legal`, `SharedScan.Apart`, `SharedScan.refills`.
Key theorems: `SharedScan.run_requests`, `SharedScan.table_run`, `SharedScan.Separate.step`,
`SharedScan.Apart.refills`.
-/
import TaintGraph.Proofs.Scan.Staleness

namespace TaintGraph

/-- The request may change the table, so while it is performed no other is. -/
def Request.writes : Request → Bool
  | .entryPass | .sinkPass | .failingEntryPass => true
  | r => r.enters

/-- The pair that the request looks up in the memo: two different IDs whose distance it asks for. -/
def Request.asked? : Request → Option Endpoints
  | .distance source target => if source = target then none else some { source, target }
  | _ => none

/-- A scan in shared use. -/
structure SharedScan where
  /-- The scan that the threads share. -/
  scan : Scan
  /-- The pairs that were looked up and missed, and are still to be filled in. -/
  pending : List Endpoints := []

namespace SharedScan

/-- What a thread does while no other reaches the memo. -/
inductive Step where
  /-- Perform a request from beginning to end. -/
  | perform (r : Request)
  /-- Begin a question for a distance: look the pair up. -/
  | lookUp (pair : Endpoints)
  /-- End a question that missed: fill the distance in. -/
  | fill (pair : Endpoints)

/-- The pair that the step looks up in the memo. -/
def Step.asked? : Step → Option Endpoints
  | .perform r => r.asked?
  | .lookUp pair => some pair
  | .fill _ => none

/-- The shared scan after a step. -/
def step (c : SharedScan) : Step → SharedScan
  | .perform r => { c with scan := (c.scan.perform r).2 }
  | .lookUp pair =>
    { scan := (c.scan.lookUp pair).2
      pending := if (c.scan.lookUp pair).1.isSome then c.pending else pair :: c.pending }
  | .fill pair => { scan := (c.scan.fill pair).2, pending := c.pending.erase pair }

/-- The step can be taken. The table is free for a change when no question is pending; a
question for an ID and itself does not reach the memo; and what is filled in was looked up. -/
def Allows (c : SharedScan) : Step → Prop
  | .perform r => r.writes = true → c.pending = []
  | .lookUp pair => pair.source ≠ pair.target
  | .fill pair => pair ∈ c.pending

instance (c : SharedScan) (e : Step) : Decidable (c.Allows e) := by
  cases e <;> unfold Allows <;> infer_instance

/-- The step fills in a pair that the memo holds already. -/
def refillsBy (c : SharedScan) : Step → Bool
  | .fill pair => (c.scan.memo.peek? pair).isSome
  | _ => false

/-! ### Runs -/

/-- The shared scan after some steps. -/
def run (c : SharedScan) (steps : List Step) : SharedScan :=
  steps.foldl step c

/-- The steps of a run, each with the shared scan that it is taken in. -/
def trace : SharedScan → List Step → List (SharedScan × Step)
  | _, [] => []
  | c, e :: steps => (c, e) :: trace (c.step e) steps

/-- Every step of the run can be taken when its turn comes. -/
def Legal (c : SharedScan) (steps : List Step) : Prop :=
  ∀ p ∈ c.trace steps, p.1.Allows p.2

/-- No pair is looked up while a question for it is pending. -/
def Apart (c : SharedScan) (steps : List Step) : Prop :=
  ∀ p ∈ c.trace steps, ∀ pair ∈ p.2.asked?, pair ∉ p.1.pending

/-- How often the run fills in a pair that the memo holds already. -/
def refills (c : SharedScan) (steps : List Step) : Nat :=
  (c.trace steps).countP fun p => p.1.refillsBy p.2

instance (c : SharedScan) (steps : List Step) : Decidable (c.Legal steps) :=
  inferInstanceAs (Decidable (∀ _ ∈ _, _))

instance (c : SharedScan) (steps : List Step) : Decidable (c.Apart steps) :=
  inferInstanceAs (Decidable (∀ _ ∈ _, _))

section Cons

variable {c : SharedScan} {e : Step} {steps : List Step}

theorem run_cons : c.run (e :: steps) = (c.step e).run steps := rfl

theorem legal_cons : c.Legal (e :: steps) ↔ c.Allows e ∧ (c.step e).Legal steps :=
  List.forall_mem_cons

theorem apart_cons : c.Apart (e :: steps) ↔
    (∀ pair ∈ e.asked?, pair ∉ c.pending) ∧ (c.step e).Apart steps :=
  List.forall_mem_cons

theorem refills_cons : c.refills (e :: steps) =
    (c.step e).refills steps + if c.refillsBy e then 1 else 0 :=
  List.countP_cons

end Cons

/-- **Whole requests are a sequential run.** They can always be taken, nothing is ever pending,
and nothing is filled in twice. -/
theorem run_requests (s : Scan) (requests : List Request) :
    let c : SharedScan := { scan := s }
    c.run (requests.map .perform) = { scan := s.run requests } ∧
    c.Legal (requests.map .perform) ∧ c.refills (requests.map .perform) = 0 := by
  induction requests generalizing s with
  | nil => exact ⟨rfl, List.forall_mem_nil _, rfl⟩
  | cons r requests ih =>
    obtain ⟨hrun, hlegal, hrefills⟩ := ih (s.perform r).2
    exact ⟨hrun, legal_cons.2 ⟨fun _ => rfl, hlegal⟩, refills_cons.trans hrefills⟩

/-! ### The table of a pending question -/

end SharedScan

theorem Scan.table_perform_of_reads (s : Scan) {r : Request} (h : r.writes = false) :
    (s.perform r).2.table = s.table := by
  rw [perform_table]
  cases r with
  | distance source target =>
    rw [Request.edits]
    split_ifs <;> rfl
  | _ => first | rfl | cases h

/-- A request that does not write uses the memo only for the pair that it looks up. -/
theorem Scan.memo_perform_of_reads (s : Scan) {r : Request} (h : r.writes = false) :
    (s.perform r).2.memo = r.asked?.elim s.memo fun pair =>
      s.memo.consult pair (s.table.distance? pair.source pair.target) := by
  have hmemo : (s.perform r).2.memo = (r.edits.foldl Edit.apply s.core).memo :=
    congrArg Core.memo (perform_core s r)
  rw [hmemo]
  cases r with
  | distance source target =>
    rw [Request.edits, Request.asked?]
    split_ifs <;> rfl
  | _ => first | rfl | cases h

namespace SharedScan

variable {c : SharedScan} {e : Step}

theorem writes_eq_false {r : Request} (hallows : c.Allows (.perform r)) (hpending : c.pending ≠ []) :
    r.writes = false :=
  Bool.eq_false_iff.2 fun h => hpending (hallows h)

/-- **The table stays as it is while a question is pending.** -/
theorem table_step (hallows : c.Allows e) (hpending : c.pending ≠ []) :
    (c.step e).scan.table = c.scan.table := by
  cases e with
  | perform r => exact c.scan.table_perform_of_reads (writes_eq_false hallows hpending)
  | lookUp pair => exact Scan.enter_table c.scan
  | fill pair => rfl

/-- So a distance that is filled in was measured on the table that its pair was looked up in. -/
theorem table_run {steps : List Step} (hlegal : c.Legal steps)
    (hpending : ∀ p ∈ c.trace steps, p.1.pending ≠ []) :
    (c.run steps).scan.table = c.scan.table := by
  induction steps generalizing c with
  | nil => rfl
  | cons e steps ih =>
    obtain ⟨hallows, hlegal⟩ := legal_cons.1 hlegal
    obtain ⟨hfirst, hpending⟩ := List.forall_mem_cons.1 hpending
    rw [run_cons, ih hlegal hpending, table_step hallows hfirst]

end SharedScan

/-! ### Questions that are apart -/

namespace Memo

variable {m : Memo} {pair asked : Endpoints}

theorem peek?_find_of_none (h : m.peek? pair = none) (asked : Endpoints) :
    (m.find asked).2.peek? pair = none := by
  rw [peek?_eq_none_iff, mem_keys_iff] at h ⊢
  rintro ⟨d, hd⟩
  exact h ⟨d, m.entries_find_subset asked hd⟩

theorem peek?_write_of_none (h : m.peek? pair = none) (hne : pair ≠ asked) (d : Option ℕ) :
    (m.write asked d).1.peek? pair = none := by
  rw [peek?_eq_none_iff, mem_keys_iff] at h ⊢
  rintro ⟨d', hd'⟩
  rcases mem_entries_write hd' with heq | ⟨hold, -⟩
  · exact hne (congrArg Prod.fst heq)
  · exact h ⟨d', hold⟩

theorem peek?_consult_of_none (h : m.peek? pair = none) (hne : pair ≠ asked) (d : Option ℕ) :
    (m.consult asked d).peek? pair = none := by
  have hfind := peek?_find_of_none h asked
  rw [consult]
  split <;> rename_i heq <;> rw [heq] at hfind
  · exact hfind
  · exact peek?_write_of_none hfind hne d

end Memo

namespace SharedScan

variable {c : SharedScan} {e : Step} {steps : List Step}

/-- The pending questions are for different pairs, and the memo holds none of these. -/
structure Separate (c : SharedScan) : Prop where
  nodup : c.pending.Nodup
  unheld : ∀ pair ∈ c.pending, c.scan.memo.peek? pair = none

/-- **A step that looks up no pending pair keeps the questions separate.** -/
theorem Separate.step (h : c.Separate) (hallows : c.Allows e)
    (hapart : ∀ pair ∈ e.asked?, pair ∉ c.pending) : (c.step e).Separate := by
  cases e with
  | perform r =>
    refine ⟨h.nodup, fun pair (hpair : pair ∈ c.pending) => ?_⟩
    have hreads := writes_eq_false hallows (List.ne_nil_of_mem hpair)
    have hunheld := h.unheld pair hpair
    show (c.scan.perform r).2.memo.peek? pair = none
    rw [Scan.memo_perform_of_reads _ hreads]
    cases hasked : r.asked? with
    | none => exact hunheld
    | some asked =>
      have hne : pair ≠ asked := fun heq => hapart asked hasked (heq ▸ hpair)
      exact Memo.peek?_consult_of_none hunheld hne _
  | lookUp asked =>
    have hunheld : ∀ pair ∈ c.pending, (c.scan.lookUp asked).2.memo.peek? pair = none := by
      intro pair hpair
      refine Memo.peek?_find_of_none ?_ asked
      rw [Scan.enter_memo]
      exact h.unheld pair hpair
    simp only [SharedScan.step]
    split_ifs with hfound
    · exact ⟨h.nodup, hunheld⟩
    · refine ⟨List.nodup_cons.2 ⟨hapart asked rfl, h.nodup⟩, fun pair hpair => ?_⟩
      rcases List.mem_cons.1 hpair with rfl | hpair
      · refine Memo.peek?_find_of_none ?_ pair
        rw [← Memo.find_fst]
        exact Option.not_isSome_iff_eq_none.1 hfound
      · exact hunheld pair hpair
  | fill asked =>
    refine ⟨h.nodup.erase asked, fun pair hpair => ?_⟩
    obtain ⟨hne, hpair⟩ := h.nodup.mem_erase_iff.1 hpair
    exact Memo.peek?_write_of_none (h.unheld pair hpair) hne _

/-- **Questions that are apart fill in no pair twice.** -/
theorem Apart.refills (hapart : c.Apart steps) (hlegal : c.Legal steps) (h : c.Separate) :
    c.refills steps = 0 := by
  induction steps generalizing c with
  | nil => rfl
  | cons e steps ih =>
    obtain ⟨hallows, hlegal⟩ := legal_cons.1 hlegal
    obtain ⟨hunasked, hapart⟩ := apart_cons.1 hapart
    have hfirst : c.refillsBy e = false := by
      cases e with
      | fill pair => rw [refillsBy, h.unheld pair hallows]; rfl
      | _ => rfl
    rw [refills_cons, ih hapart hlegal (h.step hallows hunasked), hfirst]
    rfl

end SharedScan
end TaintGraph
