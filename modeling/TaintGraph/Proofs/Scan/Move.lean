/-
# Requests as moves

`TaintGraph.Proofs.Scan.Edit` says what a request does to table and memo. The journal
is left out there, since no answer depends on it. This module follows the whole scan,
and says less: a request is a sequence of *moves* (`Scan.moves_perform`), where a move
reports something that does not concern the memo, changes the table, notes that a writer
has failed, drops the distances from one source, or asks the memo for one distance. The
last two also report what the memo gives up. What every move keeps, every run keeps
(`Scan.Moves.keeps`, `Scan.moves_run`).

Key definitions: `Event.ofMemo`, `Scan.consult`, `Scan.Move`.
Key theorems: `Scan.moves_perform`, `Scan.moves_run`.
-/
import Mathlib.Logic.Relation
import TaintGraph.Proofs.Scan.Edit

namespace TaintGraph

/-- The event says that the memo gave up entries. -/
def Event.ofMemo : Event → Bool
  | .evicted _ | .invalidated _ _ => true
  | _ => false

namespace Scan

/-- Ask the memo for a pair. On a miss it takes the given distance, and what it pushes
out for it is reported. -/
def consult (pair : Endpoints) (d : Option Nat) (s : Scan) : Scan :=
  match s.memo.find pair with
  | (some _, memo) => { s with memo }
  | (none, memo) => { s with memo := (memo.write pair d).1 }.report (memo.write pair d).2

theorem distance_snd {source target : String} (h : source ≠ target) (s : Scan) :
    (s.distance source target).2 =
      s.enter.consult ⟨source, target⟩ (s.table.distance? source target) := by
  rw [← enter_table s]
  simp only [distance, if_neg h, lookUp, fill, consult]
  obtain ⟨found, memo⟩ := s.enter.memo.find ⟨source, target⟩
  cases found <;> rfl

/-- One move of a scan. -/
inductive Move (s : Scan) : Scan → Prop
  /-- Report something that does not concern the memo. -/
  | report (e : Event) (h : e.ofMemo = false) : Move s (s.report [e])
  /-- Change the table. -/
  | setTable (t : CallTable) : Move s { s with table := t }
  /-- Note that a writer has failed. -/
  | poison : Move s { s with poisoned := true }
  /-- Drop the distances from a source. -/
  | forget (source : String) : Move s (s.forget source)
  /-- Ask the memo for a distance. -/
  | consult (pair : Endpoints) (d : Option Nat) : Move s (s.consult pair d)

/-- Any number of moves. -/
def Moves : Scan → Scan → Prop :=
  Relation.ReflTransGen Move

/-- What every move keeps, any number of moves keeps. -/
theorem Moves.keeps {P : Scan → Prop} (hmove : ∀ s s', Move s s' → P s → P s') {s s' : Scan}
    (h : Moves s s') (hs : P s) : P s' := by
  induction h with
  | refl => exact hs
  | tail _ hlast ih => exact hmove _ _ hlast ih

/-! ### Every request is a sequence of moves -/

theorem moves_enter (s : Scan) : Moves s s.enter := by
  unfold enter
  split
  · exact .single (.report .recovered rfl)
  · exact .refl

theorem moves_forgetAll (sources : List String) (s : Scan) : Moves s (s.forgetAll sources) := by
  induction sources generalizing s with
  | nil => exact .refl
  | cons source sources ih =>
    have hfirst : Moves s (s.forget source) := .single (.forget source)
    exact hfirst.trans (ih (s.forget source))

theorem moves_put (c : Callable) (s : Scan) : Moves s (s.put c) :=
  .head (.setTable _) (moves_forgetAll _ _)

theorem moves_add (c : Callable) (s : Scan) : Moves s (s.add c) :=
  (moves_enter s).trans (moves_put c s.enter)

theorem moves_addIfAbsent (c : Callable) (s : Scan) : Moves s (s.addIfAbsent c).2 := by
  unfold addIfAbsent
  split
  · exact moves_enter s
  · exact moves_add c s

theorem moves_addCall (c : Call) (s : Scan) : Moves s (s.addCall c) :=
  ((moves_enter s).tail (.setTable _)).trans (moves_forgetAll _ _)

theorem moves_registerTarget (k : SinkRegistry) (f : SourceFile) (t : Target) (s : Scan) :
    Moves s (SourceFile.registerTarget k f t s) := by
  have hoffer := moves_addIfAbsent (f.targetSink t) s
  unfold SourceFile.registerTarget
  split
  · split <;> rename_i heq <;> rw [heq] at hoffer
    · exact hoffer.tail (.report _ rfl)
    · exact hoffer
  · exact .refl

theorem moves_pass (d : Direction) (s : Scan) : Moves s (s.pass d).2 :=
  ((moves_enter s).tail (.setTable _)).tail (.report _ rfl)

theorem moves_distance (source target : String) (s : Scan) :
    Moves s (s.distance source target).2 := by
  by_cases h : source = target
  · rw [distance, if_pos h]
    exact .refl
  · rw [distance_snd h]
    exact (moves_enter s).tail (.consult _ _)

theorem moves_chainsToSinks (source : String) (maxDepth : Nat) (s : Scan) :
    Moves s (s.chainsToSinks source maxDepth).2 := by
  unfold chainsToSinks
  simp only
  split
  · exact (moves_enter s).tail (.report _ rfl)
  · exact moves_enter s

/-- **A request is a sequence of moves.** -/
theorem moves_perform (s : Scan) (r : Request) : Moves s (s.perform r).2 := by
  cases r with
  | add c | declareFunction f name line role | declareMethod f cls name line role =>
    exact moves_add _ s
  | addIfAbsent c => exact moves_addIfAbsent c s
  | addCall c => exact moves_addCall c s
  | recordCall k f caller t site =>
    exact (moves_registerTarget k f t s).trans (moves_addCall _ _)
  | entryPass => exact moves_pass .fromEntry s
  | sinkPass => exact moves_pass .toSink s
  | failingEntryPass => exact (moves_pass .fromEntry s).tail .poison
  | distance source target => exact moves_distance source target s
  | chainsToSinks source maxDepth => exact moves_chainsToSinks source _ s
  | limits => exact .refl
  | _ => exact moves_enter s

theorem moves_run (s : Scan) (requests : List Request) : Moves s (s.run requests) := by
  induction requests generalizing s with
  | nil => exact .refl
  | cons r requests ih => exact (moves_perform s r).trans (ih _)

end Scan
end TaintGraph
