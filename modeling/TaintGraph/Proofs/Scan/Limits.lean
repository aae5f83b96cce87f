/-
# The limits of a scan never change

No move touches the limits that a scan was made with (`Scan.limits_move`), so no
request does (`Scan.limits_run`), and none of these is zero: a scan under such limits
is refused. So an enumeration may always return at least one chain
(`Scan.Reachable.maxPaths_pos`).

Limits that pass their check are not refused, and then it is a matter of storage
whether the scan is set up (`Scan.setUp_of_ofLimits`).

Key theorems: `Scan.limits_move`, `Scan.limits_run`,
`Scan.Reachable.maxPaths_pos`, `Scan.setUp_of_ofLimits`.
-/
import TaintGraph.Proofs.Scan.Move

namespace TaintGraph
namespace Scan

theorem limits_move {s s' : Scan} (h : Move s s') : s'.limits = s.limits := by
  cases h with
  | consult pair d =>
    unfold consult
    split <;> rfl
  | _ => rfl

theorem limits_moves {s s' : Scan} (h : Moves s s') : s'.limits = s.limits :=
  h.keeps (P := fun x => x.limits = s.limits) (fun _ _ hmove hs => (limits_move hmove).trans hs) rfl

theorem limits_perform (s : Scan) (r : Request) : (s.perform r).2.limits = s.limits :=
  limits_moves (moves_perform s r)

theorem limits_run (s : Scan) (requests : List Request) : (s.run requests).limits = s.limits :=
  limits_moves (moves_run s requests)

/-- No limit of an accepted scan is zero. -/
theorem zero?_of_ofLimits {limits : Limits} {s : Scan} (h : ofLimits limits = .ok s) :
    limits.zero? = none := by
  unfold ofLimits Limits.check at h
  cases hz : limits.zero? with
  | none => rfl
  | some limit =>
    rw [hz] at h
    cases h

theorem Reachable.maxPaths_pos {s : Scan} (h : s.Reachable) : 0 < s.limits.maxPaths := by
  obtain ⟨limits, start, requests, hstart, rfl⟩ := h
  have hzero := zero?_of_ofLimits hstart
  obtain ⟨-, rfl⟩ := ofLimits_eq_ok hstart
  rw [limits_run]
  refine Nat.pos_of_ne_zero fun hpaths => ?_
  have hpaths : limits.maxPaths = 0 := hpaths
  rw [Limits.zero?, if_pos hpaths] at hzero
  split at hzero
  · cases hzero
  · split at hzero <;> cases hzero

/-- Accepted limits are set up exactly when there is storage for as many distances. -/
theorem setUp_of_ofLimits {limits : Limits} {s : Scan} (h : ofLimits limits = .ok s)
    (room : Nat → Bool) : setUp room limits =
      if room limits.maxDistances then .ok s else .error (.noRoom limits.maxDistances) := by
  obtain ⟨hpos, rfl⟩ := ofLimits_eq_ok h
  rw [setUp, h]
  rfl

end Scan
end TaintGraph
