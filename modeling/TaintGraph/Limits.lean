/-
# Limits of a scan

Three limits bound what a scan may cost: the hops of an enumerated chain, the
number of memoised distances, and the number of enumerated chains. None may be
zero; `Limits.check` names the first one that is.

Key definitions: `Limits`, `Limit`, `Limits.check`, `LimitsError`.
-/

namespace TaintGraph

/-- What a scan may cost at most. -/
structure Limits where
  /-- Hops of an enumerated chain. -/
  maxPathLength : Nat := 50
  /-- Distances kept by the memo. -/
  maxDistances : Nat := 10000
  /-- Chains that one enumeration returns. -/
  maxPaths : Nat := 10000
  deriving DecidableEq, Repr, Inhabited

/-- Limits for graphs of many thousand callables: shorter and fewer chains,
and a larger memo. -/
def Limits.large : Limits :=
  { maxPathLength := 20, maxDistances := 50000, maxPaths := 1000 }

/-- The name of a limit. -/
inductive Limit where
  /-- `Limits.maxPathLength`. -/
  | pathLength
  /-- `Limits.maxDistances`. -/
  | distances
  /-- `Limits.maxPaths`. -/
  | paths
  deriving DecidableEq, Repr

/-- The key of the limit in configuration texts. -/
def Limit.key : Limit → String
  | .pathLength => "max_path_length"
  | .distances => "max_distance_cache"
  | .paths => "max_paths"

/-- Why a configuration is refused. -/
inductive LimitsError where
  /-- The text cannot be read as limits. -/
  | unreadable
  /-- The limit is zero. -/
  | zero (limit : Limit)
  deriving DecidableEq, Repr

/-- The error as shown to the user. -/
def LimitsError.message : LimitsError → String
  | .unreadable => "Config parse error"
  | .zero limit => "Invalid configuration: " ++ limit.key ++ " must be > 0"

/-- The first limit that is zero: the memo's is looked at first, then the
length of chains, then their number. -/
def Limits.zero? (l : Limits) : Option Limit :=
  if l.maxDistances = 0 then some .distances
  else if l.maxPathLength = 0 then some .pathLength
  else if l.maxPaths = 0 then some .paths
  else none

/-- The limits themselves, unless one of them is zero. -/
def Limits.check (l : Limits) : Except LimitsError Limits :=
  match l.zero? with
  | some limit => .error (.zero limit)
  | none => .ok l

end TaintGraph
