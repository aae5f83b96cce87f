/-
# Calls

One recorded call from a caller to a callee, with what the scanner saw at the
call site. Both ends are IDs: either may name a callable that is not known
yet, or never will be.

Key definitions: `Call`, `Call.atSite`, `Call.underBranches`.
-/

namespace TaintGraph

/-- A call of `callee` inside `caller`. -/
structure Call where
  /-- The ID of the calling callable. -/
  caller : String
  /-- The ID of the called one. -/
  callee : String
  /-- The file that holds the call. -/
  file : String := ""
  /-- The line of the call. -/
  line : UInt32 := 0
  /-- The column of the call. -/
  column : UInt32 := 0
  /-- How many arguments are passed. -/
  arguments : UInt32 := 0
  /-- The call stands under at least one branch. -/
  isConditional : Bool := false
  /-- The call stands inside a loop. -/
  inLoop : Bool := false
  /-- How many branches the call stands under. -/
  branchDepth : UInt32 := 0
  deriving DecidableEq, Repr

namespace Call

/-- The call placed at a position of `file`. -/
def atSite (file : String) (line column : UInt32) (c : Call) : Call :=
  { c with file, line, column }

/-- The call with `n` arguments. -/
def withArguments (n : UInt32) (c : Call) : Call :=
  { c with arguments := n }

/-- The call under `depth` branches; it is conditional when there is one. -/
def underBranches (depth : UInt32) (c : Call) : Call :=
  { c with isConditional := decide (0 < depth), branchDepth := depth }

/-- The call inside a loop, or not. -/
def looped (inLoop : Bool) (c : Call) : Call :=
  { c with inLoop }

end Call

end TaintGraph
