/-
# Limits from a TOML document

The three limits are top-level keys of a document. A missing key has its default,
and keys and tables of other names are passed over. The document as a whole must
be TOML.

Key definitions: `Limits.ofToml`.
-/
import TaintGraph.Limits
import TaintGraph.Toml.Document

namespace TaintGraph

/-- The value of a limit in a document: its default when the key is missing. It
must be an integer that is not negative. -/
def Limit.read? (entries : Toml.Entries) (limit : Limit) (default : Nat) : Option Nat :=
  match entries.lookup limit.key with
  | none => some default
  | some (.number (.integer n)) => if 0 ≤ n then some n.toNat else none
  | some _ => none

/-- The limits that a document gives. -/
def Limits.ofEntries? (entries : Toml.Entries) : Option Limits := do
  let default : Limits := {}
  return {
    maxPathLength := ← Limit.read? entries .pathLength default.maxPathLength
    maxDistances := ← Limit.read? entries .distances default.maxDistances
    maxPaths := ← Limit.read? entries .paths default.maxPaths }

/-- Read limits from a TOML document. None of them may be zero. -/
def Limits.ofToml (text : String) : Except LimitsError Limits :=
  match Toml.parse? text >>= Limits.ofEntries? with
  | none => .error .unreadable
  | some limits => limits.check

end TaintGraph
