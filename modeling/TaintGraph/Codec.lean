/-
# The JSON form of callables, calls, limits and counts

Reading checks types and ranges only: positions, argument counts and distances
fit 32 bits, limits and counts fit 64. What the limits mean is not checked here.

Key definitions: `Role.toJson`, `Callable.toJson`, `Call.toJson`, `Limits.toJson`,
`Census.toJson`, and `ofJson?` of the same types.
-/
import TaintGraph.Call
import TaintGraph.Callable
import TaintGraph.Census
import TaintGraph.Json.Record
import TaintGraph.Limits

namespace TaintGraph

open Json (required optional withDefault)

/-- The role in JSON. -/
def Role.key : Role → String
  | .regular => "Regular"
  | .entryPoint => "EntryPoint"
  | .source => "Source"
  | .sink => "Sink"

/-- The role with the given key. -/
def Role.ofKey? (key : String) : Option Role :=
  [Role.regular, .entryPoint, .source, .sink].find? fun r => r.key = key

/-- The role as JSON. -/
def Role.toJson (r : Role) : Json :=
  .ofString r.key

/-- Read a role: its key, or an object with that single key and null. -/
def Role.ofJson? : Json → Option Role
  | .obj [(key, .null)] => (Json.string? (.str key)).bind Role.ofKey?
  | j => j.string?.bind Role.ofKey?

/-- The fields of a callable. -/
def Callable.fields : List String :=
  ["id", "name", "file_path", "line", "language", "class_name", "is_public", "signature", "kind",
    "distance_from_entry", "distance_to_sink"]

/-- The values of these fields. -/
def Callable.values (c : Callable) : List Json :=
  [.ofString c.id, .ofString c.name, .ofString c.file, .ofNat c.line.toNat, .ofString c.language,
    .ofOption .ofString c.className, .bool c.isPublic, .ofString c.signature, c.role.toJson,
    .ofOption .ofNat c.fromEntry, .ofOption .ofNat c.toSink]

/-- The callable as JSON. -/
def Callable.toJson (c : Callable) : Json :=
  .object (Callable.fields.zip c.values)

/-- Read a callable. The class and the distances may be missing. -/
def Callable.ofJson? (j : Json) : Option Callable := do
  match ← j.fields? Callable.fields with
  | [id, name, file, line, language, className, isPublic, signature, role, fromEntry, toSink] =>
    return {
      id := ← required Json.string? id
      name := ← required Json.string? name
      file := ← required Json.string? file
      line := ← required Json.word32? line
      language := ← required Json.string? language
      className := ← optional Json.string? className
      isPublic := ← required Json.bool? isPublic
      signature := ← required Json.string? signature
      role := ← required Role.ofJson? role
      fromEntry := ← optional (Json.natBelow? UInt32.size) fromEntry
      toSink := ← optional (Json.natBelow? UInt32.size) toSink }
  | _ => none

/-- The fields of a call. -/
def Call.fields : List String :=
  ["caller_id", "callee_id", "file_path", "line", "column", "argument_count", "is_conditional",
    "in_loop", "branch_depth"]

/-- The values of these fields. -/
def Call.values (c : Call) : List Json :=
  [.ofString c.caller, .ofString c.callee, .ofString c.file, .ofNat c.line.toNat,
    .ofNat c.column.toNat, .ofNat c.arguments.toNat, .bool c.isConditional, .bool c.inLoop,
    .ofNat c.branchDepth.toNat]

/-- The call as JSON. -/
def Call.toJson (c : Call) : Json :=
  .object (Call.fields.zip c.values)

/-- Read a call. -/
def Call.ofJson? (j : Json) : Option Call := do
  match ← j.fields? Call.fields with
  | [caller, callee, file, line, column, arguments, isConditional, inLoop, branchDepth] =>
    return {
      caller := ← required Json.string? caller
      callee := ← required Json.string? callee
      file := ← required Json.string? file
      line := ← required Json.word32? line
      column := ← required Json.word32? column
      arguments := ← required Json.word32? arguments
      isConditional := ← required Json.bool? isConditional
      inLoop := ← required Json.bool? inLoop
      branchDepth := ← required Json.word32? branchDepth }
  | _ => none

/-- The fields of the limits. -/
def Limits.fields : List String :=
  [Limit.key .pathLength, Limit.key .distances, Limit.key .paths]

/-- The values of these fields. -/
def Limits.values (l : Limits) : List Json :=
  [.ofNat l.maxPathLength, .ofNat l.maxDistances, .ofNat l.maxPaths]

/-- The limits as JSON. -/
def Limits.toJson (l : Limits) : Json :=
  .object (Limits.fields.zip l.values)

/-- Read limits. A limit that is missing has its default. -/
def Limits.ofJson? (j : Json) : Option Limits := do
  let default : Limits := {}
  match ← j.leadingFields? Limits.fields with
  | [maxPathLength, maxDistances, maxPaths] =>
    return {
      maxPathLength := ← withDefault default.maxPathLength (Json.natBelow? UInt64.size) maxPathLength
      maxDistances := ← withDefault default.maxDistances (Json.natBelow? UInt64.size) maxDistances
      maxPaths := ← withDefault default.maxPaths (Json.natBelow? UInt64.size) maxPaths }
  | _ => none

/-- The fields of a census. -/
def Census.fields : List String :=
  ["total_nodes", "total_edges", "entry_points", "sources", "sinks", "reachable_from_entry",
    "cached_distances", "cache_hits", "cache_misses"]

/-- The values of these fields. -/
def Census.values (c : Census) : List Json :=
  [c.callables, c.calls, c.entryPoints, c.sources, c.sinks, c.reachable, c.cached, c.hits,
    c.misses].map .ofNat

/-- The census as JSON. -/
def Census.toJson (c : Census) : Json :=
  .object (Census.fields.zip c.values)

/-- Read a census. -/
def Census.ofJson? (j : Json) : Option Census := do
  let values ← (← j.fields? Census.fields).mapM (required (Json.natBelow? UInt64.size))
  match values with
  | [callables, calls, entryPoints, sources, sinks, reachable, cached, hits, misses] =>
    return { callables, calls, entryPoints, sources, sinks, reachable, cached, hits, misses }
  | _ => none

end TaintGraph
