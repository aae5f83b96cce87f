/-
# Events

What a scan reports while it works, each with a level and a text. A scan keeps
its events in a journal, oldest first.

Key definitions: `Event`, `Event.level`, `Event.message`.
-/
import TaintGraph.Callable
import TaintGraph.Endpoints

namespace TaintGraph

/-- How much an event matters. -/
inductive Level where
  /-- Bookkeeping. -/
  | trace
  /-- The result of a larger step. -/
  | debug
  /-- Something went wrong and was repaired. -/
  | warn
  deriving DecidableEq, Repr

/-- The level in lower case. -/
def Level.label : Level → String
  | .trace => "trace"
  | .debug => "debug"
  | .warn => "warn"

/-- Something that happened during a scan. -/
inductive Event where
  /-- The memo was full and dropped its least recently used distance. -/
  | evicted (pair : Endpoints)
  /-- `count` memoised distances from `source` were dropped as stale. -/
  | invalidated (count : Nat) (source : String)
  /-- A call of a listed sink made the sink known. -/
  | sinkRegistered (id : String)
  /-- The pass in a direction ended. -/
  | pass (d : Direction) (seeds reached total : Nat)
  /-- An enumeration returned as many chains as it may. -/
  | enumerationStopped (source : String) (paths : Nat)
  /-- The graph was entered after a writer had failed. -/
  | recovered
  deriving DecidableEq, Repr

namespace Event

/-- How much the event matters. -/
def level : Event → Level
  | .evicted _ | .invalidated _ _ | .sinkRegistered _ => .trace
  | .pass _ _ _ _ | .enumerationStopped _ _ => .debug
  | .recovered => .warn

/-- The event in words. -/
def message : Event → String
  | .evicted pair => "distance cache evicted " ++ pair.label
  | .invalidated count source =>
    "distance cache invalidated " ++ toString count ++ " entries from " ++ source
  | .sinkRegistered id => "registered sink " ++ id
  | .pass .fromEntry seeds reached total =>
    "distance from " ++ toString seeds ++ " entry points: " ++ toString reached ++ "/"
      ++ toString total ++ " nodes reached"
  | .pass .toSink seeds reached total =>
    "distance to " ++ toString seeds ++ " sinks: " ++ toString reached ++ "/"
      ++ toString total ++ " nodes reach a sink"
  | .enumerationStopped source paths =>
    "path enumeration from " ++ source ++ " stopped at " ++ toString paths ++ " paths"
  | .recovered =>
    "call graph lock poisoned by a panicked thread, continuing with its state"

end Event

end TaintGraph
