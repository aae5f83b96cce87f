/-
# Callables

A callable is a function or a method of the scanned code. Its ID joins the
file, the class if there is one, and the name; every table of this library
is keyed by that ID. The role says what part the callable plays in a taint
scan, and the two distances are what the passes of `TaintGraph.Scan.Distance`
last wrote: hops from the nearest entry point, hops to the nearest sink.

Key definitions: `Role`, `Direction`, `Callable`, `functionId`, `methodId`,
`Callable.reset`.
-/

namespace TaintGraph

/-- The part a callable plays in a taint scan. -/
inductive Role where
  /-- No special part. -/
  | regular
  /-- Callable from outside: data an attacker controls arrives here. -/
  | entryPoint
  /-- Produces tainted data. -/
  | source
  /-- Does something dangerous with its arguments. -/
  | sink
  deriving DecidableEq, Repr, Inhabited

/-- The role in the words of a report. -/
def Role.label : Role → String
  | .regular => "regular"
  | .entryPoint => "entry_point"
  | .source => "source"
  | .sink => "sink"

/-- A way of measuring how far a callable is. -/
inductive Direction where
  /-- Hops from the nearest entry point. -/
  | fromEntry
  /-- Hops to the nearest sink. -/
  | toSink
  deriving DecidableEq, Repr

/-- The role of the callables that are no hop away. -/
def Direction.role : Direction → Role
  | .fromEntry => .entryPoint
  | .toSink => .sink

/-- The ID of a free function of `file`. -/
def functionId (file name : String) : String :=
  file ++ ":" ++ name

/-- The ID of a method of `cls` in `file`. -/
def methodId (file cls name : String) : String :=
  file ++ ":" ++ cls ++ "::" ++ name

/-- The ID of a function or, when a class is given, of a method. -/
def callableId (file : String) (cls : Option String) (name : String) : String :=
  match cls with
  | none => functionId file name
  | some cls => methodId file cls name

/-- A function or method of the scanned code. -/
structure Callable where
  /-- The key under which the callable is stored. -/
  id : String
  /-- The bare name, without file and class. -/
  name : String
  /-- The file that defines it. -/
  file : String := ""
  /-- The line of its definition. -/
  line : UInt32 := 0
  /-- The language of that file. -/
  language : String := ""
  /-- The class, for a method. -/
  className : Option String := none
  /-- Visible outside its file or class. -/
  isPublic : Bool := false
  /-- The signature as written. -/
  signature : String := ""
  /-- Its part in the scan. -/
  role : Role := .regular
  /-- Hops from the nearest entry point; `none` when not reached. -/
  fromEntry : Option Nat := none
  /-- Hops to the nearest sink; `none` when it reaches none. -/
  toSink : Option Nat := none
  deriving DecidableEq, Repr

namespace Callable

/-- A free function of `file`. -/
def function (file name : String) (role : Role) : Callable :=
  { id := functionId file name, name, file, role }

/-- A method of `cls` in `file`. -/
def method (file cls name : String) (role : Role) : Callable :=
  { id := methodId file cls name, name, file, role, className := some cls }

/-- Whether the callable is an entry point. -/
def isEntryPoint (c : Callable) : Bool :=
  c.role = .entryPoint

/-- Whether the callable is a sink. -/
def isSink (c : Callable) : Bool :=
  c.role = .sink

/-- The callable with the distances that its role alone gives: an entry point
is no hop away from itself, a sink no hop away from itself, and all else is
unknown until a pass runs. -/
def reset (c : Callable) : Callable :=
  { c with
    fromEntry := if c.isEntryPoint then some 0 else none
    toSink := if c.isSink then some 0 else none }

/-- The distance in one direction. -/
def hops (d : Direction) (c : Callable) : Option Nat :=
  match d with
  | .fromEntry => c.fromEntry
  | .toSink => c.toSink

/-- The callable with another distance in one direction. -/
def setHops (d : Direction) (n : Option Nat) (c : Callable) : Callable :=
  match d with
  | .fromEntry => { c with fromEntry := n }
  | .toSink => { c with toSink := n }

end Callable

end TaintGraph
