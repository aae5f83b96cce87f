/-
# Reading source files into a scan

A reader of one source file declares the functions and methods it finds and the
calls they make. Which called functions are sinks is decided by a registry,
given once for all files: a call of a sink makes it known as one even when no
file defines it. A catalogue of names is one such registry.

Key definitions: `SinkRegistry`, `SinkCatalog`, `SourceFile`, `Target`, `Site`,
`SourceFile.declareFunction`, `SourceFile.declareMethod`, `SourceFile.recordCall`.
-/
import TaintGraph.Scan.Basic

namespace TaintGraph

/-- Decides what is a sink: a method, when a class is given, or a free function. -/
abbrev SinkRegistry := (cls : Option String) → (name : String) → Bool

/-- The functions and methods that are sinks. -/
structure SinkCatalog where
  /-- Names of free functions, each once. -/
  functions : List String := []
  /-- Classes and names of methods, each pair once. -/
  methods : List (String × String) := []

namespace SinkCatalog

/-- List a free function. -/
def addFunction (name : String) (k : SinkCatalog) : SinkCatalog :=
  { k with functions := k.functions.insert name }

/-- List a method. -/
def addMethod (cls name : String) (k : SinkCatalog) : SinkCatalog :=
  { k with methods := k.methods.insert (cls, name) }

/-- The catalogue of the given functions and methods. -/
def ofLists (functions : List String) (methods : List (String × String)) : SinkCatalog :=
  methods.foldl (fun k m => k.addMethod m.1 m.2)
    (functions.foldl (fun k name => k.addFunction name) {})

/-- How many functions and methods are listed. -/
def size (k : SinkCatalog) : Nat :=
  k.functions.length + k.methods.length

/-- Whether a free function or, when a class is given, a method of that class is
listed. A function is not found under a class, nor a method without its own. -/
def isSink (k : SinkCatalog) : SinkRegistry
  | some cls, name => k.methods.contains (cls, name)
  | none, name => k.functions.contains name

end SinkCatalog

/-- What a call names. -/
structure Target where
  /-- The name of the function or method. -/
  name : String
  /-- The class, for a method. -/
  className : Option String := none
  /-- The file that defines it; `none` for the calling file. -/
  definedIn : Option String := none

/-- What the reader sees at a call. -/
structure Site where
  /-- The line. -/
  line : UInt32 := 0
  /-- The column. -/
  column : UInt32 := 0
  /-- How many arguments are passed. -/
  arguments : UInt32 := 0
  /-- How many branches the call stands under. -/
  branchDepth : UInt32 := 0
  /-- Whether the call stands inside a loop. -/
  inLoop : Bool := false

/-- A source file being read. -/
structure SourceFile where
  /-- Its path. -/
  path : String
  /-- Its language. -/
  language : String := ""

namespace SourceFile

/-- A free function found in the file. -/
def function (f : SourceFile) (name : String) (line : UInt32) (role : Role) : Callable :=
  { Callable.function f.path name role with line, language := f.language }

/-- A method found in the file. -/
def method (f : SourceFile) (cls name : String) (line : UInt32) (role : Role) : Callable :=
  { Callable.method f.path cls name role with line, language := f.language }

/-- The file that defines what a call in this file names. -/
def definingFile (f : SourceFile) (t : Target) : String :=
  t.definedIn.getD f.path

/-- The ID of what a call in this file names. -/
def targetId (f : SourceFile) (t : Target) : String :=
  callableId (f.definingFile t) t.className t.name

/-- The sink that a call in this file names. -/
def targetSink (f : SourceFile) (t : Target) : Callable :=
  { id := f.targetId t
    name := t.name
    file := f.definingFile t
    language := f.language
    className := t.className
    role := .sink }

/-- A call found in the file. -/
def call (f : SourceFile) (caller : String) (t : Target) (site : Site) : Call :=
  ((({ caller, callee := f.targetId t : Call }.atSite f.path site.line site.column).withArguments
    site.arguments).underBranches site.branchDepth).looped site.inLoop

/-- Add a free function found in the file. -/
def declareFunction (f : SourceFile) (name : String) (line : UInt32) (role : Role) (s : Scan) :
    Scan :=
  s.add (f.function name line role)

/-- Add a method found in the file. -/
def declareMethod (f : SourceFile) (cls name : String) (line : UInt32) (role : Role) (s : Scan) :
    Scan :=
  s.add (f.method cls name line role)

/-- Make the callee of a call known when the registry says that it is a sink. -/
def registerTarget (k : SinkRegistry) (f : SourceFile) (t : Target) (s : Scan) : Scan :=
  if k t.className t.name then
    match s.addIfAbsent (f.targetSink t) with
    | (true, s) => s.report [.sinkRegistered (f.targetId t)]
    | (false, s) => s
  else s

/-- Record a call found in the file; a callee that the registry says is a sink
becomes known as one first. -/
def recordCall (k : SinkRegistry) (f : SourceFile) (caller : String) (t : Target) (site : Site)
    (s : Scan) : Scan :=
  (registerTarget k f t s).addCall (f.call caller t site)

end SourceFile

end TaintGraph
