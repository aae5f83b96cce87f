/-
# Tables of TOML

A document is a tree of tables. How a table came to be decides what may be added
to it later: one that only a longer header or a dotted key has named may still be
extended, one with a header of its own or between braces is closed to dotted keys,
and nothing may be defined twice.

Key definitions: `Toml.Item`, `Toml.Form`, `Toml.addPair?`, `Toml.addHeader?`,
`Toml.addArrayHeader?`, `Toml.within?`.
-/
import TaintGraph.Toml.Number

namespace TaintGraph
namespace Toml

/-- How a table came to be. -/
inductive Form where
  /-- By its own header. -/
  | header
  /-- As the parent of a table with a header. -/
  | implied
  /-- By a dotted key. -/
  | dotted
  /-- Between braces. -/
  | inline
  deriving DecidableEq, Repr

/-- What a key stands for. -/
inductive Item where
  /-- A text. -/
  | text (s : String)
  /-- A number. -/
  | number (n : Number)
  /-- A truth value. -/
  | bool (b : Bool)
  /-- A date or a time, as spelled. -/
  | moment (lexeme : List Char)
  /-- An array. -/
  | array (items : List Item)
  /-- A table. -/
  | table (form : Form) (entries : List (String × Item))
  /-- Tables with one repeated header, the latest first. -/
  | tables (elements : List (List (String × Item)))
  deriving Inhabited

/-- The entries of a table, in the order they were added. -/
abbrev Entries := List (String × Item)

/-- Replace what a key stands for. -/
def replace (key : String) (item : Item) (entries : Entries) : Entries :=
  entries.map fun e => if e.1 = key then (key, item) else e

/-- Add a key with its item below a path of dotted keys. Every table on the path
is new or has no header of its own, and the last one has been named by dotted
keys only. -/
def addPair? (key : String) (item : Item) : (path : List String) → Entries → Option Entries
  | [], entries =>
    match entries.lookup key with
    | none => some (entries ++ [(key, item)])
    | some _ => none
  | k :: path, entries =>
    match entries.lookup k with
    | none => do
      let child ← addPair? key item path []
      return entries ++ [(k, .table .dotted child)]
    | some (.table .dotted child) => do
      return replace k (.table .dotted (← addPair? key item path child)) entries
    | some (.table .implied child) =>
      if path.isEmpty then none
      else do return replace k (.table .implied (← addPair? key item path child)) entries
    | some (.tables (last :: earlier)) =>
      if path.isEmpty then none
      else do return replace k (.tables ((← addPair? key item path last) :: earlier)) entries
    | some _ => none

/-- Follow the path of a header and change the table at its end. Tables on the
path are made as needed; of a repeated header the latest table is meant. -/
def within? (change : Entries → Option Entries) : (path : List String) → Entries → Option Entries
  | [], entries => change entries
  | k :: path, entries =>
    match entries.lookup k with
    | none => do
      let child ← within? change path []
      return entries ++ [(k, .table .implied child)]
    | some (.table .inline _) => none
    | some (.table form child) => do
      return replace k (.table form (← within? change path child)) entries
    | some (.tables (last :: earlier)) => do
      return replace k (.tables ((← within? change path last) :: earlier)) entries
    | some _ => none

/-- Give a table its header. It is new, or so far only the parent of others. -/
def addHeader? (key : String) (entries : Entries) : Option Entries :=
  match entries.lookup key with
  | none => some (entries ++ [(key, .table .header [])])
  | some (.table .implied child) => some (replace key (.table .header child) entries)
  | some _ => none

/-- Add a table to those of a repeated header. -/
def addArrayHeader? (key : String) (entries : Entries) : Option Entries :=
  match entries.lookup key with
  | none => some (entries ++ [(key, .tables [[]])])
  | some (.tables elements) => some (replace key (.tables ([] :: elements)) entries)
  | some _ => none

end Toml
end TaintGraph
