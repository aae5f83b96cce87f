/-
# TOML documents

A document is a sequence of statements: a header opens a table or adds one to a
repeated header, a pair adds an entry to the table opened last. A byte order mark
in front is passed over.

Key definitions: `Toml.Statement`, `Toml.statements?`, `Toml.Statement.apply?`,
`Toml.parse?`.
-/
import TaintGraph.Toml.Value

namespace TaintGraph
namespace Toml

/-- A statement of a document. -/
inductive Statement where
  /-- A key, with the path to its table, and its value. -/
  | pair (path : List String) (key : String) (item : Item)
  /-- Opens a table. -/
  | header (path : List String) (key : String)
  /-- Adds a table to those of a repeated header and opens it. -/
  | arrayHeader (path : List String) (key : String)

/-- Read the rest of a header after its opening bracket. -/
def header? : Reader Statement
  | '[' :: rest => do
    let ((path, key), rest) ← key? rest
    return (.arrayHeader path key, ← endLine? (← only? ']' (← only? ']' rest)))
  | text => do
    let ((path, key), rest) ← key? text
    return (.header path key, ← endLine? (← only? ']' rest))

/-- Read a pair with its line end. -/
def pair? : Reader Statement := fun text => do
  let ((path, key), rest) ← key? text
  let (item, rest) ← value? (skipBlank (← only? '=' rest))
  return (.pair path key item, ← endLine? rest)

/-- Read at most `steps` lines. -/
def statementsUpTo? : (steps : Nat) → List Char → Option (List Statement)
  | 0, _ => none
  | steps + 1, text =>
    match skipBlank text with
    | [] => some []
    | '#' :: rest => endLine? ('#' :: rest) >>= statementsUpTo? steps
    | '\n' :: rest => statementsUpTo? steps rest
    | '\r' :: '\n' :: rest => statementsUpTo? steps rest
    | '[' :: rest => do
      let (first, rest) ← header? rest
      return first :: (← statementsUpTo? steps rest)
    | text => do
      let (first, rest) ← pair? text
      return first :: (← statementsUpTo? steps rest)

/-- The statements of a text. Every line takes at least one character. -/
def statements? (text : List Char) : Option (List Statement) :=
  statementsUpTo? (text.length + 1) text

/-- A document being read. -/
structure Reading where
  /-- The entries outside all headers, and below them the whole tree. -/
  root : Entries := []
  /-- The path of the table opened last. -/
  current : List String := []

/-- Add what a statement says. -/
def Statement.apply? (r : Reading) : Statement → Option Reading
  | .pair path key item => do
    return { r with root := ← within? (addPair? key item path) r.current r.root }
  | .header path key => do
    return { root := ← within? (addHeader? key) path r.root, current := path ++ [key] }
  | .arrayHeader path key => do
    return { root := ← within? (addArrayHeader? key) path r.root, current := path ++ [key] }

/-- Pass over a byte order mark. -/
def skipMark : List Char → List Char
  | '\uFEFF' :: rest => rest
  | text => text

/-- The root table of a document. -/
def parse? (text : String) : Option Entries := do
  let statements ← statements? (skipMark text.toList)
  let reading ← statements.foldlM Statement.apply? {}
  return reading.root

end Toml
end TaintGraph
