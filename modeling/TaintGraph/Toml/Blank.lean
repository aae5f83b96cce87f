/-
# White space, comments and line ends of TOML

Blanks are spaces and tabs. A line ends with a line feed, which a carriage
return may precede, or with the text. A comment runs to the end of its line and
holds no control character but tabs.

Every reader of TOML here takes the characters that are left and returns what it
read with the characters after it, or nothing when the text is not TOML.

Key definitions: `Toml.Reader`, `Toml.skipBlank`, `Toml.newline?`, `Toml.endLine?`,
`Toml.skipLines?`.
-/

namespace TaintGraph
namespace Toml

/-- Reads something off the front of a text. -/
abbrev Reader (α : Type) := List Char → Option (α × List Char)

/-- A space or a tab. -/
def isBlank (c : Char) : Bool :=
  c = ' ' || c = '\t'

/-- A character that may stand in a comment: a tab or no control character. -/
def isPlain (c : Char) : Bool :=
  c = '\t' || (0x20 ≤ c.toNat && c.toNat ≠ 0x7F)

/-- Pass over blanks. -/
def skipBlank (text : List Char) : List Char :=
  text.dropWhile isBlank

/-- Pass over a comment, if there is one. -/
def skipComment : List Char → List Char
  | '#' :: rest => rest.dropWhile isPlain
  | text => text

/-- Pass over one line end. -/
def newline? : List Char → Option (List Char)
  | '\n' :: rest => some rest
  | '\r' :: '\n' :: rest => some rest
  | _ => none

/-- Pass over what may follow the end of a statement on its line: blanks, a
comment, and the line end. -/
def endLine? (text : List Char) : Option (List Char) :=
  match skipComment (skipBlank text) with
  | [] => some []
  | rest => newline? rest

/-- What `skipLines?` stands in. -/
inductive Gap where
  /-- Outside comments. -/
  | blank
  /-- Inside a comment. -/
  | comment

/-- Pass over blanks, line ends and comments. A comment needs a line end, and a
carriage return its line feed. -/
def skipLinesFrom : Gap → List Char → Option (List Char)
  | .blank, [] => some []
  | .comment, [] => none
  | _, '\r' :: '\n' :: rest => skipLinesFrom .blank rest
  | _, '\n' :: rest => skipLinesFrom .blank rest
  | .blank, '#' :: rest => skipLinesFrom .comment rest
  | .blank, c :: rest => if isBlank c then skipLinesFrom .blank rest else some (c :: rest)
  | .comment, c :: rest => if isPlain c then skipLinesFrom .comment rest else none

/-- Pass over blanks, line ends and comments between the items of an array. -/
def skipLines? (text : List Char) : Option (List Char) :=
  skipLinesFrom .blank text

end Toml
end TaintGraph
