/-
# Quoted text of TOML

A basic text stands between quotation marks and may hold escapes, a literal one
between apostrophes and holds none. Either may run over several lines when three
marks open and close it; then a line end right after the opening does not count,
and one or two marks may stand inside, also right before the closing three. In a
basic text of several lines a backslash before a line end removes that line end
and all blanks and line ends after it.

Key definitions: `Toml.basic?`, `Toml.literal?`, `Toml.longBasic?`,
`Toml.longLiteral?`, `Toml.quoted?`.
-/
import TaintGraph.Hex
import TaintGraph.Toml.Blank

namespace TaintGraph
namespace Toml

/-- The apostrophe. -/
def apostrophe : Char := '\x27'

/-- The character that a letter stands for after a backslash. -/
def shortEscape? : Char → Option Char
  | 'b' => some '\x08'
  | 't' => some '\t'
  | 'n' => some '\n'
  | 'f' => some '\x0c'
  | 'r' => some '\r'
  | '"' => some '"'
  | '\\' => some '\\'
  | _ => none

/-- The value of hexadecimal digits. -/
def hexNumber? (digits : List Char) : Option Nat :=
  (digits.mapM hexValue?).map fun values => values.foldl (fun n d => 16 * n + d) 0

/-- The character with the given number; surrogates are none. -/
def scalar? (n : Nat) : Option Char :=
  if h : n.isValidChar then some (Char.ofNatAux n h) else none

/-- The character that hexadecimal digits name. -/
def hexChar? (digits : List Char) : Option Char :=
  (hexNumber? digits).bind scalar?

/-- Put a character in front of what a reader returns. -/
def consResult (c : Char) (r : Option (List Char × List Char)) : Option (List Char × List Char) :=
  r.map fun (text, rest) => (c :: text, rest)

/-- Read a basic text of one line after its opening mark. -/
def basic? : Reader (List Char)
  | [] => none
  | '"' :: rest => some ([], rest)
  | '\\' :: 'u' :: a :: b :: c :: d :: rest =>
    match hexChar? [a, b, c, d] with
    | some x => consResult x (basic? rest)
    | none => none
  | '\\' :: 'U' :: a :: b :: c :: d :: e :: f :: g :: h :: rest =>
    match hexChar? [a, b, c, d, e, f, g, h] with
    | some x => consResult x (basic? rest)
    | none => none
  | '\\' :: c :: rest =>
    match shortEscape? c with
    | some x => consResult x (basic? rest)
    | none => none
  | c :: rest => if isPlain c ∧ c ≠ '\\' then consResult c (basic? rest) else none

/-- Read a literal text of one line after its opening mark. -/
def literal? : Reader (List Char)
  | [] => none
  | c :: rest =>
    if c = apostrophe then some ([], rest)
    else if isPlain c then consResult c (literal? rest)
    else none

/-- What the reader of a long basic text stands in. -/
inductive Fold where
  /-- Inside the text. -/
  | none
  /-- After a backslash and blanks; the line end is still to come. -/
  | pending
  /-- After a backslash and its line end. -/
  | open

/-- Read a long basic text. -/
def longBasicFrom : Fold → Reader (List Char)
  | _, [] => none
  -- The line end that a backslash removes, and the blanks and line ends after it.
  | .pending, '\r' :: '\n' :: rest => longBasicFrom .open rest
  | .pending, '\n' :: rest => longBasicFrom .open rest
  | .pending, c :: rest => if isBlank c then longBasicFrom .pending rest else none
  | .open, '\r' :: '\n' :: rest => longBasicFrom .open rest
  | .open, '\n' :: rest => longBasicFrom .open rest
  | .open, ' ' :: rest => longBasicFrom .open rest
  | .open, '\t' :: rest => longBasicFrom .open rest
  -- Up to two marks belong to the text when three more follow.
  | _, '"' :: '"' :: '"' :: '"' :: '"' :: rest => some (['"', '"'], rest)
  | _, '"' :: '"' :: '"' :: '"' :: rest => some (['"'], rest)
  | _, '"' :: '"' :: '"' :: rest => some ([], rest)
  | _, '"' :: rest => consResult '"' (longBasicFrom .none rest)
  | _, '\\' :: 'u' :: a :: b :: c :: d :: rest =>
    match hexChar? [a, b, c, d] with
    | some x => consResult x (longBasicFrom .none rest)
    | none => none
  | _, '\\' :: 'U' :: a :: b :: c :: d :: e :: f :: g :: h :: rest =>
    match hexChar? [a, b, c, d, e, f, g, h] with
    | some x => consResult x (longBasicFrom .none rest)
    | none => none
  | _, '\\' :: '\r' :: '\n' :: rest => longBasicFrom .open rest
  | _, '\\' :: '\n' :: rest => longBasicFrom .open rest
  | _, '\\' :: c :: rest =>
    if isBlank c then longBasicFrom .pending rest
    else
      match shortEscape? c with
      | some x => consResult x (longBasicFrom .none rest)
      | none => none
  | _, '\r' :: '\n' :: rest => consResult '\n' (longBasicFrom .none rest)
  | _, '\n' :: rest => consResult '\n' (longBasicFrom .none rest)
  | _, c :: rest => if isPlain c ∧ c ≠ '\\' then consResult c (longBasicFrom .none rest) else none

/-- Pass over a line end right after the opening of a long text. -/
def skipFirstNewline (text : List Char) : List Char :=
  (newline? text).getD text

/-- Read a long basic text after its opening marks. -/
def longBasic? : Reader (List Char) := fun text =>
  longBasicFrom .none (skipFirstNewline text)

/-- Read a long literal text. -/
def longLiteralFrom : Reader (List Char)
  | [] => none
  | '\x27' :: '\x27' :: '\x27' :: '\x27' :: '\x27' :: rest => some ([apostrophe, apostrophe], rest)
  | '\x27' :: '\x27' :: '\x27' :: '\x27' :: rest => some ([apostrophe], rest)
  | '\x27' :: '\x27' :: '\x27' :: rest => some ([], rest)
  | '\r' :: '\n' :: rest => consResult '\n' (longLiteralFrom rest)
  | '\n' :: rest => consResult '\n' (longLiteralFrom rest)
  | c :: rest => if isPlain c then consResult c (longLiteralFrom rest) else none

/-- Read a long literal text after its opening marks. -/
def longLiteral? : Reader (List Char) := fun text =>
  longLiteralFrom (skipFirstNewline text)

/-- Read a text with its opening marks. -/
def quoted? : Reader String := fun text =>
  let read : Option (List Char × List Char) :=
    match text with
    | '"' :: '"' :: '"' :: rest => longBasic? rest
    | '"' :: rest => basic? rest
    | '\x27' :: '\x27' :: '\x27' :: rest => longLiteral? rest
    | '\x27' :: rest => literal? rest
    | _ => none
  read.map fun (chars, rest) => (String.ofList chars, rest)

end Toml
end TaintGraph
