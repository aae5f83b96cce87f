/-
# Keys and values of TOML

A key is a path of parts with dots between them; a part is bare or quoted. Values
nest: arrays may hold comments and line ends and a comma after the last item,
tables between braces hold neither. Arrays and braces nest at most 79 deep, and a
path has at most 79 parts.

Key definitions: `Toml.key?`, `Toml.value?`.
-/
import TaintGraph.Toml.Moment
import TaintGraph.Toml.Table

namespace TaintGraph
namespace Toml

/-- How deep values nest, and how many parts a key has. -/
def maxNesting : Nat := 79

/-- A character of a bare key. -/
def isBare (c : Char) : Bool :=
  c.isAlphanum || c = '_' || c = '-'

/-- Read one part of a key. -/
def keyPart? : Reader String
  | '"' :: rest => (basic? rest).map fun (chars, rest) => (String.ofList chars, rest)
  | '\x27' :: rest => (literal? rest).map fun (chars, rest) => (String.ofList chars, rest)
  | text =>
    match text.takeWhile isBare with
    | [] => none
    | part => some (String.ofList part, text.dropWhile isBare)

/-- Read at most `parts` parts of a key, with the blanks around them. -/
def keyUpTo? : (parts : Nat) → Reader (List String)
  | 0, _ => none
  | parts + 1, text => do
    let (part, rest) ← keyPart? (skipBlank text)
    match skipBlank rest with
    | '.' :: rest =>
      let (path, rest) ← keyUpTo? parts rest
      return (part :: path, rest)
    | rest => return ([part], rest)

/-- Read a key: the path to its table, and its last part. -/
def key? : Reader (List String × String) := fun text => do
  let (parts, rest) ← keyUpTo? maxNesting text
  let last ← parts.getLast?
  return ((parts.dropLast, last), rest)

/-- Read a word. -/
def word? (word : List Char) (item : Item) : Reader Item := fun text =>
  if word.isPrefixOf text then some (item, text.drop word.length) else none

/-- Read the rest of an array, up to its closing bracket, with at most `steps`
items. -/
def itemsUpTo? (item : Reader Item) : (steps : Nat) → Reader (List Item)
  | 0, _ => none
  | steps + 1, text => do
    match ← skipLines? text with
    | ']' :: rest => return ([], rest)
    | rest =>
      let (first, rest) ← item rest
      match ← skipLines? rest with
      | ',' :: rest =>
        let (items, rest) ← itemsUpTo? item steps rest
        return (first :: items, rest)
      | ']' :: rest => return ([first], rest)
      | _ => none

/-- Read the pairs of a table between braces, up to the closing one, with at most
`steps` pairs, and add them to the entries so far. -/
def pairsUpTo? (item : Reader Item) : (steps : Nat) → Entries → Reader Entries
  | 0, _, _ => none
  | steps + 1, entries, text => do
    let ((path, key), rest) ← key? text
    let (value, rest) ← item (skipBlank (← only? '=' rest))
    let entries ← addPair? key value path entries
    match skipBlank rest with
    | ',' :: rest => pairsUpTo? item steps entries rest
    | '\x7d' :: rest => return (entries, rest)
    | _ => none

/-- Read a value in which arrays and braces nest at most `depth` deep. No array
and no table has more items than characters. -/
def valueUpTo? : (depth : Nat) → Reader Item
  | depth, '[' :: rest =>
    match depth with
    | 0 => none
    | depth + 1 => do
      let (items, rest) ← itemsUpTo? (valueUpTo? depth) (rest.length + 1) rest
      return (.array items, rest)
  | depth, '\x7b' :: rest =>
    match depth, skipBlank rest with
    | 0, _ => none
    | _ + 1, '\x7d' :: rest => some (.table .inline [], rest)
    | depth + 1, rest => do
      let (entries, rest) ← pairsUpTo? (valueUpTo? depth) (rest.length + 1) [] rest
      return (.table .inline entries, rest)
  | _, 't' :: rest => word? ['r', 'u', 'e'] (.bool true) rest
  | _, 'f' :: rest => word? ['a', 'l', 's', 'e'] (.bool false) rest
  | _, '"' :: rest => (quoted? ('"' :: rest)).map fun (s, rest) => (.text s, rest)
  | _, '\x27' :: rest => (quoted? ('\x27' :: rest)).map fun (s, rest) => (.text s, rest)
  | _, text =>
    if startsDate text || startsTime text then
      (moment? text).map fun (lexeme, rest) => (.moment lexeme, rest)
    else (number? text).map fun (n, rest) => (.number n, rest)

/-- Read a value. -/
def value? : Reader Item :=
  valueUpTo? maxNesting

end Toml
end TaintGraph
