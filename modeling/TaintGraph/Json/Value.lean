/-
# JSON values

A JSON value as a tree that keeps the spelling of numbers and strings, and all
members of an object in order, repeated keys included. `Json.ofTokens?` builds
the tree with an explicit stack, so depth costs no more than length; `Json.tokens`
writes it back.

Key definitions: `Json`, `Json.tokens`, `Json.ofTokens?`, `Json.parse?`,
`Json.render`.
-/
import TaintGraph.Json.Token

namespace TaintGraph

/-- A JSON value, with numbers and strings as spelled. -/
inductive Json where
  /-- The null value. -/
  | null
  /-- A truth value. -/
  | bool (b : Bool)
  /-- A number, as spelled. -/
  | num (lexeme : List Char)
  /-- A string, as spelled between its quotes. -/
  | str (spelling : List Char)
  /-- An array. -/
  | arr (items : List Json)
  /-- An object, with its members in order; keys as spelled. -/
  | obj (members : List (List Char × Json))
  deriving Inhabited

namespace Json

mutual

/-- The tokens of a value. -/
def tokens : Json → List Token
  | .null => [.null]
  | .bool b => [.bool b]
  | .num lexeme => [.num lexeme]
  | .str spelling => [.str spelling]
  | .arr items => .openBracket :: (itemTokens items ++ [.closeBracket])
  | .obj members => .openBrace :: (memberTokens members ++ [.closeBrace])

/-- The tokens of the items of an array. -/
def itemTokens : List Json → List Token
  | [] => []
  | [item] => item.tokens
  | item :: items => item.tokens ++ .comma :: itemTokens items

/-- The tokens of the members of an object. -/
def memberTokens : List (List Char × Json) → List Token
  | [] => []
  | [(key, value)] => .str key :: .colon :: value.tokens
  | (key, value) :: members =>
    .str key :: .colon :: (value.tokens ++ .comma :: memberTokens members)

end

/-- A value that is being read, with what is complete of it latest first. -/
inductive Open where
  /-- An array. -/
  | arr (items : List Json)
  /-- An object, and the key whose value is to come. -/
  | obj (members : List (List Char × Json)) (key : List Char)

mutual

/-- Read a value inside the open ones. -/
def readValue : List Open → List Token → Option (Json × List Token)
  | stack, .null :: rest => closeValue stack .null rest
  | stack, .bool b :: rest => closeValue stack (.bool b) rest
  | stack, .num lexeme :: rest => closeValue stack (.num lexeme) rest
  | stack, .str spelling :: rest => closeValue stack (.str spelling) rest
  | stack, .openBracket :: .closeBracket :: rest => closeValue stack (.arr []) rest
  | stack, .openBracket :: rest => readValue (.arr [] :: stack) rest
  | stack, .openBrace :: .closeBrace :: rest => closeValue stack (.obj []) rest
  | stack, .openBrace :: .str key :: .colon :: rest => readValue (.obj [] key :: stack) rest
  | _, _ => none

/-- Put a complete value where it belongs and go on. -/
def closeValue : List Open → Json → List Token → Option (Json × List Token)
  | [], value, rest => some (value, rest)
  | .arr items :: stack, value, .comma :: rest => readValue (.arr (value :: items) :: stack) rest
  | .arr items :: stack, value, .closeBracket :: rest =>
    closeValue stack (.arr (value :: items).reverse) rest
  | .obj members key :: stack, value, .comma :: .str key' :: .colon :: rest =>
    readValue (.obj ((key, value) :: members) key' :: stack) rest
  | .obj members key :: stack, value, .closeBrace :: rest =>
    closeValue stack (.obj ((key, value) :: members).reverse) rest
  | _, _, _ => none

end

/-- The value that exactly these tokens spell. -/
def ofTokens? (tokens : List Token) : Option Json :=
  match readValue [] tokens with
  | some (value, []) => some value
  | _ => none

/-- The value that a text spells. -/
def parse? (text : String) : Option Json := do
  ofTokens? (← Token.scan text.toList)

/-- The value in as few characters as possible. -/
def render (j : Json) : String :=
  String.ofList (j.tokens.flatMap Token.text)

/-- A text as a value. -/
def ofString (s : String) : Json :=
  .str (escape s.toList)

/-- A natural number as a value. -/
def ofNat (n : Nat) : Json :=
  .num (Nat.toDigits 10 n)

/-- A value that may be missing. -/
def ofOption {α : Type} (f : α → Json) : Option α → Json
  | none => .null
  | some a => f a

/-- An object with the given members. -/
def object (members : List (String × Json)) : Json :=
  .obj (members.map fun m => (escape m.1.toList, m.2))

/-- The text of a string. -/
def string? : Json → Option String
  | .str spelling => (unescape spelling).map String.ofList
  | _ => none

/-- The truth value. -/
def bool? : Json → Option Bool
  | .bool b => some b
  | _ => none

/-- The natural number, if the number is spelled by digits alone. -/
def nat? : Json → Option Nat
  | .num lexeme =>
    if lexeme.all Char.isDigit then
      some (lexeme.foldl (fun n c => 10 * n + (c.toNat - '0'.toNat)) 0)
    else none
  | _ => none

/-- The natural number, if it is below a bound. -/
def natBelow? (bound : Nat) (j : Json) : Option Nat :=
  j.nat?.filter fun n => decide (n < bound)

/-- The number, if it fits 32 bits. -/
def word32? (j : Json) : Option UInt32 :=
  (j.natBelow? UInt32.size).map UInt32.ofNat

end Json
end TaintGraph
