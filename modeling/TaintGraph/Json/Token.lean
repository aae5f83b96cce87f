/-
# JSON tokens

A JSON text is a sequence of tokens with white space between them. The scanner
is an automaton that reads one character at a time; a string token keeps its
spelling (`TaintGraph.Json.Text` reads it), a number token its digits, so that
nothing about them is lost.

Two values never stand side by side in JSON. It is therefore harmless that the
scanner splits a text such as `01` into two numbers.

Key definitions: `Json.Token`, `Json.Token.text`, `Json.Token.scan`.
-/
import TaintGraph.Json.Text

namespace TaintGraph
namespace Json

/-- A JSON token. -/
inductive Token where
  /-- Opens an object. -/
  | openBrace
  /-- Closes an object. -/
  | closeBrace
  /-- Opens an array. -/
  | openBracket
  /-- Closes an array. -/
  | closeBracket
  /-- Divides items and members. -/
  | comma
  /-- Divides a key from its value. -/
  | colon
  /-- The null value. -/
  | null
  /-- A truth value. -/
  | bool (b : Bool)
  /-- A number, as spelled. -/
  | num (lexeme : List Char)
  /-- A string, as spelled between its quotes. -/
  | str (spelling : List Char)
  deriving DecidableEq, Repr

/-- The token as written. -/
def Token.text : Token → List Char
  | .openBrace => ['\x7b']
  | .closeBrace => ['\x7d']
  | .openBracket => ['[']
  | .closeBracket => [']']
  | .comma => [',']
  | .colon => [':']
  | .null => ['n', 'u', 'l', 'l']
  | .bool true => ['t', 'r', 'u', 'e']
  | .bool false => ['f', 'a', 'l', 's', 'e']
  | .num lexeme => lexeme
  | .str spelling => '"' :: spelling ++ ['"']

/-- Where the scanner stands inside a number: after its sign, after a leading
zero, inside its integer part, after the point, inside the fraction, after the
exponent mark, after the sign of the exponent, inside the exponent. -/
inductive Digits where
  /-- After the sign. -/
  | minus
  /-- After a leading zero. -/
  | zero
  /-- Inside the integer part. -/
  | whole
  /-- After the point. -/
  | point
  /-- Inside the fraction. -/
  | fraction
  /-- After the exponent mark. -/
  | mark
  /-- After the sign of the exponent. -/
  | sign
  /-- Inside the exponent. -/
  | exponent
  deriving DecidableEq, Repr

/-- Where a further character of the number leads. -/
def Digits.next? : Digits → Char → Option Digits
  | .minus, c => if c = '0' then some .zero else if c.isDigit then some .whole else none
  | .zero, c =>
    if c = '.' then some .point else if c = 'e' ∨ c = 'E' then some .mark else none
  | .whole, c =>
    if c.isDigit then some .whole
    else if c = '.' then some .point
    else if c = 'e' ∨ c = 'E' then some .mark
    else none
  | .point, c => if c.isDigit then some .fraction else none
  | .fraction, c =>
    if c.isDigit then some .fraction else if c = 'e' ∨ c = 'E' then some .mark else none
  | .mark, c =>
    if c = '+' ∨ c = '-' then some .sign else if c.isDigit then some .exponent else none
  | .sign, c => if c.isDigit then some .exponent else none
  | .exponent, c => if c.isDigit then some .exponent else none

/-- Whether a number may end here. -/
def Digits.complete : Digits → Bool
  | .zero | .whole | .fraction | .exponent => true
  | .minus | .point | .mark | .sign => false

/-- What the scanner is in the middle of. Characters read so far stand latest
first. -/
inductive ScanState where
  /-- Between tokens. -/
  | idle
  /-- Inside a word, with the characters of it still to come. -/
  | word (left : List Char) (token : Token)
  /-- Inside a string. -/
  | text (read : List Char)
  /-- After the backslash of an escape. -/
  | escape (read : List Char)
  /-- Inside a hexadecimal escape, with some digits still to come. -/
  | hex (left : Nat) (read : List Char)
  /-- Inside a number. -/
  | number (digits : Digits) (read : List Char)

/-- Read a character between tokens. -/
def ScanState.begin (c : Char) : Option (ScanState × List Token) :=
  match c with
  | ' ' | '\t' | '\n' | '\r' => some (.idle, [])
  | '\x7b' => some (.idle, [.openBrace])
  | '\x7d' => some (.idle, [.closeBrace])
  | '[' => some (.idle, [.openBracket])
  | ']' => some (.idle, [.closeBracket])
  | ',' => some (.idle, [.comma])
  | ':' => some (.idle, [.colon])
  | '"' => some (.text [], [])
  | 'n' => some (.word ['u', 'l', 'l'] .null, [])
  | 't' => some (.word ['r', 'u', 'e'] (.bool true), [])
  | 'f' => some (.word ['a', 'l', 's', 'e'] (.bool false), [])
  | '-' => some (.number .minus ['-'], [])
  | '0' => some (.number .zero ['0'], [])
  | c => if c.isDigit then some (.number .whole [c], []) else none

/-- Read a character. Returns the tokens that it completes, at most two of
them. -/
def ScanState.read (c : Char) : ScanState → Option (ScanState × List Token)
  | .idle => begin c
  | .word [] _ => none
  | .word [last] token => if c = last then some (.idle, [token]) else none
  | .word (l :: left) token => if c = l then some (.word left token, []) else none
  | .text read =>
    if c = '"' then some (.idle, [.str read.reverse])
    else if c = '\\' then some (.escape (c :: read), [])
    else if c.toNat < 0x20 then none
    else some (.text (c :: read), [])
  | .escape read =>
    if c = 'u' then some (.hex 4 (c :: read), [])
    else if (shortEscape? c).isSome then some (.text (c :: read), [])
    else none
  | .hex left read =>
    if (hexValue? c).isNone then none
    else if left ≤ 1 then some (.text (c :: read), [])
    else some (.hex (left - 1) (c :: read), [])
  | .number digits read =>
    match digits.next? c with
    | some digits => some (.number digits (c :: read), [])
    | none =>
      if digits.complete then
        (begin c).map fun (state, tokens) => (state, .num read.reverse :: tokens)
      else none

/-- What the end of the text completes. -/
def ScanState.finish : ScanState → Option (List Token)
  | .idle => some []
  | .number digits read => if digits.complete then some [.num read.reverse] else none
  | _ => none

/-- Scan a text from a state, with the tokens so far latest first. -/
def Token.scanFrom : ScanState → List Token → List Char → Option (List Token)
  | state, done, [] => state.finish.map fun tokens => done.reverse ++ tokens
  | state, done, c :: rest =>
    match state.read c with
    | none => none
    | some (state, tokens) => scanFrom state (tokens.reverse ++ done) rest

/-- The tokens of a text. -/
def Token.scan (text : List Char) : Option (List Token) :=
  scanFrom .idle [] text

end Json
end TaintGraph
