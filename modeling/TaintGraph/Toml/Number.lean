/-
# Numbers of TOML

Integers are decimal with an optional sign, or hexadecimal, octal or binary
without one, and fit 64 bits. Underscores may stand between two digits. A decimal
integer has no leading zero. Floats have a fraction, an exponent or both; they
are kept as spelled, and refused when they round to positive infinity in double
precision.

Key definitions: `Toml.Number`, `Toml.number?`.
-/
import TaintGraph.Toml.Blank
import TaintGraph.Toml.Quoted

namespace TaintGraph
namespace Toml

/-- A number. -/
inductive Number where
  /-- An integer. -/
  | integer (n : Int)
  /-- A float, as spelled, without its underscores. -/
  | float (lexeme : List Char)

/-- Read the digits after the first one. An underscore needs a digit behind
it. -/
def moreDigits? (isDigit : Char → Bool) : Reader (List Char)
  | [] => some ([], [])
  | '_' :: c :: rest => if isDigit c then consResult c (moreDigits? isDigit rest) else none
  | '_' :: [] => none
  | c :: rest =>
    if isDigit c then consResult c (moreDigits? isDigit rest) else some ([], c :: rest)

/-- Read at least one digit. -/
def digits? (isDigit : Char → Bool) : Reader (List Char)
  | c :: rest => if isDigit c then consResult c (moreDigits? isDigit rest) else none
  | [] => none

/-- Read a decimal integer without its sign: a lone zero, or digits of which the
first is not zero. -/
def whole? : Reader (List Char)
  | '0' :: rest => some (['0'], rest)
  | text => digits? Char.isDigit text

/-- Read a sign, if there is one; true for a minus. -/
def sign : List Char → Bool × List Char
  | '+' :: rest => (false, rest)
  | '-' :: rest => (true, rest)
  | text => (false, text)

/-- The value of digits in a base. -/
def valueIn (base : Nat) (digits : List Char) : Nat :=
  digits.foldl (fun n c => base * n + (hexValue? c).getD 0) 0

/-- An integer of 64 bits. -/
def word64? (n : Int) : Option Int :=
  if Int64.minValue.toInt ≤ n ∧ n ≤ Int64.maxValue.toInt then some n else none

/-- Read the digits of an integer in another base than ten. -/
def based? (base : Nat) (isDigit : Char → Bool) : Reader Number := fun text => do
  let (digits, rest) ← digits? isDigit text
  return (.integer (← word64? (valueIn base digits)), rest)

/-- A fraction or an exponent, as spelled. -/
structure Tail where
  /-- The digits after the point; none when there is no point. -/
  fraction : List Char := []
  /-- Whether the exponent is negative. -/
  negative : Bool := false
  /-- The digits of the exponent; none when there is no exponent. -/
  exponent : List Char := []

/-- Read the exponent of a float after its fraction, if there is one. -/
def exponent? (fraction : List Char) : Reader Tail
  | c :: rest =>
    if c = 'e' ∨ c = 'E' then do
      let (negative, rest) := sign rest
      let (exponent, rest) ← digits? Char.isDigit rest
      return ({ fraction, negative, exponent }, rest)
    else some ({ fraction }, c :: rest)
  | [] => some ({ fraction }, [])

/-- Read what makes a number a float: a fraction, an exponent or both. -/
def tail? : Reader Tail
  | '.' :: rest => do
    let (fraction, rest) ← digits? Char.isDigit rest
    exponent? fraction rest
  | text => exponent? [] text

/-- Whether there is a fraction or an exponent. -/
def Tail.isFloat (t : Tail) : Bool :=
  !t.fraction.isEmpty || !t.exponent.isEmpty

/-- The least number that rounds to infinity in double precision. -/
def doubleBound : Nat :=
  Nat.pow 2 1024 - Nat.pow 2 970

/-- Whether the positive float `whole . fraction e exponent` rounds to infinity
in double precision. The number of digits before the point settles all but those
close to the bound. -/
def overflows (whole : List Char) (t : Tail) : Bool :=
  let digits := valueIn 10 (whole ++ t.fraction)
  let scale : Int :=
    (if t.negative then -(valueIn 10 t.exponent : Int) else (valueIn 10 t.exponent : Int))
      - t.fraction.length
  let size : Int := (Nat.toDigits 10 digits).length + scale
  if digits = 0 ∨ size ≤ 308 then false
  else if 310 < size then true
  else if 0 ≤ scale then decide (doubleBound ≤ digits * Nat.pow 10 scale.toNat)
  else decide (doubleBound * Nat.pow 10 (-scale).toNat ≤ digits)

/-- The float as spelled, without its underscores. -/
def spellFloat (minus : Bool) (whole : List Char) (t : Tail) : List Char :=
  (if minus then ['-'] else []) ++ whole
    ++ (if t.fraction.isEmpty then [] else '.' :: t.fraction)
    ++ (if t.exponent.isEmpty then []
      else 'e' :: (if t.negative then ['-'] else []) ++ t.exponent)

/-- Read a number. -/
def number? : Reader Number
  | '0' :: 'x' :: rest => based? 16 (fun c => (hexValue? c).isSome) rest
  | '0' :: 'o' :: rest => based? 8 (fun c => '0' ≤ c && c ≤ '7') rest
  | '0' :: 'b' :: rest => based? 2 (fun c => c = '0' || c = '1') rest
  | text =>
    match sign text with
    | (_, 'i' :: 'n' :: 'f' :: rest) => some (.float ['i', 'n', 'f'], rest)
    | (_, 'n' :: 'a' :: 'n' :: rest) => some (.float ['n', 'a', 'n'], rest)
    | (minus, text) => do
      let (whole, rest) ← whole? text
      let (t, rest) ← tail? rest
      if t.isFloat then
        if !minus && overflows whole t then none
        else return (.float (spellFloat minus whole t), rest)
      else
        let n : Int := valueIn 10 whole
        return (.integer (← word64? (if minus then -n else n)), rest)

end Toml
end TaintGraph
