/-
# Single-precision numbers

A non-negative number of the 32-bit binary floating-point format, kept as the
rational it stands for. The result of an operation is the exact rational
result, rounded to the nearest number of the format; of two that are equally
near, to the one whose last bit is zero.

A number of the format is `n * 2 ^ e` with `n < 2 ^ 24` and `-149 ≤ e`. The
format's upper bound `2 ^ 128` is left out: scores and rates are at most one,
and their operands, counts of 64 bits and products of two counts of 32 bits,
stay far below it.

Key definitions: `Single.round`, `Single.bits`, `Single.hex`.
-/

namespace TaintGraph

/-- A non-negative single-precision number. -/
structure Single where
  /-- The rational it stands for. -/
  val : Rat
  deriving DecidableEq, Repr

namespace Single

/-- A power of two with an exponent of either sign. -/
def twoPow (e : Int) : Rat :=
  if 0 ≤ e then Nat.pow 2 e.toNat else mkRat 1 (Nat.pow 2 (-e).toNat)

/-- The exponent of the greatest power of two that is at most `q`, for a
positive `q`. The lengths of numerator and denominator leave two candidates. -/
def exponent (q : Rat) : Int :=
  let e : Int := (q.num.natAbs.log2 : Int) - (q.den.log2 : Int)
  if twoPow e ≤ q then e else e - 1

/-- The exponent of the last bit that the format keeps of `q`: it has 24
significant bits, and no bit below `2 ^ -149`. -/
def unitExponent (q : Rat) : Int :=
  max (exponent q - 23) (-149)

/-- The integer nearest to a non-negative rational; a half goes to the even
neighbour. -/
def nearestEven (q : Rat) : Nat :=
  let below := q.num.natAbs / q.den
  let rest := 2 * (q.num.natAbs % q.den)
  if rest < q.den ∨ (rest = q.den ∧ below % 2 = 0) then below else below + 1

/-- The number of the format nearest to a non-negative rational. -/
def round (q : Rat) : Single :=
  if q ≤ 0 then ⟨0⟩
  else
    let unit := twoPow (unitExponent q)
    ⟨(nearestEven (q / unit) : Nat) * unit⟩

/-- The number of the format nearest to a natural number. -/
def ofNat (n : Nat) : Single :=
  round (n : Nat)

instance : Zero Single := ⟨⟨0⟩⟩

instance : One Single := ⟨⟨1⟩⟩

instance : Add Single := ⟨fun a b => round (a.val + b.val)⟩

instance : Mul Single := ⟨fun a b => round (a.val * b.val)⟩

instance : Div Single := ⟨fun a b => round (a.val / b.val)⟩

instance : LT Single := ⟨fun a b => a.val < b.val⟩

instance (a b : Single) : Decidable (a < b) :=
  inferInstanceAs (Decidable (a.val < b.val))

/-- The bits of the number in the interchange format: no sign, 8 bits of biased
exponent, 23 bits of fraction. -/
def bits (a : Single) : Nat :=
  if a.val ≤ 0 then 0
  else
    let unit := unitExponent a.val
    let digits := (a.val / twoPow unit).num.natAbs
    if digits < Nat.pow 2 23 then digits
    else ((unit + 150).toNat <<< 23) + (digits - Nat.pow 2 23)

/-- The bits as eight hexadecimal digits. -/
def hex (a : Single) : String :=
  let digits := Nat.toDigits 16 a.bits
  String.ofList (List.replicate (8 - digits.length) '0' ++ digits)

end Single

end TaintGraph
