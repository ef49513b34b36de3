import Sable.Number.Binary64

/-!
# Shortest decimal text of a binary64 number

A number is written with the fewest digits that read back as the same number; of two
such decimals the nearer one is taken, and the larger one if both are equally near. The
text is always positional: no exponent, and no point in a whole number.
-/

namespace Sable

/-- The decimal number `coefficient * 10 ^ exponent`. -/
structure Decimal where
  /-- The digits, as one natural number. -/
  coefficient : Nat
  /-- The power of ten that the last digit counts. -/
  exponent : Int
  deriving DecidableEq, Repr

namespace Decimal

/-- A natural number times a power of ten that the text writes without an exponent. -/
def toText (d : Decimal) : String :=
  match d.exponent with
  | .ofNat k => toString (d.coefficient * Nat.pow 10 k)
  | .negSucc k =>
    let scale := Nat.pow 10 (k + 1)
    let fraction := toString (d.coefficient % scale)
    toString (d.coefficient / scale) ++ "." ++
      String.ofList (List.replicate (k + 1 - fraction.length) '0') ++ fraction

end Decimal

/--
The real numbers that round to one binary64 number, as numerators over a common
denominator: halfway to the neighbour below, the number itself, halfway to the one above.
-/
structure RoundingInterval where
  /-- Numerator of the lower end. -/
  low : Nat
  /-- Numerator of the number itself. -/
  value : Nat
  /-- Numerator of the upper end. -/
  high : Nat
  /-- The common denominator. -/
  den : Nat
  /-- Whether the two ends themselves round to the number. -/
  closed : Bool

namespace RoundingInterval

/--
The interval of a finite positive number. The neighbour below a power of two is only half
as far away as the one above, unless the exponent is already the least one.
-/
def ofBinary64 (x : Binary64) : RoundingInterval :=
  let m := x.significand
  let below := if m = Binary64.hiddenBit ∧ x.exponent ≠ -1074 then 1 else 2
  let closed := m % 2 == 0
  match x.exponent - 2 with
  | .ofNat k =>
    let s := Nat.pow 2 k
    ⟨(4 * m - below) * s, 4 * m * s, (4 * m + 2) * s, 1, closed⟩
  | .negSucc k => ⟨4 * m - below, 4 * m, 4 * m + 2, Nat.pow 2 (k + 1), closed⟩

/-- Whether the ratio `num / I.den` lies in the interval. -/
def contains (I : RoundingInterval) (num : Nat) : Bool :=
  if I.closed then I.low ≤ num && num ≤ I.high else I.low < num && num < I.high

/-- The same interval counted in units of `10 ^ e`. -/
def inUnitsOf (I : RoundingInterval) (e : Int) : RoundingInterval :=
  match e with
  | .ofNat k => { I with den := I.den * Nat.pow 10 k }
  | .negSucc k =>
    let s := Nat.pow 10 (k + 1)
    ⟨I.low * s, I.value * s, I.high * s, I.den, I.closed⟩

/-- The natural number in the interval that is nearest to its value; the larger on a tie. -/
def nearestNat? (I : RoundingInterval) : Option Nat :=
  let below := I.value / I.den
  let rest := I.value % I.den
  let lower := below != 0 && I.contains (below * I.den)
  let upper := I.contains ((below + 1) * I.den)
  if upper && (!lower || I.den ≤ 2 * rest) then some (below + 1)
  else if lower then some below
  else none

/-- The first decimal found in the interval when the unit falls from `10 ^ e`, `fuel` units long. -/
def shortestFrom (I : RoundingInterval) : Nat → Int → Option Decimal
  | 0, _ => none
  | fuel + 1, e =>
    match (I.inUnitsOf e).nearestNat? with
    | some n => some ⟨n, e⟩
    | none => I.shortestFrom fuel (e - 1)

end RoundingInterval

namespace Binary64

/-- The decimal with the fewest digits that reads back as a finite positive number. -/
def shortest? (x : Binary64) : Option Decimal :=
  (RoundingInterval.ofBinary64 x).shortestFrom 660 309

/-- The shortest text that reads back as the number, in positional form. -/
def toText (x : Binary64) : String :=
  if infinity.bits ≤ x.bits then "inf"
  else if x.bits = 0 then "0"
  else match x.shortest? with
    | some d => d.toText
    | none => "0"

end Binary64

end Sable
