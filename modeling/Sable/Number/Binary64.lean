/-!
# Binary floating-point numbers of 64 bits

A floating-point literal stands for the binary64 number nearest to its decimal value,
with ties going to the even neighbour and everything from halfway beyond the largest
finite number on going to infinity. Literals carry no sign, so only the non-negative
numbers occur. All arithmetic is exact arithmetic on natural numbers.
-/

namespace Sable

/-- A non-negative binary64 number or infinity, held as its bit pattern. -/
structure Binary64 where
  /-- Eleven bits of biased exponent above fifty-two bits of fraction. -/
  bits : Nat
  deriving DecidableEq, Repr, Inhabited

namespace Binary64

/-- The weight of the hidden bit, which is the number of fractions: two to the power 52. -/
def hiddenBit : Nat := 0x10000000000000

/-- Positive infinity: the greatest exponent with an empty fraction. -/
def infinity : Binary64 := ⟨0x7ff * hiddenBit⟩

/-- Zero, whose bits are all clear. -/
def zero : Binary64 := ⟨0⟩

/-- The quotient of two natural numbers, rounded to the nearest one with ties to even. -/
def divNearestEven (num den : Nat) : Nat :=
  let q := num / den
  let r := num % den
  if 2 * r < den then q
  else if den < 2 * r then q + 1
  else q + q % 2

/-- The quotient `num / (den * 2 ^ e)` as a numerator and a denominator. -/
def scaleRatio (num den : Nat) (e : Int) : Nat × Nat :=
  match e with
  | .ofNat k => (num, den * Nat.pow 2 k)
  | .negSucc k => (num * Nat.pow 2 (k + 1), den)

/-- The binary exponent at which the significand of a ratio fills fifty-three bits. -/
def normalExponent (num den : Nat) : Int :=
  let guess : Int := (num.log2 : Int) - (den.log2 : Int) - 52
  let (n, d) := scaleRatio num den guess
  if n / d < hiddenBit then guess - 1 else guess

/--
The binary64 number nearest to a positive ratio. Numbers below the normal range keep the
least exponent. A significand that rounds up to the next power of two carries into the
exponent field by the layout of the bits.
-/
def ofRatio (num den : Nat) : Binary64 :=
  let e := max (normalExponent num den) (-1074)
  let (n, d) := scaleRatio num den e
  let significand := divNearestEven n d
  let bits :=
    if significand < hiddenBit then significand
    else (e + 1075).toNat * hiddenBit + (significand - hiddenBit)
  if infinity.bits ≤ bits then infinity else ⟨bits⟩

/--
The binary64 number nearest to `coefficient * 10 ^ exponent`. A value of at least `10 ^ 400`
is beyond the range and one below `10 ^ (-400)` rounds to zero, whatever its digits are.
-/
def ofDecimal (coefficient : Nat) (exponent : Int) : Binary64 :=
  let magnitude : Int := (Nat.toDigits 10 coefficient).length + exponent
  if coefficient = 0 then zero
  else if 400 < magnitude then infinity
  else if magnitude < -400 then zero
  else match exponent with
    | .ofNat k => ofRatio (coefficient * Nat.pow 10 k) 1
    | .negSucc k => ofRatio coefficient (Nat.pow 10 (k + 1))

/-- The significand of a finite number: the fraction, with the hidden bit of a normal number. -/
def significand (x : Binary64) : Nat :=
  if x.bits / hiddenBit = 0 then x.bits % hiddenBit else x.bits % hiddenBit + hiddenBit

/-- The power of two that the significand of a finite number counts in. -/
def exponent (x : Binary64) : Int :=
  (max (x.bits / hiddenBit) 1 : Nat) - 1075

end Binary64

end Sable
