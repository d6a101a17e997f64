import RecurrenceCompiler.Decimal.Shortest

/-!
# The nearest double

Integers and decimal literals are quotients of natural numbers. The gap between the doubles around a
quotient is a power of two, so the nearest of them is the nearest multiple of that gap; a tie goes to
the even multiple, and the bits are put together from the multiple and the exponent of the gap.
-/

namespace RecurrenceCompiler.Decimal

/-- A quotient rounded to a natural number, a tie going to the even one. -/
def roundQuotient (num den : Nat) : Nat :=
  let q := num / den
  let rest := 2 * (num % den)
  if rest < den || (rest == den && q % 2 == 0) then q else q + 1

/-- The exponent `e` with `2 ^ e ≤ num / den < 2 ^ (e + 1)`. -/
def binaryMagnitude (num den : Nat) : Int :=
  let e := (num.log2 : Int) - den.log2
  let (n, d) := scale 2 (-e) (num, den)
  if d ≤ n then e else e - 1

/-- The exponent of the gap between the doubles around a quotient: doubles have 53 bits, the smallest
ones fewer. -/
def gapExponent (num den : Nat) : Int :=
  max (binaryMagnitude num den - 52) (-1074)

/-- The bits of the double nearest to a positive quotient: those of infinity beyond the finite
doubles. -/
def quotientBits (num den : Nat) : Nat :=
  let gap := gapExponent num den
  let (n, d) := scale 2 (-gap) (num, den)
  min ((gap + 1074).toNat * Nat.pow 2 52 + roundQuotient n d) (2047 * Nat.pow 2 52)

/-- The double nearest to a quotient. -/
def ofQuotient (num den : Nat) : Float :=
  if num == 0 then 0.0 else Float.ofBits (UInt64.ofNat (quotientBits num den))

end RecurrenceCompiler.Decimal
