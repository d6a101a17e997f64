/-!
# The shortest decimal of a double

A finite positive double is `m * 2 ^ q` with `m < 2 ^ 53`. The reals that round to it form an interval
around it, whose ends belong to it exactly when `m` is even. `shortest` finds the decimal with the
fewest digits inside that interval, and of those the one nearest to the double, a tie going to the
even digit. Everything is exact arithmetic on natural numbers.
-/

namespace RecurrenceCompiler.Decimal

/-- A positive binary number `mantissa * 2 ^ exponent`. `lowered` says that the gap below it is half
the gap above it, which is so at the powers of two. -/
structure Binary where
  mantissa : Nat
  exponent : Int
  lowered : Bool
deriving DecidableEq

/-- A positive decimal `digits * 10 ^ exponent`. -/
structure Digits where
  digits : Nat
  exponent : Int
deriving DecidableEq

/-- What a double stands for. -/
inductive Reading where
  | nan
  | infinite (negative : Bool)
  | zero (negative : Bool)
  | finite (negative : Bool) (value : Binary)
deriving DecidableEq

/-- The number that a double's bits stand for. -/
def Reading.ofBits (bits : Nat) : Reading :=
  let hidden := Nat.pow 2 52
  let negative := bits / Nat.pow 2 63 % 2 == 1
  let biased : Nat := bits / hidden % 2048
  let fraction : Nat := bits % hidden
  if biased == 2047 then (if fraction == 0 then .infinite negative else .nan)
  else if biased == 0 then
    (if fraction == 0 then .zero negative
     else .finite negative ⟨fraction, -1074, false⟩)
  else .finite negative ⟨hidden + fraction, (biased : Int) - 1075, fraction == 0 && biased != 1⟩

/-- The number that a double stands for. -/
def Reading.ofFloat (x : Float) : Reading :=
  .ofBits x.toBits.toNat

/-- The quotient `num / den` scaled by `base ^ e`, as a numerator and a denominator. -/
def scale (base : Nat) (e : Int) (q : Nat × Nat) : Nat × Nat :=
  if 0 ≤ e then (q.1 * Nat.pow base e.toNat, q.2) else (q.1, q.2 * Nat.pow base (-e).toNat)

/-- The least `k` with `num * 10 ^ k ≥ den`, counted up from `k`. -/
def leadingZeros : Nat → Nat → Nat → Nat → Nat
  | 0, k, _, _ => k
  | fuel + 1, k, num, den => if den ≤ num then k else leadingZeros fuel (k + 1) (num * 10) den

/-- The number of decimal digits of a natural number, at least one. -/
def digitCount (n : Nat) : Nat :=
  (Nat.toDigits 10 n).length

/-- The exponent `e` with `10 ^ e ≤ num / den < 10 ^ (e + 1)`. -/
def magnitude (num den : Nat) : Int :=
  if den ≤ num then (digitCount (num / den) : Int) - 1
  else -(leadingZeros 400 0 num den : Int)

/-- Whether a number lies between two others, the ends counting or not. -/
def isBetween (closed : Bool) (low high x : Nat) : Bool :=
  if closed then low ≤ x && x ≤ high else low < x && x < high

/-- The better of the value's two neighbours on the grid of `n` digits, if one of them reads back as
the value. The arguments are four times the value and the two ends of its interval, over one
denominator. -/
def onGrid (low mid high den : Nat) (closed : Bool) (unit : Int) : Option Nat :=
  -- All three bounds in units of the grid.
  let at? := fun (x : Nat) => scale 10 (-unit) (x, den)
  let (m, d) := at? mid
  let (l, _) := at? low
  let (h, _) := at? high
  let below := m / d
  let above := below + 1
  let inside := fun (c : Nat) => isBetween closed l h (c * d)
  let left := m - below * d
  let right := above * d - m
  let belowIn := inside below && below != 0
  let aboveIn := inside above
  if belowIn && aboveIn then
    if left < right then some below
    else if right < left then some above
    else if below % 2 == 0 then some below else some above
  else if belowIn then some below
  else if aboveIn then some above
  else none

/-- The first grid, from `n` digits on, that has a decimal which reads back. -/
def firstGrid (low mid high den : Nat) (closed : Bool) (top : Int) : Nat → Nat → Digits
  | 0, n => ⟨mid / den, top - n⟩
  | fuel + 1, n =>
    let unit := top - n
    match onGrid low mid high den closed unit with
    | some c => ⟨c, unit⟩
    | none => firstGrid low mid high den closed top fuel (n + 1)

/-- The decimal without its trailing zeros. -/
def Digits.strip : Nat → Digits → Digits
  | 0, d => d
  | fuel + 1, d =>
    if d.digits != 0 && d.digits % 10 == 0 then Digits.strip fuel ⟨d.digits / 10, d.exponent + 1⟩
    else d

/-- The shortest decimal that reads back as the binary number. -/
def shortest (b : Binary) : Digits :=
  let quarter := fun (x : Nat) => scale 2 (b.exponent - 2) (x, 1)
  let (mid, den) := quarter (4 * b.mantissa)
  let (low, _) := quarter (4 * b.mantissa - if b.lowered then 1 else 2)
  let (high, _) := quarter (4 * b.mantissa + 2)
  (firstGrid low mid high den (b.mantissa % 2 == 0) (magnitude mid den) 18 0).strip 20

end RecurrenceCompiler.Decimal
