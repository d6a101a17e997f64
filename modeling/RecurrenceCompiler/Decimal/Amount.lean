import RecurrenceCompiler.Decimal.Whole

/-!
# Amounts

The arithmetic behind the size of a layer: sums of declared maxima and quotients of shifts. An
amount is an integer as long as its double is one, so small amounts add and divide exactly; a
fraction, an infinity or an undefined quotient stays a double. A sum with something that has no
number joins the two texts.
-/

namespace RecurrenceCompiler.Decimal

/-- The least integer above a double, and two to the power 1024 beyond the finite range. -/
def ceiling (x : Float) : Int :=
  toInt x.ceil

/-- A number that a size is computed from. -/
inductive Amount where
  | whole (i : Int)
  /-- A double that is no integer. -/
  | real (x : Float)
  /-- The text of something that has no number. -/
  | joined (text : String)

namespace Amount

/-- The amount that a double is. -/
def ofFloat (x : Float) : Amount :=
  if isWhole x then .whole (toInt x) else .real x

/-- The amount that an integer on the grid of doubles is. -/
def ofInt (i : Int) : Amount :=
  if i.natAbs < overflow.natAbs then .whole i else .real (Decimal.ofInt i)

/-- The double that an amount is. -/
def toFloat : Amount → Float
  | whole i => Decimal.ofInt i
  | real x => x
  | joined _ => 0.0 / 0.0

/-- The text of an amount. -/
def text : Amount → String
  | whole i => intText i
  | real x => numberText x
  | joined t => t

/-- Whether an integer and its double are the same. -/
def isExact (i : Int) : Bool :=
  i.natAbs ≤ exactLimit

/-- The sum of two amounts. -/
def add (a b : Amount) : Amount :=
  match a, b with
  | .joined s, b => .joined (s ++ b.text)
  | a, .joined t => .joined (a.text ++ t)
  | .whole i, .whole j =>
    if isExact i && isExact j && isExact (i + j) then .whole (i + j)
    else ofFloat (Decimal.ofInt i + Decimal.ofInt j)
  | a, b => ofFloat (a.toFloat + b.toFloat)

/-- The sum of amounts, from left to right. -/
def sum (as : List Amount) : Amount :=
  as.foldl add (.whole 0)

/-- The amount with its sign changed. -/
def negate : Amount → Amount
  | whole i => .whole (-i)
  | real x => .real (-x)
  | joined _ => .real (0.0 / 0.0)

/-- Whether an amount is zero. -/
def isZero : Amount → Bool
  | whole i => i == 0
  | _ => false

/-- Whether an amount is at most zero. -/
def isNonpositive : Amount → Bool
  | whole i => i ≤ 0
  | real x => x ≤ 0.0
  | joined _ => false

/-- The quotient of two positive integers, rounded up. -/
def ceilDiv (a b : Int) : Int :=
  -(Int.fdiv (-a) b)

/-- The quotient of two positive amounts, rounded up. -/
def ceilQuotient (a b : Amount) : Amount :=
  match a, b with
  | .whole i, .whole j =>
    if isExact i && isExact j then .whole (ceilDiv i j)
    else ofFloat (Decimal.ofInt i / Decimal.ofInt j).ceil
  | a, b => ofFloat (a.toFloat / b.toFloat).ceil

/-- The larger of two amounts, and an undefined one if there is one. -/
def max (a b : Amount) : Amount :=
  match a, b with
  | .whole i, .whole j => .whole (if i < j then j else i)
  | a, b =>
    let x := a.toFloat
    let y := b.toFloat
    if x.isNaN then a else if y.isNaN || x < y then b else a

end Amount

end RecurrenceCompiler.Decimal
