import RecurrenceCompiler.Decimal.Nearest

/-!
# The text of a number

Every number in messages, generated code and manifests is written by `numberText`: the shortest
digits that read back, positional from `0.000001` up to twenty-one digits before the point, with an
exponent beyond. Negative zero is written like zero.
-/

namespace RecurrenceCompiler.Decimal

/-- Where positional digits end and an exponent begins. -/
structure Layout where
  /-- The most digits written before the point. -/
  whole : Int
  /-- The most zeros written between the point and the first digit. -/
  zeros : Int

/-- The layout of every number that the compiler writes. -/
def Layout.standard : Layout :=
  ⟨21, 5⟩

/-- The text of a positive decimal. -/
def Layout.write (layout : Layout) (d : Digits) : List Char :=
  let ds := Nat.toDigits 10 d.digits
  let count : Int := ds.length
  -- The number of digits before the point.
  let point := count + d.exponent
  if count ≤ point && point ≤ layout.whole then ds ++ List.replicate d.exponent.toNat '0'
  else if 0 < point && point ≤ layout.whole then
    ds.take point.toNat ++ ('.' :: ds.drop point.toNat)
  else if -layout.zeros ≤ point && point ≤ 0 then
    '0' :: '.' :: (List.replicate (-point).toNat '0' ++ ds)
  else
    let e := point - 1
    let tail := 'e' :: (if e < 0 then '-' else '+') :: Nat.toDigits 10 e.natAbs
    match ds with
    | [] => tail
    | [d] => d :: tail
    | d :: rest => d :: '.' :: (rest ++ tail)

/-- The text of a double as characters. -/
def numberChars (x : Float) : List Char :=
  match Reading.ofFloat x with
  | .nan => "NaN".toList
  | .infinite negative => (if negative then "-Infinity" else "Infinity").toList
  | .zero _ => ['0']
  | .finite negative value =>
    let text := Layout.standard.write (shortest value)
    if negative then '-' :: text else text

/-- The text of a double. -/
def numberText (x : Float) : String :=
  String.ofList (numberChars x)

/-- Negative zero, which equals zero but is written differently where signs matter. -/
def isNegativeZero (x : Float) : Bool :=
  Reading.ofFloat x == .zero true

/-- Whether a double is a whole number. Infinities and NaN are not. -/
def isWhole (x : Float) : Bool :=
  match Reading.ofFloat x with
  | .nan | .infinite _ => false
  | .zero _ => true
  | .finite _ b => 0 ≤ b.exponent || b.mantissa % Nat.pow 2 (-b.exponent).toNat == 0

/-- Two to the power 1024, the first power beyond the finite doubles. -/
def overflow : Int :=
  Int.ofNat (Nat.pow 2 1024)

/-- Two to the power 53, up to which every integer is a double. -/
def exactLimit : Nat :=
  9007199254740992

/-- The integer nearest to zero on the way from a finite double, and two to the power 1024 beyond
the finite range. -/
def toInt (x : Float) : Int :=
  match Reading.ofFloat x with
  | .nan | .zero _ => 0
  | .infinite negative => if negative then -overflow else overflow
  | .finite negative b =>
    let n := if 0 ≤ b.exponent then b.mantissa * Nat.pow 2 b.exponent.toNat
      else b.mantissa / Nat.pow 2 (-b.exponent).toNat
    if negative then -(n : Int) else n

/-- The double nearest to an integer. -/
def ofInt (i : Int) : Float :=
  if i < 0 then -ofQuotient i.natAbs 1 else ofQuotient i.natAbs 1

/-- An integer on the grid of doubles: itself up to two to the power 53, else the nearest. -/
def onDoubleGrid (i : Int) : Int :=
  if i.natAbs ≤ exactLimit then i else toInt (ofInt i)

/-- The text of an integer that stands on the grid of doubles. -/
def intText (i : Int) : String :=
  if i.natAbs ≤ exactLimit then toString i else numberText (ofInt i)

end RecurrenceCompiler.Decimal
