import RecurrenceCompiler.Decimal.Reader

/-!
# Whole numbers with a signed zero

Index shifts, the indices of base cases and the largest index values are whole doubles. They are
integers in every respect but one: zero has a sign, which shows where a number is added to them or
divided by them. A magnitude of two to the power 1024 stands for the infinities.
-/

namespace RecurrenceCompiler.Decimal

/-- A whole number whose zero has a sign. -/
structure Whole where
  negative : Bool
  magnitude : Nat
deriving DecidableEq

namespace Whole

/-- The integer that a whole number is. -/
def toInt (w : Whole) : Int :=
  if w.negative then -(w.magnitude : Int) else w.magnitude

/-- An integer, its zero being positive. -/
def ofInt (i : Int) : Whole :=
  ⟨i < 0, i.natAbs⟩

instance (n : Nat) : OfNat Whole n := ⟨⟨false, n⟩⟩

instance : Inhabited Whole := ⟨0⟩

/-- The number with its sign changed. -/
def negate (w : Whole) : Whole :=
  ⟨!w.negative, w.magnitude⟩

/-- The whole number that a whole double is. -/
def ofFloat (x : Float) : Whole :=
  if isNegativeZero x then ⟨true, 0⟩ else ofInt (Decimal.toInt x)

/-- The double that a whole number is. -/
def toFloat (w : Whole) : Float :=
  if w.negative && w.magnitude == 0 then -0.0 else Decimal.ofInt w.toInt

/-- The text of a whole number. Both zeros are written alike. -/
def text (w : Whole) : String :=
  intText w.toInt

/-- The whole number that a run of digits with an optional minus sign spells. -/
def read (cs : List Char) : Whole :=
  match cs with
  | '-' :: _ => ⟨true, (readInteger cs).natAbs⟩
  | _ => ⟨false, (readInteger cs).natAbs⟩

theorem toInt_ofInt (i : Int) : (ofInt i).toInt = i := by
  unfold ofInt toInt
  by_cases h : i < 0
  · simp only [h, decide_true, if_true]; omega
  · simp only [h, decide_false, Bool.false_eq_true, if_false]; omega

end Whole

end RecurrenceCompiler.Decimal
