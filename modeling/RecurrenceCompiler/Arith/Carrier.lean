import RecurrenceCompiler.Decimal.Layout

/-!
# Number systems

Arithmetic text, rule bodies and generated scripts are evaluated over any number system: a type with
constants, the four operations, the elementary functions and comparisons. No law is asked of it, so
what is proved for every system holds without reassociation or rounding arguments. The compiler runs
over doubles.
-/

namespace RecurrenceCompiler

open Decimal

/-- The elementary functions that arithmetic text may call. -/
inductive MathFn where
  | exp
  | sqrt
  | log
  | sin
  | cos
  | abs
  | pow
deriving DecidableEq

namespace MathFn

/-- All elementary functions. -/
def all : List MathFn :=
  [.exp, .sqrt, .log, .sin, .cos, .abs, .pow]

/-- The name of a function in text. -/
def name : MathFn → String
  | exp => "exp"
  | sqrt => "sqrt"
  | log => "log"
  | sin => "sin"
  | cos => "cos"
  | abs => "abs"
  | pow => "pow"

/-- The number of arguments of a function. -/
def arity : MathFn → Nat
  | pow => 2
  | _ => 1

/-- The function with that name. -/
def ofName? (s : String) : Option MathFn :=
  all.find? fun f => f.name == s

end MathFn

/-- A number system. -/
class Carrier (α : Type) where
  /-- The value of a constant. -/
  ofFloat : Float → α
  add : α → α → α
  sub : α → α → α
  mul : α → α → α
  div : α → α → α
  neg : α → α
  /-- The value of an elementary function at a list of as many arguments as it takes. -/
  apply : MathFn → List α → α
  eq : α → α → Bool
  lt : α → α → Bool
  le : α → α → Bool
  /-- Whether a value is a whole number. -/
  isWhole : α → Bool
  /-- The natural number that a value is, if it is one. -/
  toNat? : α → Option Nat
  /-- The text of a value. -/
  text : α → String

namespace Carrier

/-- The value of an integer. -/
def ofInt [Carrier α] (i : Int) : α :=
  ofFloat (Decimal.ofInt i)

/-- Zero. -/
def zero [Carrier α] : α :=
  ofFloat 0.0

end Carrier

/-- Powers of doubles, where one to an infinite or undefined power is undefined. -/
def floatPow (x y : Float) : Float :=
  if y.isNaN || (y.isInf && x.abs == 1.0) then 0.0 / 0.0 else x.pow y

/-- The elementary functions on doubles. -/
def MathFn.onFloats : MathFn → List Float → Float
  | exp, [x] => x.exp
  | sqrt, [x] => x.sqrt
  | log, [x] => x.log
  | sin, [x] => x.sin
  | cos, [x] => x.cos
  | abs, [x] => x.abs
  | pow, [x, y] => floatPow x y
  | _, _ => 0.0 / 0.0

instance : Carrier Float where
  ofFloat x := x
  add := (· + ·)
  sub := (· - ·)
  mul := (· * ·)
  div := (· / ·)
  neg := (- ·)
  apply := MathFn.onFloats
  eq := (· == ·)
  lt x y := x < y
  le x y := x ≤ y
  isWhole := Decimal.isWhole
  toNat? x := if Decimal.isWhole x && 0.0 ≤ x then some (Decimal.toInt x).toNat else none
  text := numberText

end RecurrenceCompiler
