import RecurrenceCompiler.Arith.Name
import RecurrenceCompiler.Decimal.Whole
import RecurrenceCompiler.Text.Units

/-!
# Expressions

The right-hand sides of rules and the values of base cases. A rule body is a sum of terms, each a
coefficient times a call at shifted indices, possibly scaled, or an average of several such sums.
Coefficients are products of constants, runtime variables and index arithmetic, which stay text.

Sharing of repeated subexpressions puts references to named intermediates in their place, so a term
multiplies a call or a reference.
-/

namespace RecurrenceCompiler

open Text Decimal Arith

/-- The four operations. -/
inductive BinOp where
  | add
  | sub
  | mul
  | div
deriving DecidableEq

/-- The spelling of an operation. -/
def BinOp.text : BinOp → String
  | add => "+"
  | sub => "-"
  | mul => "*"
  | div => "/"

/-- A constant: a number, or text that is put out as it stands. -/
inductive Constant where
  | number (x : Float)
  | raw (text : String)

/-- A call at shifted indices: one shift a slot, missing ones zero. Without a target it calls the
recurrence itself. -/
structure Call where
  shifts : List Whole
  target : Option String
deriving DecidableEq

/-- What a term multiplies. -/
inductive Factor where
  | call (c : Call)
  | ref (name : String)
deriving DecidableEq

/-- A coefficient times a call, over a type of coefficients. -/
structure Term (ε : Type) where
  coeff : ε
  factor : Factor

/-- An expression. -/
inductive Expr where
  | const (value : Constant)
  /-- A runtime variable, or runtime arithmetic in parentheses. -/
  | var (name : String)
  /-- Index arithmetic. -/
  | index (text : String)
  /-- An entry of a tabulated runtime variable. -/
  | lookup (table index : String)
  /-- A named intermediate. -/
  | ref (name : String)
  | call (c : Call)
  | binop (op : BinOp) (left right : Expr)
  | term (t : Term Expr)
  | sum (terms : List (Term Expr))
  /-- A multiple, or a quotient, of an expression. -/
  | scaled (inner scale : Expr) (division : Bool)
  /-- The sum of the branches times the scale. -/
  | average (branches : List Expr) (scale : Expr)

/-- The shift of a call in a slot, with the sign of its zero. -/
def Call.wholeShiftAt (c : Call) (slot : Nat) : Whole :=
  c.shifts[slot]?.getD 0

/-- The shift of a call in a slot. -/
def Call.shiftAt (c : Call) (slot : Nat) : Int :=
  (c.wholeShiftAt slot).toInt

/-- The expression that a factor is. -/
def Factor.expr : Factor → Expr
  | .call c => .call c
  | .ref n => .ref n

/-- The call of a factor, if it is one. -/
def Factor.call? : Factor → Option Call
  | .call c => some c
  | .ref _ => none

namespace Expr

/-- A number. -/
def number (x : Float) : Expr :=
  .const (.number x)

/-- Whether a coefficient is the constant one, which is not written. -/
def isUnit : Expr → Bool
  | .const (.number x) => x == 1.0
  | _ => false

mutual

/-- The leaves, from left to right. -/
def leaves : Expr → List Expr
  | .binop _ l r => leaves l ++ leaves r
  | .term t => leaves t.coeff ++ [t.factor.expr]
  | .sum ts => leavesOfTerms ts
  | .scaled inner scale _ => leaves inner ++ leaves scale
  | .average bs scale => leavesOfList bs ++ leaves scale
  | .const c => [.const c]
  | .var n => [.var n]
  | .index t => [.index t]
  | .lookup t i => [.lookup t i]
  | .ref n => [.ref n]
  | .call c => [.call c]

/-- The leaves of a list of terms. -/
def leavesOfTerms : List (Term Expr) → List Expr
  | [] => []
  | t :: ts => leaves t.coeff ++ [t.factor.expr] ++ leavesOfTerms ts

/-- The leaves of a list of expressions. -/
def leavesOfList : List Expr → List Expr
  | [] => []
  | e :: es => leaves e ++ leavesOfList es

end

/-- The call that a leaf is, if it is one. -/
def call? : Expr → Option Call
  | .call c => some c
  | _ => none

/-- The calls, from left to right. -/
def calls (e : Expr) : List Call :=
  e.leaves.filterMap call?

/-- The names that a leaf reads, calls and references aside. -/
def leafNames : Expr → List String
  | .const (.raw t) => namesIn t
  | .var n => namesIn n
  | .index t => namesIn t
  | .lookup table i => table :: namesIn i
  | _ => []

/-- The names that an expression reads outside its calls, in the order of first occurrence. -/
def usedNames (e : Expr) : List String :=
  distinct (e.leaves.flatMap leafNames)

end Expr

end RecurrenceCompiler
