import RecurrenceCompiler.Arith.Eval
import RecurrenceCompiler.Arith.Name

/-!
# Constraints

A constraint compares two arithmetic texts. It is found by looking for the comparisons in a fixed
order, the two-character ones first, so that `>=` is never read as `>`. A constraint between a name
and an integer is a *bound*, the form that the satisfiability test understands.
-/

namespace RecurrenceCompiler

open Text Decimal Arith

/-- A comparison. -/
inductive Comparison where
  | eq
  | ne
  | lt
  | le
  | gt
  | ge
deriving DecidableEq

namespace Comparison

/-- The spelling of a comparison. -/
def text : Comparison → String
  | eq => "=="
  | ne => "!="
  | lt => "<"
  | le => "<="
  | gt => ">"
  | ge => ">="

/-- The order in which comparisons are looked for. -/
def searchOrder : List Comparison :=
  [.eq, .ne, .ge, .le, .gt, .lt]

/-- The comparison with its sides exchanged. -/
def flip : Comparison → Comparison
  | eq => eq
  | ne => ne
  | lt => gt
  | le => ge
  | gt => lt
  | ge => le

/-- Whether a comparison holds between two values. -/
def holds [Carrier α] (c : Comparison) (x y : α) : Bool :=
  match c with
  | eq => Carrier.eq x y
  | ne => !Carrier.eq x y
  | lt => Carrier.lt x y
  | le => Carrier.le x y
  | gt => Carrier.lt y x
  | ge => Carrier.le y x

end Comparison

/-- A comparison of two arithmetic texts. -/
structure Constraint where
  left : String
  op : Comparison
  right : String
deriving DecidableEq

/-- A bound on one index. -/
structure Bound where
  name : String
  op : Comparison
  value : Int
deriving DecidableEq

namespace Constraint

/-- The constraint that the first comparison found in a text makes. Both sides must be there. -/
def ofChars? (cs : List Char) : List Comparison → Option Constraint
  | [] => none
  | op :: ops =>
    match cutAt? op.text.toList cs with
    | none => ofChars? cs ops
    | some (l, r) =>
      let left := trim l
      let right := trim r
      if left.isEmpty || right.isEmpty then none
      else some ⟨String.ofList left, op, String.ofList right⟩

/-- The constraint that a text spells. -/
def parse (text : String) : Except Error Constraint :=
  match ofChars? text.toList Comparison.searchOrder with
  | some c => .ok c
  | none => .error (.constraint text)

/-- A constraint in parentheses. -/
def render (c : Constraint) : String :=
  "(" ++ c.left ++ " " ++ c.op.text ++ " " ++ c.right ++ ")"

/-- The constraint as a bound, if it compares a name with an integer. -/
def bound? (c : Constraint) : Option Bound :=
  if isIdentifier c.left && isInteger c.right.toList then
    some ⟨c.left, c.op, readInteger c.right.toList⟩
  else if isIdentifier c.right && isInteger c.left.toList then
    some ⟨c.right, c.op.flip, readInteger c.left.toList⟩
  else none

/-- Whether either side mentions a name. -/
def mentions (c : Constraint) (name : String) : Bool :=
  Arith.mentions c.left name || Arith.mentions c.right name

/-- The names that the two sides mention. -/
def names (c : Constraint) : List String :=
  namesIn c.left ++ namesIn c.right

/-- Whether a constraint holds. -/
def holds [Carrier α] (env : Env α) (c : Constraint) : Except Error Bool := do
  let x ← eval env c.left
  let y ← eval env c.right
  return c.op.holds x y

/-- The constraint that an index has an integer value. -/
def equals (index : String) (value : Int) : Constraint :=
  ⟨index, .eq, intText value⟩

end Constraint

end RecurrenceCompiler
