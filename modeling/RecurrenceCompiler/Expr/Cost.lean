import RecurrenceCompiler.Expr.Basic

/-!
# Operation counts

How many operations an expression performs and what they cost, as a guide to what is worth sharing.
-/

namespace RecurrenceCompiler

open Text

/-- How often each operation occurs. -/
structure OpCounts where
  add : Nat := 0
  mul : Nat := 0
  div : Nat := 0
  call : Nat := 0
deriving DecidableEq

instance : Add OpCounts where
  add a b := ⟨a.add + b.add, a.mul + b.mul, a.div + b.div, a.call + b.call⟩

/-- The cost of a list of operations: an addition one, a multiplication two, a division ten and a
call fifty. -/
def OpCounts.cost (c : OpCounts) : Nat :=
  c.add + c.mul * 2 + c.div * 10 + c.call * 50

/-- One operation. -/
def BinOp.count : BinOp → OpCounts
  | add | sub => { add := 1 }
  | mul => { mul := 1 }
  | div => { div := 1 }

/-- The operations of a factor. -/
def Factor.count : Factor → OpCounts
  | .call _ => { call := 1 }
  | .ref _ => {}

namespace Expr

mutual

/-- The operations that an expression performs. -/
def count : Expr → OpCounts
  | .call _ => { call := 1 }
  | .binop op l r => op.count + count l + count r
  | .term t =>
    (if t.coeff.isUnit then {} else { mul := 1 : OpCounts } + count t.coeff) + t.factor.count
  | .sum ts => { add := ts.length - 1 : OpCounts } + countTerms ts
  | .scaled inner scale division =>
    (if division then { div := 1 : OpCounts } else { mul := 1 }) + count inner + count scale
  | .average bs scale =>
    { add := bs.length - 1, mul := 1 : OpCounts } + countList bs + count scale
  | .const _ | .var _ | .index _ | .lookup _ _ | .ref _ => {}

/-- The operations of a list of terms. -/
def countTerms : List (Term Expr) → OpCounts
  | [] => {}
  | t :: ts =>
    (if t.coeff.isUnit then {} else { mul := 1 : OpCounts } + count t.coeff) + t.factor.count +
      countTerms ts

/-- The operations of a list of expressions. -/
def countList : List Expr → OpCounts
  | [] => {}
  | e :: es => count e + countList es

end

/-- The estimated cost of an expression. -/
def cost (e : Expr) : Nat :=
  e.count.cost

/-- What it costs to evaluate a coefficient. A constant or a plain name costs nothing, so naming it
would only add a copy. -/
def coeffCost : Expr → Nat
  | .const _ | .ref _ => 0
  | .var n => if isIdentifier n then 0 else 1
  | .index t => if isIdentifier t || isNatural t.toList then 0 else 1
  | .binop _ l r => 1 + coeffCost l + coeffCost r
  | .lookup _ _ | .call _ | .term _ | .sum _ | .scaled _ _ _ | .average _ _ => 1

end Expr

end RecurrenceCompiler
