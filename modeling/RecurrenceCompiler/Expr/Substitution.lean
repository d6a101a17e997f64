import RecurrenceCompiler.Expr.Basic

/-!
# Fixing indices

`Expr.substitute` writes fixed values in place of index names wherever index arithmetic stands: in
index expressions and table indices. Calls keep their shifts, since the place they are read from is
decided by the code around them.
-/

namespace RecurrenceCompiler.Expr

open Arith

mutual

/-- The expression with names of index arithmetic replaced. -/
def substitute (value : String → Option String) : Expr → Expr
  | .index t => .index (Arith.substitute value t)
  | .lookup table i => .lookup table (Arith.substitute value i)
  | .binop op l r => .binop op (substitute value l) (substitute value r)
  | .term t => .term ⟨substitute value t.coeff, t.factor⟩
  | .sum ts => .sum (substituteTerms value ts)
  | .scaled inner scale division =>
    .scaled (substitute value inner) (substitute value scale) division
  | .average bs scale => .average (substituteList value bs) (substitute value scale)
  | .const c => .const c
  | .var n => .var n
  | .ref n => .ref n
  | .call c => .call c

/-- The terms with names of index arithmetic replaced in their coefficients. -/
def substituteTerms (value : String → Option String) : List (Term Expr) → List (Term Expr)
  | [] => []
  | t :: ts => ⟨substitute value t.coeff, t.factor⟩ :: substituteTerms value ts

/-- The expressions with names of index arithmetic replaced. -/
def substituteList (value : String → Option String) : List Expr → List Expr
  | [] => []
  | e :: es => substitute value e :: substituteList value es

end

end RecurrenceCompiler.Expr
