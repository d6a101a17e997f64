import RecurrenceCompiler.Expr.Basic

/-!
# Signatures

The signature of an expression is a text that stands for its structure: two coefficients are shared
when their signatures are equal. The signature of a call lists its shifts by index name, so the order
in which the indices are declared does not matter.
-/

namespace RecurrenceCompiler

open Text Decimal

/-- The signature of a call: its target and its shifts, sorted by index name. -/
def Call.signature (indices : List String) (c : Call) : String :=
  let pairs := indices.zipIdx.map fun (name, slot) => name ++ ":" ++ intText (c.shiftAt slot)
  c.target.getD "" ++ "[" ++ ",".intercalate (sortByUnits pairs) ++ "]"

/-- The text of a constant. -/
def Constant.text : Constant → String
  | .number x => numberText x
  | .raw t => t

/-- The signature of a factor. -/
def Factor.signature (indices : List String) : Factor → String
  | .call c => "call:" ++ c.signature indices
  | .ref n => "ref:" ++ n

namespace Expr

mutual

/-- The signature of an expression. -/
def signature (indices : List String) : Expr → String
  | .const c => "const:" ++ c.text
  | .var n => "var:" ++ n
  | .index t => "idx:" ++ t
  | .lookup t i => "lookup:" ++ t ++ "[" ++ i ++ "]"
  | .ref n => "ref:" ++ n
  | .call c => "call:" ++ c.signature indices
  | .binop op l r => "(" ++ signature indices l ++ op.text ++ signature indices r ++ ")"
  | .term t =>
    "term(" ++ signature indices t.coeff ++ ";" ++ t.factor.signature indices ++ ")"
  | .sum ts => "sum(" ++ ";".intercalate (termSignatures indices ts) ++ ")"
  | .scaled inner scale division =>
    "scaled" ++ (if division then "/" else "*") ++ "(" ++ signature indices inner ++ ";" ++
      signature indices scale ++ ")"
  | .average bs scale =>
    "avg(" ++ ";".intercalate (signatures indices bs) ++ ";" ++ signature indices scale ++ ")"

/-- The signatures of a list of terms. -/
def termSignatures (indices : List String) : List (Term Expr) → List String
  | [] => []
  | t :: ts =>
    ("term(" ++ signature indices t.coeff ++ ";" ++ t.factor.signature indices ++ ")") ::
      termSignatures indices ts

/-- The signatures of a list of expressions. -/
def signatures (indices : List String) : List Expr → List String
  | [] => []
  | e :: es => signature indices e :: signatures indices es

end

end Expr

end RecurrenceCompiler
