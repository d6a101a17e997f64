import RecurrenceCompiler.Error
import RecurrenceCompiler.Expr.Signature

/-!
# Writing rule text

The printer writes an expression so that the parser reads it back. Negative constants and index
arithmetic are parenthesised; an average of branches has no text of its own.
-/

namespace RecurrenceCompiler.RuleText

open Text Decimal

/-- The names that printed text uses. -/
structure PrintContext where
  indices : List String
  selfName : String

/-- A rule as text: its body and its scale. -/
structure PrintedRule where
  body : String
  scale : Option String

/-- An index with its shift, without blanks. -/
def printShift (name : String) (shift : Int) : String :=
  if shift == 0 then name
  else if 0 < shift then name ++ "+" ++ intText shift
  else name ++ "-" ++ intText (-shift)

/-- A call. -/
def printCall (ctx : PrintContext) (c : Call) : String :=
  let parts := ctx.indices.zipIdx.map fun (name, slot) => printShift name (c.shiftAt slot)
  c.target.getD ctx.selfName ++ "[" ++ ", ".intercalate parts ++ "]"

/-- A constant, in parentheses when it is negative. -/
def printConstant : Constant → String
  | .number x => if x < 0.0 then "(" ++ numberText x ++ ")" else numberText x
  | .raw t => t

/-- What a term multiplies. -/
def printFactor (ctx : PrintContext) : Factor → String
  | .call c => printCall ctx c
  | .ref n => n

/-- The error of an expression that no text spells. -/
def noText : Error :=
  .definition .averageHasNoText

mutual

/-- An expression as rule text. -/
def printExpr (ctx : PrintContext) : Expr → Except Error String
  | .const c => .ok (printConstant c)
  | .var n => .ok n
  | .index t => .ok (if isIdentifier t then t else "(" ++ t ++ ")")
  | .lookup t i => .ok (t ++ "[" ++ i ++ "]")
  | .ref n => .ok n
  | .call c => .ok (printCall ctx c)
  | .binop op l r => do
    let l ← printExpr ctx l
    let r ← printExpr ctx r
    return if op == .mul then l ++ " * " ++ r else "(" ++ l ++ " " ++ op.text ++ " " ++ r ++ ")"
  | .term t => do
    let call := printFactor ctx t.factor
    if t.coeff.isUnit then return call
    else
      let coeff ← printExpr ctx t.coeff
      return coeff ++ " * " ++ call
  | .sum ts => do
    let parts ← printTerms ctx ts
    return if parts.isEmpty then "0" else " + ".intercalate parts
  | .scaled inner scale division => do
    let inner ← printExpr ctx inner
    let scale ← printExpr ctx scale
    return "(" ++ inner ++ ") " ++ (if division then "/" else "*") ++ " " ++ scale
  | .average _ _ => .error noText

/-- A list of terms as rule text. -/
def printTerms (ctx : PrintContext) : List (Term Expr) → Except Error (List String)
  | [] => .ok []
  | t :: ts => do
    let call := printFactor ctx t.factor
    let text ←
      if t.coeff.isUnit then pure call
      else do
        let coeff ← printExpr ctx t.coeff
        pure (coeff ++ " * " ++ call)
    let rest ← printTerms ctx ts
    return text :: rest

end

/-- A rule body and its scale as text. -/
def printRule (ctx : PrintContext) : Expr → Except Error PrintedRule
  | .scaled inner scale division => do
    let scale ← printExpr ctx scale
    let body ← printExpr ctx inner
    return ⟨body, some (if division then "1/" ++ scale else scale)⟩
  | e => do
    let body ← printExpr ctx e
    return ⟨body, none⟩

end RecurrenceCompiler.RuleText
