import RecurrenceCompiler.Decimal.Amount
import RecurrenceCompiler.Expr.Basic
import RecurrenceCompiler.Error

/-!
# Output dialects

Code is generated for C++, as templates over a vector type, or for JavaScript. A dialect says how
constants, lifted index arithmetic and declarations are written; `renderExpr` writes expressions, with
parentheses wherever the operators around an operand could otherwise regroup it. How a call is
written depends on the generator, which passes it in.
-/

namespace RecurrenceCompiler

open Decimal

/-- The output language. -/
inductive Target where
  | cpp
  | js
deriving DecidableEq

/-- The name of an output language. -/
def Target.text : Target → String
  | cpp => "cpp"
  | js => "js"

/-- How far code is optimised. -/
inductive Optimization where
  | none
  | cse
deriving DecidableEq

/-- The name of an optimisation level. -/
def Optimization.text : Optimization → String
  | none => "none"
  | cse => "cse"

/-- The options of a generator. -/
structure CodegenOptions where
  target : Target := .cpp
  /-- The vector type of C++ output. -/
  vecType : String := "Vec8d"
  /-- The header that declares the vector type. -/
  vecInclude : String := "vectorclass.h"
  optimization : Optimization := .cse
  /-- How often a subexpression must occur to get a name. -/
  cseThreshold : Int := 2
  /-- Extra slots for layers that are read from a table. -/
  tablePadding : Amount := .whole 0

/-- A language together with its vector type. -/
structure Dialect where
  target : Target
  vecType : String

/-- The dialect of the options. -/
def CodegenOptions.dialect (o : CodegenOptions) : Dialect :=
  ⟨o.target, o.vecType⟩

/-- A constant as a C++ literal. -/
def cppNumber (x : Float) : String :=
  if isWhole x then numberText x ++ ".0" else numberText x

namespace Dialect

variable (d : Dialect)

/-- The extension of generated files. -/
def extension : String :=
  match d.target with
  | .cpp => "hpp"
  | .js => "js"

/-- The zero of the value type. -/
def zero : String :=
  match d.target with
  | .cpp => d.vecType ++ "(0.0)"
  | .js => "0"

/-- A constant. -/
def number (x : Float) : String :=
  match d.target with
  | .cpp => d.vecType ++ "(" ++ cppNumber x ++ ")"
  | .js => if x < 0.0 || isNegativeZero x then "(" ++ numberText x ++ ")" else numberText x

/-- Index arithmetic as a value. -/
def indexValue (text : String) : String :=
  match d.target with
  | .cpp => d.vecType ++ "(" ++ text ++ ")"
  | .js => "(" ++ text ++ ")"

/-- A declaration of a value. -/
def declare (name value : String) : String :=
  match d.target with
  | .cpp => d.vecType ++ " " ++ name ++ " = " ++ value ++ ";"
  | .js => "const " ++ name ++ " = " ++ value ++ ";"

/-- A declaration of an index. -/
def declareIndex (name value : String) : String :=
  match d.target with
  | .cpp => "const int " ++ name ++ " = " ++ value ++ ";"
  | .js => "const " ++ name ++ " = " ++ value ++ ";"

/-- The head of a loop over the slots of a layer. -/
def loopHead (name start : String) : String :=
  match d.target with
  | .cpp =>
    "for (int " ++ name ++ " = " ++ start ++ "; " ++ name ++ " < N_VALUES; ++" ++ name ++ ") \x7b"
  | .js =>
    "for (let " ++ name ++ " = " ++ start ++ "; " ++ name ++ " < N_VALUES; " ++ name ++ "++) \x7b"

end Dialect

/-- An index with its shift: `n`, `n + 1`, `n - 2`. -/
def shiftedIndex (name : String) (shift : Int) : String :=
  if shift == 0 then name
  else if 0 < shift then name ++ " + " ++ intText shift
  else name ++ " - " ++ intText (-shift)

/-- An index with a shift that need not be whole. -/
def shiftedBy (name : String) (shift : Float) : String :=
  if shift == 0.0 then name
  else if 0.0 < shift then name ++ " + " ++ numberText shift
  else name ++ " - " ++ numberText (-shift)

/-- Lines moved right by four columns a level. Empty lines stay empty. -/
def indent (depth : Nat) (lines : List String) : List String :=
  let pad := String.ofList (List.replicate (4 * depth) ' ')
  lines.map fun l => if l.isEmpty then l else pad ++ l

/-- Whether an operand is put in parentheses. -/
def Expr.isCompound : Expr → Bool
  | .binop .. | .sum _ | .scaled .. | .average .. => true
  | _ => false

/-- Whether a coefficient is put in parentheses. -/
def Expr.isCompoundCoeff : Expr → Bool
  | .binop .add _ _ | .binop .sub _ _ | .sum _ | .scaled .. | .average .. => true
  | _ => false

/-- A text in parentheses, if asked. -/
def parenthesise (needed : Bool) (text : String) : String :=
  if needed then "(" ++ text ++ ")" else text

/-- How a generator writes a call. -/
abbrev CallText := Call → Except Error String

/-- A factor in a dialect. -/
def renderFactor (call : CallText) : Factor → Except Error String
  | .call c => call c
  | .ref n => .ok n

/-- A coefficient before the text of its call. -/
def renderProduct (coeff : Expr) (text call : String) : String :=
  if coeff.isUnit then call else parenthesise coeff.isCompoundCoeff text ++ " * " ++ call

mutual

/-- An expression in a dialect. -/
def renderExpr (d : Dialect) (call : CallText) : Expr → Except Error String
  | .const (.number x) => .ok (d.number x)
  | .const (.raw t) => .ok t
  | .var n => .ok n
  | .index t => .ok (d.indexValue t)
  | .lookup t i => .ok (t ++ "[" ++ i ++ "]")
  | .ref n => .ok n
  | .call c => call c
  | .binop op l r => do
    let lt ← renderExpr d call l
    let rt ← renderExpr d call r
    return parenthesise l.isCompound lt ++ " " ++ op.text ++ " " ++ parenthesise r.isCompound rt
  | .term t => do
    let c ← renderFactor call t.factor
    let k ← renderExpr d call t.coeff
    return renderProduct t.coeff k c
  | .sum ts => do
    let parts ← renderTerms d call ts
    return if parts.isEmpty then d.zero else " + ".intercalate parts
  | .scaled inner scale division => do
    let inner ← renderExpr d call inner
    let scale ← renderExpr d call scale
    return "(" ++ inner ++ ") " ++ (if division then "/" else "*") ++ " (" ++ scale ++ ")"
  | .average bs scale => do
    let parts ← renderList d call bs
    let scale ← renderExpr d call scale
    return "(" ++ " + ".intercalate (parts.map (parenthesise true)) ++ ") * (" ++ scale ++ ")"

/-- Terms in a dialect. -/
def renderTerms (d : Dialect) (call : CallText) : List (Term Expr) → Except Error (List String)
  | [] => .ok []
  | t :: ts => do
    let c ← renderFactor call t.factor
    let k ← renderExpr d call t.coeff
    let rest ← renderTerms d call ts
    return renderProduct t.coeff k c :: rest

/-- Expressions in a dialect. -/
def renderList (d : Dialect) (call : CallText) : List Expr → Except Error (List String)
  | [] => .ok []
  | e :: es => do
    let text ← renderExpr d call e
    let rest ← renderList d call es
    return text :: rest

end

end RecurrenceCompiler
