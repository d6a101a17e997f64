import RecurrenceCompiler.Arith.Token
import RecurrenceCompiler.Arith.Carrier
import RecurrenceCompiler.Expr.Basic
import RecurrenceCompiler.RuleText.Split

/-!
# Reading rule text

A rule body is a sum of terms such as `(2*n-1) * x * E[n-1]`: a coefficient and a call whose brackets
list the shifted indices. Coefficients are cut at top-level stars into factors. A factor that
mentions an index stays text, to be evaluated as index arithmetic; other factors are numbers, runtime
variables, parenthesised products or runtime arithmetic, which stays text too.

Names that are neither index, runtime variable nor elementary function are kept and reported by
`Context.warnings`.
-/

namespace RecurrenceCompiler.RuleText

open Text Decimal Arith

/-- What the names in a text refer to. -/
structure Context where
  /-- The recurrence that the text belongs to. -/
  name : String
  indices : List String
  runtimeVars : List String
  arrayVars : List String := []
  /-- The name under which rule text calls the recurrence itself. -/
  selfName : String
  ruleIndex : Option Nat := none

namespace Context

variable (ctx : Context)

/-- The error of a text in this context. -/
def fault (what : TextFault) (fragment : List Char) : Error :=
  .text what (String.ofList fragment) (some ⟨ctx.name, ctx.ruleIndex⟩)

/-- Whether a name refers to something. -/
def knows (name : String) : Bool :=
  ctx.indices.contains name || ctx.runtimeVars.contains name || (MathFn.ofName? name).isSome ||
    ctx.arrayVars.contains name

/-- The warning about an unknown name. -/
def unknownName (name : String) : Diagnostic :=
  .make .unknownIdentifier (some [("name", .text name)])
    (some ([("recurrence", .text ctx.name), ("name", .text name)] ++
      match ctx.ruleIndex with
      | some i => [("rule", .number (Float.ofNat i))]
      | none => []))

/-- The texts of a leaf in which names are looked up. -/
def leafTexts : Expr → List String
  | .var n => if ctx.runtimeVars.contains n then [] else [n]
  | .index t => [t]
  | .lookup _ i => [i]
  | _ => []

/-- The warnings about a parsed expression: each text reports each of its unknown names once. -/
def warnings (e : Expr) : List Diagnostic :=
  (e.leaves.flatMap ctx.leafTexts).flatMap fun t =>
    ((namesIn t).filter fun n => !ctx.knows n).map ctx.unknownName

end Context

/-- A coefficient with its sign changed. -/
def negate : Expr → Expr
  | .const (.number x) => .number (-x)
  | e => .binop .mul (.number (-1.0)) e

/-- The number that a literal text stands for. -/
def literal? (cs : List Char) : Option Float :=
  signedLiteral? (trim cs)

/-- Text that consists of arithmetic tokens. -/
def checkTokens (ctx : Context) (cs : List Char) : Except Error Unit :=
  if (tokens? cs).isSome then .ok () else .error (ctx.fault .invalidArithmetic cs)

section

variable (ctx : Context)

mutual

/-- A product of factors, with a bound on the nesting. -/
def coeffWithin : Nat → List Char → Except Error Expr
  | 0, cs => .error (ctx.fault .malformedTerm cs)
  | fuel + 1, cs => factorsWithin fuel cs none (splitTop '*' (trim cs))

/-- The product of the factors that follow; `whole` is the text they were cut from. -/
def factorsWithin : Nat → List Char → Option Expr → List (List Char) → Except Error Expr
  | 0, whole, _, _ => .error (ctx.fault .malformedTerm whole)
  | _ + 1, whole, none, [] => .error (ctx.fault .malformedTerm whole)
  | _ + 1, _, some e, [] => .ok e
  | fuel + 1, whole, acc, f :: fs =>
    if f.isEmpty then .error (ctx.fault .malformedTerm whole)
    else do
      let e ← factorWithin fuel f
      factorsWithin fuel whole (some ((acc.map (.binop .mul · e)).getD e)) fs

/-- A factor, with a bound on the nesting. -/
def factorWithin : Nat → List Char → Except Error Expr
  | 0, cs => .error (ctx.fault .malformedTerm cs)
  | fuel + 1, cs =>
    let text := String.ofList cs
    match literal? cs with
    | some x => .ok (.number x)
    | none =>
      if ctx.runtimeVars.contains text then .ok (.var text)
      else if (namesIn text).any ctx.indices.contains then do
        let inner := unwrap cs
        checkTokens ctx inner
        return .index (String.ofList inner)
      else if isWrapped cs then coeffWithin fuel (peel cs)
      else
        match cs with
        | '-' :: rest =>
          let rest := trim rest
          if rest.isEmpty then .error (ctx.fault .malformedTerm cs)
          else (factorWithin fuel rest).map negate
        | _ => do
          checkTokens ctx cs
          return .var (if isIdentifier text then text else "(" ++ text ++ ")")

end

/-- A coefficient: a product of factors. -/
def parseCoeff (cs : List Char) : Except Error Expr :=
  coeffWithin ctx (3 * cs.length + 4) cs

/-- A component of a call: an index name and its shift. -/
def shift? (cs : List Char) : Option (String × Whole) :=
  match startingName? cs with
  | none => none
  | some (name, rest) =>
    let amount? := fun (ds : List Char) =>
      if isNatural (trimStart ds) then some (Whole.read (trimStart ds)) else none
    match trimStart rest with
    | [] => some (String.ofList name, 0)
    | '+' :: ds => (amount? ds).map fun n => (String.ofList name, n)
    | '-' :: ds => (amount? ds).map fun n => (String.ofList name, n.negate)
    | _ => none

/-- The shifts that the components of a call set, over those set so far. Each index is named at most
once. -/
def parseShifts : List String → List Whole → List (List Char) → Except Error (List Whole)
  | _, shifts, [] => .ok shifts
  | seen, shifts, c :: cs =>
    match shift? c with
    | none => .error (ctx.fault .invalidShift c)
    | some (name, amount) =>
      if !ctx.indices.contains name || seen.contains name then .error (ctx.fault .invalidShift c)
      else parseShifts (name :: seen) (shifts.set (ctx.indices.idxOf name) amount) cs

/-- A call, from its name and the text between its brackets. -/
def parseCall (name : List Char) (text : List Char) : Except Error Call :=
  if (trim text).isEmpty then
    .error (ctx.fault .invalidShift (name ++ ('[' :: text) ++ [']']))
  else do
    let shifts ← parseShifts ctx [] (ctx.indices.map fun _ => 0) (splitTop ',' text)
    let target := String.ofList name
    return ⟨shifts, if target == ctx.name || target == ctx.selfName then none else some target⟩

/-- The coefficient before a call. -/
def parseFront (whole front : List Char) : Except Error Expr :=
  match trim front with
  | [] => .ok (.number 1.0)
  | ['-'] => .ok (.number (-1.0))
  | front =>
    if front.getLast? != some '*' then .error (ctx.fault .malformedTerm whole)
    else
      let coeff := trim front.dropLast
      if coeff.isEmpty then .error (ctx.fault .malformedTerm whole) else parseCoeff ctx coeff

/-- A term: a coefficient and a call that ends it. -/
def parseTerm (p : Piece) : Except Error (Term Expr) :=
  match cutAt? ['['] p.text with
  | none => .error (ctx.fault .noCall p.text)
  | some (head, rest) =>
    if rest.contains '[' then .error (ctx.fault .malformedTerm p.text)
    else
      match cutAt? [']'] rest with
      | none => .error (ctx.fault .unbalancedBrackets p.text)
      | some (inside, after) =>
        if !(trim after).isEmpty then .error (ctx.fault .malformedTerm p.text)
        else
          match endingName? head with
          | none => .error (ctx.fault .malformedTerm p.text)
          | some (front, name) => do
            let call ← parseCall ctx name inside
            let coeff ← parseFront ctx p.text front
            return ⟨if p.negated then negate coeff else coeff, .call call⟩

/-- The terms of a sum; `body` is the text they were cut from. -/
def parseTerms (body : List Char) : List Piece → Except Error (List (Term Expr))
  | [] => .ok []
  | p :: ps =>
    if p.text.isEmpty then .error (ctx.fault .malformedTerm body)
    else do
      let t ← parseTerm ctx p
      let ts ← parseTerms body ps
      return t :: ts

/-- The terms of a rule body. -/
def parseSum (cs : List Char) : Except Error (List (Term Expr)) :=
  let body := trim (collapseBlanks cs)
  if body.isEmpty then .error (ctx.fault .noCall cs)
  else if !balanced body then .error (ctx.fault .unbalancedBrackets body)
  else parseTerms ctx body (splitTerms body)

/-- The divisor of a scale that is written as one over something. -/
def divisor? (cs : List Char) : Option (List Char) :=
  match cs with
  | '1' :: rest =>
    let rest :=
      match rest with
      | '.' :: r => r.dropWhile (· == '0')
      | r => r
    match trimStart rest with
    | '/' :: r => if (trimStart r).isEmpty then none else some (trimStart r)
    | _ => none
  | _ => none

/-- A scale and whether it divides. -/
def parseScaleChars (cs : List Char) : Except Error (Expr × Bool) :=
  let text := trim cs
  match divisor? text with
  | some d => (parseCoeff ctx d).map fun e => (e, true)
  | none =>
    if text.isEmpty then .error (ctx.fault .malformedTerm cs)
    else (parseCoeff ctx text).map fun e => (e, false)

/-- A rule body. -/
def parseBody (text : String) : Except Error Expr :=
  (parseSum ctx text.toList).map .sum

/-- A rule body with an optional scale. -/
def parseRule (text : String) (scale : Option String) : Except Error Expr := do
  let body ← parseBody ctx text
  match scale with
  | none => return body
  | some s =>
    let (factor, division) ← parseScaleChars ctx s.toList
    return .scaled body factor division

/-- A scale and whether it divides. -/
def parseScale (text : String) : Except Error (Expr × Bool) :=
  parseScaleChars ctx text.toList

/-- A coefficient. -/
def parseCoefficient (text : String) : Except Error Expr :=
  parseCoeff ctx text.toList

/-- A table and the text between the brackets after it, if the text is a table entry on one line. -/
def table? (cs : List Char) : Option (List Char × List Char) :=
  match startingName? cs with
  | none => none
  | some (name, rest) =>
    match trimStart rest with
    | '[' :: inside =>
      let index := inside.dropLast
      if inside.getLast? == some ']' && !index.isEmpty && !index.any isLineBreak then
        some (name, index)
      else none
    | _ => none

/-- The value of a base case: a number, a runtime variable, a table entry, or runtime arithmetic. -/
def parseValue : Constant → Except Error Expr
  | .number x => .ok (.number x)
  | .raw value =>
    let cs := trim value.toList
    let text := String.ofList cs
    if cs.isEmpty then .error (ctx.fault .malformedTerm value.toList)
    else
      match literal? cs with
      | some x => .ok (.number x)
      | none =>
        if ctx.runtimeVars.contains text then .ok (.var text)
        else
          match table? cs with
          | some (name, index) =>
            if ctx.arrayVars.contains (String.ofList name) then
              .ok (.lookup (String.ofList name) (String.ofList (trim index)))
            else parseCoeff ctx cs
          | none => parseCoeff ctx cs

end

end RecurrenceCompiler.RuleText
