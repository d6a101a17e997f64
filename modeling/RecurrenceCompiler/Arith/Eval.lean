import RecurrenceCompiler.Arith.Carrier
import RecurrenceCompiler.Arith.Token

/-!
# The value of arithmetic text

A sum of products of signed primaries, read from left to right:

    expr    := term (("+" | "-") term)*
    term    := unary (("*" | "/") unary)*
    unary   := ("-" | "+") unary | primary
    primary := NUMBER | NAME | NAME "(" expr ("," expr)* ")" | "(" expr ")"

Reading and evaluating are one pass, so the first thing that is wrong, on the way from left to
right, is the error: a name without a value is found before a bracket that is missing further on.
-/

namespace RecurrenceCompiler.Arith

open Text

/-- The values of names. -/
abbrev Env (α : Type) := String → Option α

/-- A failed evaluation, before the text it belongs to is named. -/
inductive Failure where
  | invalid
  | unbound (name : String)
  | unknownFunction (name : String)
  | wrongArity (fn : MathFn)

/-- The error of a failed evaluation of a text. -/
def Failure.error (text : String) : Failure → Error
  | invalid => Arith.invalid text
  | unbound n => .evaluation (.unboundIdentifier n text)
  | unknownFunction n => .evaluation (.unknownFunction n text)
  | wrongArity f => .evaluation (.wrongArity f.name f.arity text)

section

variable {α : Type} [Carrier α] (env : Env α)

mutual

/-- The value of a sum at the front of the tokens. -/
def evalExpr : Nat → List Token → Except Failure (α × List Token)
  | 0, _ => .error .invalid
  | fuel + 1, ts => do
    let (v, ts) ← evalTerm fuel ts
    evalSum fuel v ts

/-- A sum with its first terms already added up. -/
def evalSum : Nat → α → List Token → Except Failure (α × List Token)
  | 0, _, _ => .error .invalid
  | fuel + 1, v, .op .plus :: ts => do
    let (w, ts) ← evalTerm fuel ts
    evalSum fuel (Carrier.add v w) ts
  | fuel + 1, v, .op .minus :: ts => do
    let (w, ts) ← evalTerm fuel ts
    evalSum fuel (Carrier.sub v w) ts
  | _ + 1, v, ts => .ok (v, ts)

/-- The value of a product at the front of the tokens. -/
def evalTerm : Nat → List Token → Except Failure (α × List Token)
  | 0, _ => .error .invalid
  | fuel + 1, ts => do
    let (v, ts) ← evalUnary fuel ts
    evalProduct fuel v ts

/-- A product with its first factors already multiplied. -/
def evalProduct : Nat → α → List Token → Except Failure (α × List Token)
  | 0, _, _ => .error .invalid
  | fuel + 1, v, .op .times :: ts => do
    let (w, ts) ← evalUnary fuel ts
    evalProduct fuel (Carrier.mul v w) ts
  | fuel + 1, v, .op .slash :: ts => do
    let (w, ts) ← evalUnary fuel ts
    evalProduct fuel (Carrier.div v w) ts
  | _ + 1, v, ts => .ok (v, ts)

/-- The value of a signed primary at the front of the tokens. -/
def evalUnary : Nat → List Token → Except Failure (α × List Token)
  | 0, _ => .error .invalid
  | fuel + 1, .op .minus :: ts => do
    let (v, ts) ← evalUnary fuel ts
    return (Carrier.neg v, ts)
  | fuel + 1, .op .plus :: ts => evalUnary fuel ts
  | fuel + 1, ts => evalPrimary fuel ts

/-- The value of a number, a name, a call or a parenthesis at the front of the tokens. -/
def evalPrimary : Nat → List Token → Except Failure (α × List Token)
  | 0, _ => .error .invalid
  | _ + 1, .num x :: ts => .ok (Carrier.ofFloat x, ts)
  | fuel + 1, .name n :: .op .left :: ts =>
    match MathFn.ofName? n with
    | none => .error (.unknownFunction n)
    | some f => do
      let (v, ts) ← evalExpr fuel ts
      let (vs, ts) ← evalArgs fuel [v] ts
      if vs.length == f.arity then return (Carrier.apply f vs, ts) else throw (.wrongArity f)
  | _ + 1, .name n :: ts =>
    match env n with
    | some v => .ok (v, ts)
    | none => .error (.unbound n)
  | fuel + 1, .op .left :: ts => do
    let (v, ts) ← evalExpr fuel ts
    match ts with
    | .op .right :: ts => return (v, ts)
    | _ => throw .invalid
  | _ + 1, _ => .error .invalid

/-- The arguments of a call after those already read, up to the closing parenthesis. -/
def evalArgs : Nat → List α → List Token → Except Failure (List α × List Token)
  | 0, _, _ => .error .invalid
  | fuel + 1, vs, .op .comma :: ts => do
    let (v, ts) ← evalExpr fuel ts
    evalArgs fuel (vs ++ [v]) ts
  | _ + 1, vs, .op .right :: ts => .ok (vs, ts)
  | _ + 1, _, _ => .error .invalid

end

/-- The value of a list of tokens that is one sum to its end. -/
def evalTokens (ts : List Token) : Except Failure α :=
  match evalExpr env (4 * ts.length + 4) ts with
  | .ok (v, []) => .ok v
  | .ok _ => .error .invalid
  | .error e => .error e

/-- The value of a text. -/
def eval (text : String) : Except Error α := do
  let ts ← tokenize text
  (evalTokens env ts).mapError (Failure.error text)

/-- The value of a text that must be a whole number. -/
def evalIndex (text : String) : Except Error α := do
  let v ← eval env text
  if Carrier.isWhole v then return v
  else throw (.evaluation (.notAnInteger text (Carrier.text v)))

end

end RecurrenceCompiler.Arith
