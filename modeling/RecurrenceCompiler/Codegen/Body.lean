import RecurrenceCompiler.Codegen.Stmt
import RecurrenceCompiler.Expr.Sharing

/-!
# Rule bodies

A rule body becomes declarations and a result. When sharing finds something to name, the shared parts
are declared. Otherwise a body with few calls is one expression; a larger sum, scaled sum or average
of sums declares each term.
-/

namespace RecurrenceCompiler

/-- How a rule body was rendered. -/
inductive Strategy where
  | cse
  | sum
  | scaledSum
  | branchAverage
  | inline
deriving DecidableEq

/-- The name of a strategy. -/
def Strategy.text : Strategy → String
  | cse => "cse"
  | sum => "sum"
  | scaledSum => "scaled-sum"
  | branchAverage => "branch-average"
  | inline => "inline"

/-- Declarations, and the expression that is the value once they ran. -/
structure Body where
  statements : List (Stmt String)
  result : String
  strategy : Strategy

namespace Body

/-- The most calls that a body written as one expression has. -/
def inlineCallLimit : Nat := 3

/-- The letters that name the branches of an average. -/
def branchLetters : List Char :=
  "abcdefghijklmnopqrstuvwxyz".toList

variable (d : Dialect) (call : CallText)

/-- Declarations of terms, numbered from `i`. -/
def declareTerms (stem : String) : Nat → List (Term Expr) → Except Error (List (String × String))
  | _, [] => .ok []
  | i, t :: ts => do
    let text ← renderExpr d call (.term t)
    let rest ← declareTerms stem (i + 1) ts
    return ("_" ++ stem ++ toString i, text) :: rest

/-- The statements that declare named values. -/
def declarations (ns : List (String × String)) : List (Stmt String) :=
  ns.map fun (n, v) => .value n v

/-- The sum of named values. -/
def sumOfNames (ns : List (String × String)) : String :=
  if ns.isEmpty then d.zero else " + ".intercalate (ns.map (·.1))

/-- The branches of an average that are sums, if all of them are. -/
def branchSums? : List Expr → Option (List (List (Term Expr)))
  | [] => some []
  | .sum ts :: es => (branchSums? es).map (ts :: ·)
  | _ :: _ => none

/-- The declarations of the branches of an average, and the sum of each branch. -/
def declareBranches : List Char → List (List (Term Expr)) →
    Except Error (List (Stmt String) × List String)
  | letter :: letters, ts :: rest => do
    let names ← declareTerms d call (String.singleton letter) 1 ts
    let (stmts, sums) ← declareBranches letters rest
    return (.comment ("Branch " ++ String.singleton letter.toUpper) :: (declarations names ++ stmts),
      ("(" ++ sumOfNames d names ++ ")") :: sums)
  | _, _ => .ok ([], [])

/-- A body as one expression. -/
def inlined (e : Expr) : Except Error Body := do
  let text ← renderExpr d call e
  return ⟨[], text, .inline⟩

/-- A body without shared parts. -/
def unshared (e : Expr) : Except Error Body :=
  if e.calls.length ≤ inlineCallLimit then inlined d call e
  else
    match e with
    | .sum ts => do
      let names ← declareTerms d call "t" 1 ts
      return ⟨declarations names, sumOfNames d names, .sum⟩
    | .scaled (.sum ts) scale division => do
      let names ← declareTerms d call "t" 1 ts
      let scale ← renderExpr d call scale
      return ⟨declarations names,
        "(" ++ sumOfNames d names ++ ") " ++ (if division then "/" else "*") ++ " (" ++ scale ++ ")",
        .scaledSum⟩
    | .average bs scale =>
      match branchSums? bs with
      | some sums =>
        if sums.length ≤ branchLetters.length then do
          let (stmts, parts) ← declareBranches d call branchLetters sums
          let scale ← renderExpr d call scale
          return ⟨stmts, "(" ++ " + ".intercalate parts ++ ") * (" ++ scale ++ ")", .branchAverage⟩
        else inlined d call e
      | none => inlined d call e
    | e => inlined d call e

/-- Declarations of the shared parts. -/
def declareShared : List Candidate → Except Error (List (Stmt String))
  | [] => .ok []
  | c :: cs => do
    let text ← renderExpr d call c.expr
    let rest ← declareShared cs
    return .value c.name text :: rest

/-- The body of a rule. -/
def render (indices : List String) (optimization : Optimization) (threshold : Int) (e : Expr) :
    Except Error Body :=
  if optimization == .cse && e.worthSharing indices then
    let shared := e.share indices threshold
    if shared.candidates.isEmpty then unshared d call e
    else do
      let stmts ← declareShared d call shared.candidates
      let result ← renderExpr d call shared.result
      return ⟨.comment "CSE: cached calls and coefficients" :: stmts, result, .cse⟩
  else unshared d call e

end Body

end RecurrenceCompiler
