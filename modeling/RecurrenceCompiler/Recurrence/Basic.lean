import RecurrenceCompiler.Constraint.Guard
import RecurrenceCompiler.Decimal.Amount
import RecurrenceCompiler.Json.Basic
import RecurrenceCompiler.RuleText.Parser
import RecurrenceCompiler.RuleText.Printer

/-!
# Recurrences

A recurrence has a header (its name, indices, runtime variables and options), a validity guard that
restricts its whole domain, base cases and rules. Base cases bind some of the indices; rules carry a
guard. Rules are tried by priority: more equalities first, then more constraints, then the order of
declaration.
-/

namespace RecurrenceCompiler

open Text Decimal Arith

/-- A base case: for each slot the value it is bound to, if any, and the value of the case. -/
structure BaseCase where
  slots : List (Option Whole)
  value : Expr

/-- A guarded rule. Its index is its place among the rules in the order of declaration. -/
structure Rule where
  guard : Guard
  expr : Expr
  name : Option String
  index : Nat

/-- What is declared about a recurrence before its cases. -/
structure Header where
  name : String
  indices : List String
  runtimeVars : List String
  /-- The runtime variables that are tables. -/
  arrayVars : List String
  nameSpace : String
  /-- The largest value of each index that a dispatcher serves, in the order of the indices. The
  index `__proto__` has none, since no value can be stored under that name. -/
  maxIndices : List (String × Whole)
  /-- The index that ranges inside a layer. -/
  auxIndex : Option String
  /-- The name under which rule text calls the recurrence itself. -/
  selfName : String
  /-- Whether layered code is wanted too. -/
  layered : Bool
  description : String

/-- A recurrence. -/
structure Recurrence extends Header where
  validity : Guard := {}
  bases : List BaseCase := []
  rules : List Rule := []
  /-- The warnings about its texts. -/
  diagnostics : List Diagnostic := []

/-- The order of priority of guards with an index each. -/
def priorityLe (g : Guard) (i : Nat) (h : Guard) (j : Nat) : Bool :=
  if g.equalities != h.equalities then h.equalities < g.equalities
  else if g.size != h.size then h.size < g.size
  else i ≤ j

/-- The rules in the order of their priority. -/
def sortRules (rules : List Rule) : List Rule :=
  sortBy (fun a b => priorityLe a.guard a.index b.guard b.index) rules

namespace Header

/-- The largest value of an index, if it has one. -/
def maxOf? (h : Header) (index : String) : Option Int :=
  (Json.getField? h.maxIndices index).map Whole.toInt

/-- The largest value of an index in sums and texts. -/
def maxAmount (h : Header) (index : String) : Amount :=
  match h.maxOf? index with
  | some i => .ofInt i
  | none => .joined "[object Object]"

/-- The slot of an index. -/
def slotOf (h : Header) (index : String) : Except Error Nat :=
  if h.indices.contains index then .ok (h.indices.idxOf index)
  else .error (.definition (.unknownIndex h.name index))

/-- The context of a text of this recurrence. -/
def context (h : Header) (ruleIndex : Option Nat) : RuleText.Context where
  name := h.name
  indices := h.indices
  runtimeVars := h.runtimeVars
  arrayVars := h.arrayVars
  selfName := h.selfName
  ruleIndex := ruleIndex

/-- The context for printing expressions of this recurrence. -/
def printContext (h : Header) : RuleText.PrintContext :=
  ⟨h.indices, h.selfName⟩

/-- Whether a call stays in the recurrence. -/
def isSelf (h : Header) (c : Call) : Bool :=
  match c.target with
  | none => true
  | some t => t == h.name

end Header

namespace Recurrence

/-- The rules in the order of their priority. -/
def sortedRules (r : Recurrence) : List Rule :=
  sortRules r.rules

/-- The other recurrences that the rules call, in the order of first use. -/
def dependencies (r : Recurrence) : List String :=
  distinct <| (r.rules.flatMap fun rule => rule.expr.calls).filterMap fun c =>
    match c.target with
    | some t => if t == r.name then none else some t
    | none => none

/-- A rule in words: its text, the scale after it, or the branches of an average. -/
def describe (r : Recurrence) (e : Expr) : Except Error String :=
  match e with
  | .average branches _ => do
    let parts ← branches.mapM (RuleText.printExpr r.printContext)
    return "average of " ++ " | ".intercalate parts
  | e => do
    let printed ← RuleText.printRule r.printContext e
    return match printed.scale with
      | none => printed.body
      | some s => "(" ++ printed.body ++ ") * " ++ s

end Recurrence

end RecurrenceCompiler
