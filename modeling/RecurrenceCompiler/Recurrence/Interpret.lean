import RecurrenceCompiler.Expr.Eval
import RecurrenceCompiler.Recurrence.Selection
import Std.Data.HashMap

/-!
# Interpreting recurrences

The reference meaning of a recurrence: select the case at a point and evaluate its expression, calls
being interpreted in turn at shifted points. Values are remembered by recurrence and point for the
length of one interpretation, and a point that is needed for its own value is an error.
-/

namespace RecurrenceCompiler

open Arith

/-- The value of a runtime variable. -/
inductive RuntimeValue (α : Type) where
  | scalar (x : α)
  | table (xs : List α)

/-- The values of runtime variables. -/
abbrev RuntimeVars (α : Type) := String → Option (RuntimeValue α)

/-- Whether a variable counts as given: it has a value, or every record holds its name. -/
def RuntimeVars.binds (vars : RuntimeVars α) (v : String) : Bool :=
  (vars v).isSome || (Ambient.ofName? v).isSome

/-- Finds the recurrences that cross calls name. -/
abbrev Resolver := String → Option Recurrence

/-- The values found so far, under the text of recurrence and point. -/
abbrev Memo (α : Type) := Std.HashMap String α

namespace Recurrence

section

variable {α : Type} [Carrier α]

/-- The text that names a recurrence at a point. -/
def pointKey (r : Recurrence) (point : List α) : String :=
  r.name ++ "[" ++ ",".intercalate (point.map Carrier.text) ++ "]"

/-- The values of the indices. -/
def pointEnv (r : Recurrence) (point : List α) : Env α := fun n =>
  if r.indices.contains n then point[r.indices.idxOf n]? else none

/-- What the names of a case stand for: indices first, then runtime variables. -/
def pointScope (r : Recurrence) (vars : RuntimeVars α) (point : List α) : Scope α where
  value n :=
    if r.indices.contains n then point[r.indices.idxOf n]?
    else match vars n with
      | some (.scalar x) => some x
      | _ => none
  table n :=
    match vars n with
    | some (.table xs) => some (.ofList xs)
    | some (.scalar _) => none
    | none => (Ambient.ofName? n).map .ofAmbient

/-- A point moved by the shifts of a call. -/
def shiftPoint (point : List α) (c : Call) : List α :=
  point.zipIdx.map fun (v, slot) => Carrier.add v (Carrier.ofFloat (c.wholeShiftAt slot).toFloat)

/-- The value of the selected case. -/
def evalSelection [Monad m] [MonadExceptOf Error m] (s : Scope α) (call : Call → m α) :
    Selection → m α
  | .base _ b => b.value.eval s call
  | .rule rule => rule.expr.eval s call
  | .primary => pure Carrier.zero

/-- Every runtime variable must be given. -/
def checkBound (r : Recurrence) (vars : RuntimeVars α) : Except Error Unit :=
  match r.runtimeVars.find? fun v => !vars.binds v with
  | some v => .error (.evaluation (.unboundVariable v r.name))
  | none => .ok ()

/-- The recurrence that a call goes to. -/
def callee (r : Recurrence) (resolve : Resolver) (c : Call) : Except Error Recurrence :=
  match c.target with
  | none => .ok r
  | some t =>
    match resolve t with
    | some target => .ok target
    | none => .error (.evaluation (.callsUnknown r.name t))

/-- The value at a point. The path holds the points whose values are being computed; the fuel bounds
how deep calls may nest further. -/
def interpretWithin (resolve : Resolver) (vars : RuntimeVars α) :
    Nat → List String → Recurrence → List α → StateT (Memo α) (Except Error) α
  | 0, _, _, _ => throw (.fault .tooDeep)
  | fuel + 1, path, r, point => do
    let key := r.pointKey point
    let memo ← get
    match memo[key]? with
    | some v => return v
    | none =>
      if path.contains key then throw (.evaluation (.dependsOnItself key))
      orThrow (r.checkBound vars)
      let chosen ← orThrow (r.select (r.pointEnv point))
      let v ← evalSelection (r.pointScope vars point) (fun c => do
        let target ← orThrow (r.callee resolve c)
        interpretWithin resolve vars fuel (key :: path) target (shiftPoint point c)) chosen
      modify (·.insert key v)
      return v

/-- The value of a recurrence at a point, where calls may nest up to a depth. -/
def interpretTo (depth : Nat) (r : Recurrence) (resolve : Resolver) (vars : RuntimeVars α)
    (point : List α) : Except Error α :=
  if point.length == r.indices.length then
    (interpretWithin resolve vars depth [] r point).run' {}
  else .error (.evaluation (.wrongRank r.name r.indices.length point.length))

/-- How deep calls may nest. -/
def depthLimit : Nat := 10000

/-- The value of a recurrence at a point. -/
def interpret (r : Recurrence) (resolve : Resolver) (vars : RuntimeVars α) (point : List α) :
    Except Error α :=
  r.interpretTo depthLimit resolve vars point

end

end Recurrence

end RecurrenceCompiler
