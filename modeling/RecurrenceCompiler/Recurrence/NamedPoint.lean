import RecurrenceCompiler.Recurrence.Interpret
import RecurrenceCompiler.Script.Value

/-!
# Points by name

A point may be given as a record of index values. An index whose name every record holds is never
missing, but what it stands for may be no number; so such points are interpreted over the values of
scripts, of which numbers are one kind.
-/

namespace RecurrenceCompiler

open Arith Script

/-- A runtime variable with its numbers seen as values. -/
def RuntimeValue.lift : RuntimeValue α → RuntimeValue (Value α)
  | .scalar x => .scalar (.num x)
  | .table xs => .table (xs.map .num)

namespace Recurrence

/-- The values of the indices. -/
def namedPoint (r : Recurrence) (values : Env α) : Except Error (List (Value α)) :=
  r.indices.mapM fun i =>
    match values i, Ambient.ofName? i with
    | some x, _ => .ok (.num x)
    | none, some a => .ok (.ofAmbient a)
    | none, none => .error (.evaluation (.noIndexValue r.name i))

/-- The value of a recurrence where the indices have given values. -/
def interpretNamed [Carrier α] (r : Recurrence) (resolve : Resolver) (vars : RuntimeVars α)
    (values : Env α) : Except Error (Value α) := do
  let point ← r.namedPoint values
  r.interpret resolve (fun v => (vars v).map RuntimeValue.lift) point

end Recurrence

end RecurrenceCompiler
