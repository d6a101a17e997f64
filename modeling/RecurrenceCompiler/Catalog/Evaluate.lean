import RecurrenceCompiler.Catalog.Basic
import RecurrenceCompiler.Codegen.Layered
import RecurrenceCompiler.Codegen.PerValue
import RecurrenceCompiler.Script.Run

/-!
# Evaluating through generated code

A value is computed the way users of the generated code compute it: scripts for a recurrence and all
that it calls are generated, loaded and run.
-/

namespace RecurrenceCompiler

open Script

/-- The value of a runtime variable in a script. -/
def RuntimeValue.toScript : RuntimeValue α → Value α
  | .scalar x => .num x
  | .table xs => .ofItems (xs.map .num)

/-- What a script is given for a runtime variable. -/
def RuntimeVars.script (vars : RuntimeVars α) (v : String) : Value α :=
  match vars v with
  | some x => x.toScript
  | none => ((Ambient.ofName? v).map Value.ofAmbient).getD .undefined

namespace Catalog

variable (c : Catalog)

/-- Finds entries of the catalog. -/
def resolver : Resolver :=
  c.get?

/-- The scripts of a recurrence and of what it calls, callees first. -/
def scripts (r : Recurrence) (layered : Bool) : Except Error (List GeneratedUnit) := do
  let deps ← c.dependenciesOf r
  (deps ++ [r]).mapM fun r =>
    if layered then r.generateLayered { target := .js } c.resolver
    else r.generatePerValue { target := .js } c.resolver

/-- The value of a recurrence at a point, computed by generated scripts. -/
def evaluate [Carrier α] (name : String) (point : List α) (vars : RuntimeVars α) (layered : Bool) :
    Except Error α := do
  let r ← c.require name
  if point.length != r.indices.length then
    throw (.definition (.wrongRank r.name r.indices.length point.length))
  let missing := r.runtimeVars.filter fun v => !vars.binds v
  if !missing.isEmpty then throw (.definition (.missingValues r.name missing))
  let units ← c.scripts r layered
  let program ← Program.load units
  program.call (coeffName r.name)
    (point.map .num ++ r.runtimeVars.map vars.script)

end Catalog

end RecurrenceCompiler
