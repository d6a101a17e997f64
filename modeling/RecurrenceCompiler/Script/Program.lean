import RecurrenceCompiler.Codegen.Unit
import RecurrenceCompiler.Script.Reader

/-!
# Loaded programs

Generated units are loaded in order. Loading reads a unit's script and ties the functions that it
needs to the units that export them. A function that two units export is that of the later one for
the units after it.
-/

namespace RecurrenceCompiler

open Script

/-- A unit that is ready to run. -/
structure LoadedUnit where
  /-- The name of the module in its own script. -/
  name : String
  content : Content Expression
  /-- The functions of other units, each with the number of the unit that exports it. -/
  imports : List (String × Nat)

/-- Units with the functions that they export together. -/
structure Program where
  units : List LoadedUnit := []
  exports : List (String × Nat) := []

namespace Script

/-- The name of the function for the size of a layer. -/
def Family.sizeName (f : Family ε) : String :=
  f.layer ++ "Size"

/-- Whether a module defines a function. -/
def Content.defines (c : Content ε) (name : String) : Bool :=
  match c with
  | .functions fs => fs.any fun f => f.name == name
  | .family f => name == f.accessor || name == f.layer || name == f.sizeName

end Script

namespace Program

/-- The program with one more unit. -/
def add (p : Program) (u : GeneratedUnit) : Except Error Program :=
  match u.source with
  | .header _ => .error (.evaluation (.notLoadable u.recurrence Target.cpp.text))
  | .script m =>
    match u.dependencies.filter fun d => (Json.getField? p.exports d).isNone with
    | [] => do
      let content ← readContent m.content
      let imports := u.dependencies.filterMap fun d =>
        (Json.getField? p.exports d).map fun i => (d, i)
      return {
        units := p.units ++ [⟨m.name, content, imports⟩]
        exports := m.exports.foldl (fun es e => Json.setField es e p.units.length) p.exports }
    | missing => .error (.evaluation (.missingDependencies u.recurrence missing))

/-- The program of units in order. -/
def load (us : List GeneratedUnit) : Except Error Program :=
  us.foldlM add {}

end Program

end RecurrenceCompiler
