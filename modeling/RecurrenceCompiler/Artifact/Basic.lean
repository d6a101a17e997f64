import RecurrenceCompiler.Catalog.Evaluate
import RecurrenceCompiler.Codegen.Dispatcher
import RecurrenceCompiler.Json.Printer

/-!
# Artifacts

Batch generation makes one file a unit: for every recurrence the code for single values and a
dispatcher, and layered code if the recurrence asks for it. Callees come before their callers.
-/

namespace RecurrenceCompiler

/-- A generated file. -/
structure Artifact where
  /-- The name of the file in the output directory. -/
  file : String
  recurrence : Recurrence
  unit : GeneratedUnit

namespace Artifact

/-- The size of the file. -/
def bytes (a : Artifact) : Nat :=
  a.unit.code.utf8ByteSize

/-- The number of lines of the file. -/
def lines (a : Artifact) : Nat :=
  a.unit.code.toList.count '\n'

end Artifact

/-- The kinds of units that a recurrence gets. -/
def Recurrence.unitKinds (r : Recurrence) : List UnitKind :=
  [.perValue] ++ (if r.layered then [.layered] else []) ++ [.dispatcher]

/-- The unit of a kind. -/
def Recurrence.generate (r : Recurrence) (o : CodegenOptions) (resolve : Resolver) :
    UnitKind → Except Error GeneratedUnit
  | .perValue => r.generatePerValue o resolve
  | .layered => r.generateLayered o resolve
  | .dispatcher => .ok (r.generateDispatcher o false)

namespace Catalog

variable (c : Catalog)

/-- The names of recurrences and of all that they call. -/
def withDependencies : List String → Except Error (List String)
  | [] => .ok []
  | name :: names => do
    let r ← c.require name
    let deps ← c.dependenciesOf r
    let rest ← withDependencies names
    return r.name :: (deps.map (·.name) ++ rest)

/-- The recurrences to generate, callees first: all of them, or those that are named and what they
call. -/
def selected (names : Option (List String)) : Except Error (List Recurrence) := do
  let rs ← c.ordered
  match names with
  | none => return rs
  | some names =>
    let wanted ← c.withDependencies names
    return rs.filter fun r => wanted.contains r.name

/-- The artifacts of a recurrence. -/
def artifactsOf (o : CodegenOptions) (r : Recurrence) : Except Error (List Artifact) :=
  r.unitKinds.mapM fun kind => do
    let unit ← r.generate o c.resolver kind
    return ⟨r.fileName kind o.dialect.extension, r, unit⟩

/-- The artifacts of a catalog. -/
def generateAll (o : CodegenOptions) (names : Option (List String)) :
    Except Error (List Artifact) := do
  let rs ← c.selected names
  let artifacts ← rs.mapM (c.artifactsOf o)
  return artifacts.flatten

end Catalog

/-- A text that tells diagnostics apart. -/
def Diagnostic.key (d : Diagnostic) : String :=
  let datum : Datum → Json
    | .text s => .string s
    | .number x => .number x
  d.code.text ++ "|" ++ d.message ++ "|" ++
    (Json.object ((d.data.getD []).map fun (k, v) => (k, datum v))).compress

/-- Diagnostics without those that occurred before. -/
def distinctDiagnostics (ds : List Diagnostic) : List Diagnostic :=
  ds.foldl (fun seen d => if seen.any fun s => s.key == d.key then seen else seen ++ [d]) []

/-- The diagnostics of artifacts, each reported once. -/
def Artifact.diagnostics (artifacts : List Artifact) : List Diagnostic :=
  distinctDiagnostics (artifacts.flatMap fun a => a.unit.diagnostics)

end RecurrenceCompiler
