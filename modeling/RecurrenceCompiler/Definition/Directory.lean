import RecurrenceCompiler.Definition.Reader
import RecurrenceCompiler.Library.Standard
import RecurrenceCompiler.Text.Units
import RecurrenceCompiler.Workspace.Basic

/-!
# Directories of definitions

All definition files of a directory are loaded in the order of their names, also after one that
failed; the problems of all files are reported together.
-/

namespace RecurrenceCompiler

open Text

/-- A recurrence that was loaded from a file. -/
structure LoadedDefinition extends CatalogEntry where
  file : String

namespace Definition

/-- The recurrence that a file describes. -/
def loadFile (w : Workspace) (path : String) : Except Error LoadedDefinition := do
  let text ← Error.ofFile (w.read path)
  let entry ← loadText path text
  return { entry with file := path }

/-- What loading a directory has come to: the catalog, what was loaded, how many files failed, and
their problems. -/
structure Progress where
  catalog : Catalog
  loaded : List LoadedDefinition := []
  failed : Nat := 0
  problems : List String := []

/-- Whether an error is about the compiler's input, rather than about access to files. -/
def isReported : Error → Bool
  | .text .. | .constraint .. | .definition .. | .generation .. | .evaluation .. => true
  | .config .. | .fault .. | .file .. | .invalidJson => false

/-- Load and register one file. An error that is not about its contents stops the loading. -/
def Progress.add (w : Workspace) (dir : String) (p : Progress) (name : String) :
    Progress × Option Error :=
  let result := do
    let d ← loadFile w (Path.join dir name)
    let catalog ← p.catalog.register d.recurrence d.moduleName
    pure (catalog, d)
  match result with
  | .ok (catalog, d) => ({ p with catalog, loaded := p.loaded ++ [d] }, none)
  | .error e =>
    if isReported e then
      ({ p with failed := p.failed + 1, problems := p.problems ++ labelled name e }, none)
    else (p, some e)

/-- Load and register files until one stops the loading. -/
def loadNames (w : Workspace) (dir : String) : Progress → List String → Progress × Option Error
  | p, [] => (p, none)
  | p, name :: names =>
    match p.add w dir name with
    | (p, none) => loadNames w dir p names
    | (p, some e) => (p, some e)

/-- Whether a file name is that of a definition. -/
def isDefinitionFile (name : String) : Bool :=
  ".json".toList.isSuffixOf name.toList

/-- Load the definitions of a directory into a catalog. The catalog keeps what was registered before
a failure. -/
def loadDir (w : Workspace) (dir : String) (c : Catalog) :
    Catalog × Except Error (List LoadedDefinition) :=
  match w.entries dir with
  | .error e => (c, .error (.file e))
  | .ok names =>
    match loadNames w dir ⟨c, [], 0, []⟩ (sortByUnits (names.filter isDefinitionFile)) with
    | (p, some e) => (p.catalog, .error e)
    | (p, none) =>
      if p.failed == 0 then (p.catalog, .ok p.loaded)
      else (p.catalog, .error (.definition (.directoryFailed dir p.failed p.problems)))

end Definition

/-- The standard library and the definitions of a directory, if one is given. Every cross call must
name a registered recurrence of the same rank. -/
def Catalog.assemble (w : Workspace) (dir : Option String) : Except Error Catalog := do
  let c ← Library.catalog
  let c ←
    match dir.filter fun d => !d.isEmpty with
    | none => pure c
    | some d =>
      match Definition.loadDir w d c with
      | (c, .ok _) => pure c
      | (_, .error e) => throw e
  if c.problems.isEmpty then return c else throw (.definition (.unresolved c.problems))

end RecurrenceCompiler
