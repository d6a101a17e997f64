import RecurrenceCompiler.Catalog.Basic
import RecurrenceCompiler.Recurrence.Builder

/-!
# Definitions

A definition is a recurrence as it is written down: header, validity, base cases and rules as text.
Building it performs every step, also after one that failed, so that all problems are reported
together, each under the label of its entry.
-/

namespace RecurrenceCompiler

/-- A base case as written. -/
structure BaseDefinition where
  /-- The indices that it binds. -/
  bound : List (String × Float)
  value : Constant

/-- A rule as written. Exactly one of body and branches is meant to be there. -/
structure RuleDefinition where
  guard : String
  expr : Option String := none
  scale : Option String := none
  branches : Option (List String) := none
  name : Option String := none

/-- A recurrence as written. -/
structure Definition where
  name : String
  indices : List String
  runtimeVars : List String := []
  moduleName : String := userModule
  nameSpace : Option String := none
  maxIndices : Option (List (String × Float)) := none
  auxIndex : Option String := none
  arrayVars : List String := []
  selfName : Option String := none
  layered : Option Bool := none
  description : Option String := none
  validity : List String := []
  bases : List BaseDefinition := []
  rules : List RuleDefinition := []

/-- The step that adds a rule. -/
def RuleDefinition.step (r : RuleDefinition) : Step :=
  match r.branches with
  | some branches => .average r.guard branches r.name
  | none => .rule r.guard (r.expr.getD "") r.scale r.name

/-- The step that adds a base case. -/
def BaseDefinition.step (b : BaseDefinition) : Step :=
  .base b.bound b.value

namespace Definition

variable (d : Definition)

/-- The options of the header. -/
def options : RecurrenceOptions where
  nameSpace := d.nameSpace
  maxIndices := d.maxIndices.getD []
  auxIndex := d.auxIndex
  arrayVars := d.arrayVars
  selfName := d.selfName
  layered := d.layered.getD false
  description := d.description

/-- The recurrence without its cases. -/
def header : Except Error Recurrence :=
  Recurrence.create d.name d.indices d.runtimeVars d.options

/-- The label of an entry of a list. -/
def entryLabel (list : String) (i : Nat) : String :=
  list ++ "[" ++ toString i ++ "]"

/-- The steps of a definition with the labels of their entries. -/
def steps : List (String × Step) :=
  ("validity", .validity d.validity) ::
    (d.bases.zipIdx.map fun (b, i) => (entryLabel "bases" i, b.step)) ++
    d.rules.zipIdx.map fun (r, i) => (entryLabel "rules" i, r.step)

/-- An error and the problems behind it, under a label. -/
def labelled (label : String) (e : Error) : List String :=
  (e.message :: e.problems).map fun p => label ++ ": " ++ p

/-- Perform all steps and collect the problems of those that fail. -/
def runSteps : Recurrence → List (String × Step) → Recurrence × List String
  | r, [] => (r, [])
  | r, (label, s) :: rest =>
    let (r, e) := s.run r
    let (r, problems) := runSteps r rest
    (r, ((e.map (labelled label)).getD []) ++ problems)

/-- The error of a definition from a file, if it is from one. -/
def invalid (file : Option String) (problems : List String) : Error :=
  .definition (.invalid file d.name problems)

/-- The recurrence that a definition describes. -/
def build (file : Option String) : Except Error Recurrence :=
  match d.header with
  | .error e => .error (d.invalid file (labelled "definition" e))
  | .ok r =>
    match runSteps r d.steps with
    | (r, []) => .ok r
    | (_, problems) => .error (d.invalid file problems)

end Definition

/-- The catalog with the recurrences of definitions. -/
def Catalog.addDefinitions (c : Catalog) (ds : List Definition) : Except Error Catalog :=
  ds.foldlM (fun c d => do
    let r ← d.build none
    c.register r d.moduleName) c

end RecurrenceCompiler
