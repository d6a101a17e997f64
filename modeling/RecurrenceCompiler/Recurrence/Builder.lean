import RecurrenceCompiler.Recurrence.Basic

/-!
# Building a recurrence

`Recurrence.create` checks a header. `Step.run` performs one step of a definition: it restricts the
domain, adds a base case, or adds a rule. A step that fails leaves the cases as they were; the only
trace it can leave is the warnings about the branches of an average that were read before the one
that failed.
-/

namespace RecurrenceCompiler

open Text Decimal Arith

/-- The options of a header. -/
structure RecurrenceOptions where
  nameSpace : Option String := none
  maxIndices : List (String × Float) := []
  auxIndex : Option String := none
  arrayVars : List String := []
  selfName : Option String := none
  layered : Bool := false
  description : Option String := none

namespace Recurrence

/-- The largest index value when none is declared. -/
def defaultMaxIndex : Whole := 20

/-- The self name when none is declared. -/
def defaultSelfName : String := "E"

/-- The error of a refused definition. -/
def refuse (cause : DefinitionCause) : Except Error α :=
  .error (.definition cause)

/-- Names must be identifiers and distinct; `seen` are those before. -/
def checkNames (name : String) : List String → List String → Except Error Unit
  | _, [] => .ok ()
  | seen, id :: ids =>
    if !isIdentifier id then refuse (.invalidIdentifier name id)
    else if seen.contains id then refuse (.declaredTwice name id)
    else checkNames name (id :: seen) ids

/-- Store the largest value of an index. Nothing can be stored under the name `__proto__`. -/
def setMaximum (maxima : List (String × Whole)) (index : String) (w : Whole) :
    List (String × Whole) :=
  if index == "__proto__" then maxima else Json.setField maxima index w

/-- The largest index values, over those set so far. -/
def readMaxima (name : String) (indices : List String) :
    List (String × Whole) → List (String × Float) → Except Error (List (String × Whole))
  | maxima, [] => .ok maxima
  | maxima, (index, x) :: rest =>
    if !indices.contains index then refuse (.maximumOfUnknown name index)
    else if !isWhole x || x < 0.0 then refuse (.maximumNotNatural name index)
    else readMaxima name indices (setMaximum maxima index (.ofFloat x)) rest

/-- A recurrence without cases. -/
def create (name : String) (indices runtimeVars : List String) (options : RecurrenceOptions) :
    Except Error Recurrence := do
  if !isIdentifier name then refuse (.invalidName name)
  if indices.isEmpty then refuse (.noIndices name)
  checkNames name [] (indices ++ runtimeVars)
  if let some a := options.arrayVars.find? fun a => !runtimeVars.contains a then
    refuse (.arrayNotRuntime name a)
  if let some aux := options.auxIndex then
    if !indices.contains aux then refuse (.auxNotDeclared name aux)
  let defaults := indices.foldl (fun maxima i => setMaximum maxima i defaultMaxIndex) []
  let maxIndices ← readMaxima name indices defaults options.maxIndices
  return {
    name, indices, runtimeVars, maxIndices
    arrayVars := options.arrayVars
    nameSpace := options.nameSpace.getD ""
    auxIndex := options.auxIndex
    selfName := options.selfName.getD defaultSelfName
    layered := options.layered
    description := options.description.getD "" }

/-- Constraints mention indices only. -/
def checkGuard (r : Recurrence) (g : Guard) : Except Error Unit :=
  match (g.constraints.flatMap Constraint.names).find? fun n => !r.indices.contains n with
  | some n => refuse (.guardOfUnknown r.name n)
  | none => .ok ()

/-- A guard of this recurrence. -/
def readGuard (r : Recurrence) (texts : List String) : Except Error Guard := do
  let g ← Guard.parse texts
  r.checkGuard g
  return g

/-- The recurrence with its domain restricted further. -/
def addValidity (r : Recurrence) (texts : List String) : Except Error Recurrence := do
  let g ← r.readGuard texts
  return { r with validity := r.validity.and g }

/-- The slots that a base case binds, over those bound so far. -/
def readSlots (r : Recurrence) :
    List (Option Whole) → List (String × Float) → Except Error (List (Option Whole))
  | slots, [] => .ok slots
  | slots, (index, x) :: rest =>
    if !r.indices.contains index then refuse (.baseOfUnknown r.name index)
    else if !isWhole x then refuse (.baseNotInteger r.name index)
    else readSlots r (slots.set (r.indices.idxOf index) (some (.ofFloat x))) rest

/-- The recurrence with one more base case. -/
def addBase (r : Recurrence) (bound : List (String × Float)) (value : Constant) :
    Except Error Recurrence := do
  let slots ← r.readSlots (r.indices.map fun _ => none) bound
  if slots.all Option.isNone then refuse (.baseBindsNothing r.name)
  let ctx := r.context none
  let e ← RuleText.parseValue ctx value
  return { r with
    bases := r.bases ++ [⟨slots, e⟩]
    diagnostics := r.diagnostics ++ ctx.warnings e }

/-- The recurrence with one more rule. -/
def addRule (r : Recurrence) (guard expr : String) (scale name : Option String) :
    Except Error Recurrence := do
  let g ← r.readGuard [guard]
  let ctx := r.context (some r.rules.length)
  let e ← RuleText.parseRule ctx expr scale
  return { r with
    rules := r.rules ++ [⟨g, e, name, r.rules.length⟩]
    diagnostics := r.diagnostics ++ ctx.warnings e }

/-- The branches of an average with the warnings about them, and the first error if there is one. -/
def readBranches (ctx : RuleText.Context) :
    List String → List Expr × List Diagnostic × Option Error
  | [] => ([], [], none)
  | b :: bs =>
    match RuleText.parseBody ctx b with
    | .error e => ([], [], some e)
    | .ok e =>
      let (es, ds, err) := readBranches ctx bs
      (e :: es, ctx.warnings e ++ ds, err)

/-- The recurrence with one more rule that averages several bodies. -/
def addAverage (r : Recurrence) (guard : String) (branches : List String) (name : Option String) :
    Recurrence × Option Error :=
  if branches.isEmpty then (r, some (.definition (.noBranches r.name)))
  else
    match r.readGuard [guard] with
    | .error e => (r, some e)
    | .ok g =>
      let (es, ds, err) := readBranches (r.context (some r.rules.length)) branches
      let r := { r with diagnostics := r.diagnostics ++ ds }
      match err with
      | some e => (r, some e)
      | none =>
        let scale := Expr.number (1.0 / Float.ofNat branches.length)
        ({ r with rules := r.rules ++ [⟨g, .average es scale, name, r.rules.length⟩] }, none)

/-- The recurrence with a rule that holds a given expression. -/
def appendRule (r : Recurrence) (g : Guard) (e : Expr) (name : Option String) : Recurrence :=
  { r with rules := r.rules ++ [⟨g, e, name, r.rules.length⟩] }

/-- The recurrence with a base case that holds a given expression. -/
def appendBase (r : Recurrence) (slots : List (Option Whole)) (e : Expr) : Recurrence :=
  { r with bases := r.bases ++ [⟨slots, e⟩] }

end Recurrence

/-- A step of a definition. -/
inductive Step where
  | validity (texts : List String)
  | base (bound : List (String × Float)) (value : Constant)
  | rule (guard expr : String) (scale name : Option String)
  | average (guard : String) (branches : List String) (name : Option String)

/-- What a checked step leaves: the new recurrence, or the old one and the error. -/
def Recurrence.orKeep (r : Recurrence) : Except Error Recurrence → Recurrence × Option Error
  | .ok r' => (r', none)
  | .error e => (r, some e)

/-- Perform a step. -/
def Step.run (r : Recurrence) : Step → Recurrence × Option Error
  | .validity texts => r.orKeep (r.addValidity texts)
  | .base bound value => r.orKeep (r.addBase bound value)
  | .rule guard expr scale name => r.orKeep (r.addRule guard expr scale name)
  | .average guard branches name => r.addAverage guard branches name

/-- Perform steps until one fails. -/
def Recurrence.build (r : Recurrence) : List Step → Except Error Recurrence
  | [] => .ok r
  | s :: ss =>
    match s.run r with
    | (r, none) => r.build ss
    | (_, some e) => .error e

end RecurrenceCompiler
