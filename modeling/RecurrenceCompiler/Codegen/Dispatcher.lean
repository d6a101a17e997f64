import RecurrenceCompiler.Codegen.Unit

/-!
# Dispatchers

Templates take their indices at compile time. A dispatcher maps indices that are known at run time
onto the specialisations: a nest of switches over the box of index values, with zero outside. In
JavaScript it is a range check.
-/

namespace RecurrenceCompiler

/-- A nest of switches over index values: a leaf holds the tuple that was read on the way. -/
inductive Switch where
  | leaf (tuple : List Int)
  | node (index : String) (cases : List (Int × Switch))

namespace Switch

/-- The integers from zero to a bound, none without a bound. -/
def upTo (bound : Option Int) : List Int :=
  (List.range ((bound.getD (-1)) + 1).toNat).map Int.ofNat

/-- The nest over indices with their bounds, after a tuple was read. -/
def nest : List (String × Option Int) → List Int → Switch
  | [], tuple => .leaf tuple
  | (index, bound) :: rest, tuple =>
    .node index ((upTo bound).map fun v => (v, nest rest (tuple ++ [v])))

mutual

/-- The lines of a nest: `leafText` writes the leaves, `zero` is the value outside. -/
def render (leafText : List Int → String) (zero : String) : Switch → List String
  | .leaf tuple => [leafText tuple]
  | .node index cases =>
    ["switch (" ++ index ++ ") \x7b"] ++ renderCases leafText zero cases ++
      ["    default: return " ++ zero ++ ";", "\x7d"]

/-- The lines of the cases of a switch. -/
def renderCases (leafText : List Int → String) (zero : String) :
    List (Int × Switch) → List String
  | [] => []
  | (v, s) :: rest =>
    (match render leafText zero s with
      | [line] => ["    case " ++ toString v ++ ": " ++ line]
      | lines => ("    case " ++ toString v ++ ":") :: indent 2 lines) ++
      renderCases leafText zero rest

end

end Switch

namespace Recurrence

variable (r : Recurrence) (o : CodegenOptions)

/-- The name of the dispatching function. -/
def dispatchName : String :=
  "dispatch_" ++ r.name

/-- The indices with their largest values. -/
def box : List (String × Option Int) :=
  r.indices.map fun i => (i, r.maxOf? i)

/-- The call of the specialisation for a tuple of index values. -/
def specializationCall (tuple : List Int) : String :=
  coeffName r.name ++ "<" ++ ", ".intercalate (tuple.map toString) ++ ">::compute(" ++
    ", ".intercalate r.runtimeVars ++ ")"

/-- The line that opens the dispatching function. -/
def dispatchHead : String :=
  let params := r.indices.map ("int " ++ ·) ++ r.runtimeVars.map (r.cppParam o true)
  "inline " ++ o.vecType ++ " " ++ r.dispatchName ++ "(" ++ ", ".intercalate params ++ ") \x7b"

/-- The lines of the body of the dispatching function. -/
def dispatchBody : List String :=
  indent 1 <| (Switch.nest r.box []).render
    (fun tuple => "return " ++ r.specializationCall tuple ++ ";") o.dialect.zero

/-- The C++ dispatcher, onto single values or layers. -/
def cppDispatcher (layered : Bool) : String :=
  let kind := if layered then UnitKind.layered else .perValue
  "\n".intercalate <|
    [Script.banner r.name, "#pragma once", "", "#include \"" ++ r.fileName kind "hpp" ++ "\"", ""] ++
      (if r.nameSpace.isEmpty then [] else ["namespace " ++ r.nameSpace ++ " \x7b", ""]) ++
      [r.dispatchHead o] ++ r.dispatchBody o ++ ["\x7d"] ++
      (if r.nameSpace.isEmpty then [] else ["", "\x7d // namespace " ++ r.nameSpace]) ++ [""]

/-- The condition that a point is outside the box. -/
def outOfBox : String :=
  " || ".intercalate <| r.indices.map fun i =>
    "!Number.isInteger(" ++ i ++ ") || " ++ i ++ " < 0 || " ++ i ++ " > " ++ (r.maxAmount i).text

/-- The JavaScript dispatcher. -/
def jsDispatcher : Script.Module String where
  recurrence := r.name
  name := r.name ++ "DispatchModule"
  content := .functions [⟨r.dispatchName, r.indices ++ r.runtimeVars,
    [.retIf r.outOfBox "0",
      .ret (coeffName r.name ++ "(" ++ ", ".intercalate (r.indices ++ r.runtimeVars) ++ ")")]⟩]
  exports := [r.dispatchName]

/-- The dispatcher of a recurrence. -/
def generateDispatcher (layered : Bool) : GeneratedUnit where
  recurrence := r.name
  kind := .dispatcher
  source :=
    match o.target with
    | .cpp => .header (r.cppDispatcher o layered)
    | .js => .script r.jsDispatcher
  moduleName := r.name ++ "DispatchModule"
  exports := [r.dispatchName]
  dependencies := [coeffName r.name]
  diagnostics := []
  strategies := []

end Recurrence

end RecurrenceCompiler
