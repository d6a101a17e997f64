import RecurrenceCompiler.Codegen.Body
import RecurrenceCompiler.Recurrence.Interpret
import RecurrenceCompiler.Script.Module
import RecurrenceCompiler.Text.Lowercase

/-!
# Generated units

A unit is one generated file of one recurrence, with what it exports and what it needs from other
units. C++ units are plain text; JavaScript units keep the module they were written from, so that
they can be run.
-/

namespace RecurrenceCompiler

/-- What a unit computes. -/
inductive UnitKind where
  | perValue
  | layered
  | dispatcher
deriving DecidableEq

/-- The name of a kind of unit. -/
def UnitKind.text : UnitKind → String
  | perValue => "per-value"
  | layered => "layered"
  | dispatcher => "dispatcher"

/-- The ending of the file name of a kind of unit. -/
def UnitKind.suffix : UnitKind → String
  | perValue => "coeff"
  | layered => "coeff_layered"
  | dispatcher => "dispatch"

/-- Where the number of slots of a layer comes from. -/
inductive BoundSource where
  | validity
  | tabulated
  | default
deriving DecidableEq

/-- The name of a source. -/
def BoundSource.text : BoundSource → String
  | validity => "validity"
  | tabulated => "tabulated"
  | default => "default"

/-- The number of slots of a layer, as arithmetic over the layer indices. -/
structure LayerBound where
  expr : String
  source : BoundSource

/-- The text of a unit. -/
inductive Source where
  | header (code : String)
  | script (m : Script.Module String)

/-- The code of a unit. -/
def Source.code : Source → String
  | .header code => code
  | .script m => m.render

/-- The language of a unit. -/
def Source.target : Source → Target
  | .header _ => .cpp
  | .script _ => .js

/-- A generated unit. -/
structure GeneratedUnit where
  recurrence : String
  kind : UnitKind
  source : Source
  /-- The module object of a script. -/
  moduleName : String
  exports : List String
  /-- The functions of other units that the code calls. -/
  dependencies : List String
  diagnostics : List Diagnostic
  /-- How each rule was rendered, by priority. -/
  strategies : List Strategy
  layerBound : Option LayerBound := none

namespace GeneratedUnit

/-- The code of a unit. -/
def code (u : GeneratedUnit) : String :=
  u.source.code

/-- The language of a unit. -/
def target (u : GeneratedUnit) : Target :=
  u.source.target

end GeneratedUnit

/-- The name of the function that computes single values. -/
def coeffName (recurrence : String) : String :=
  recurrence ++ "Coeff"

/-- The name of the function that computes layers. -/
def layerName (recurrence : String) : String :=
  coeffName recurrence ++ "Layer"

/-- The name of the file that holds a unit. -/
def unitFile (recurrence : String) (kind : UnitKind) (extension : String) : String :=
  Text.lowercase recurrence ++ "_" ++ kind.suffix ++ "." ++ extension

/-- The macro that forces inlining. -/
def forceInline : String :=
  "RECURFORGE_FORCEINLINE"

namespace Recurrence

variable (r : Recurrence)

/-- The name of a file of a recurrence. -/
def fileName (kind : UnitKind) (extension : String) : String :=
  unitFile r.name kind extension

/-- The runtime variables that a call passes: those of the callee, if it is known. -/
def callVars (resolve : Resolver) (target : Option String) : List String :=
  match target with
  | none => r.runtimeVars
  | some t => if t == r.name then r.runtimeVars else ((resolve t).map (·.runtimeVars)).getD r.runtimeVars

/-- The indices of a call, shifted. -/
def callArgs (c : Call) : List String :=
  r.indices.zipIdx.map fun (index, slot) => shiftedIndex index (c.shiftAt slot)

/-- A runtime variable as a C++ parameter; an unused one is named in a comment only. -/
def cppParam (o : CodegenOptions) (used : Bool) (v : String) : String :=
  let type := if r.arrayVars.contains v then "const " ++ o.vecType ++ "*" else o.vecType
  if used then type ++ " " ++ v else type ++ " /*" ++ v ++ "*/"

/-- The front of a C++ header: includes, the inlining macro, the namespace. -/
def cppPreamble (o : CodegenOptions) (includes : List String) : String :=
  "\n".intercalate <|
    [Script.banner r.name, "#pragma once", "", "#include <type_traits>",
      "#include <" ++ o.vecInclude ++ ">"] ++
      includes.map (fun i => "#include \"" ++ i ++ "\"") ++
      ["", "#ifndef " ++ forceInline, "  #ifdef _MSC_VER",
        "    #define " ++ forceInline ++ " __forceinline",
        "  #elif defined(__GNUC__) || defined(__clang__)",
        "    #define " ++ forceInline ++ " inline __attribute__((always_inline))", "  #else",
        "    #define " ++ forceInline ++ " inline", "  #endif", "#endif"] ++
      if r.nameSpace.isEmpty then [] else ["", "namespace " ++ r.nameSpace ++ " \x7b"]

/-- The end of a C++ header, if it opened a namespace. -/
def cppFooter : List String :=
  if r.nameSpace.isEmpty then [] else ["\x7d // namespace " ++ r.nameSpace]

/-- The blocks of a C++ header, with the namespace closed. -/
def cppFile (blocks : List String) : String :=
  "\n\n".intercalate (blocks ++ r.cppFooter) ++ "\n"

/-- The failure of a generator. -/
def cannotGenerate (cause : GenerationCause) : Except Error α :=
  .error (.generation r.name cause)

end Recurrence

end RecurrenceCompiler
