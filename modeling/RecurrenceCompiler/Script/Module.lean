import RecurrenceCompiler.Codegen.Stmt
import RecurrenceCompiler.Text.Blank

/-!
# Scripts

A generated JavaScript file holds one module: functions, or a family of layers, and the list of what
it exports. A family of layers is a list of cases, each with a guard on the layer indices, the number
of slots of the layer and the statements that fill it; the first case whose guard holds counts, and a
layer without a case has no slots. Besides the layer itself a family has a function for its size and
an accessor for single values.
-/

namespace RecurrenceCompiler.Script

open Text

/-- A function. -/
structure Function (ε : Type) where
  name : String
  params : List String
  body : List (Stmt ε)

/-- A case of a family of layers. -/
structure LayerCase (ε : Type) where
  /-- What distinguishes the name of the case. -/
  label : String
  guard : ε
  size : ε
  body : List (Stmt ε)

/-- A family of layers. -/
structure Family (ε : Type) where
  /-- The name of the accessor. -/
  accessor : String
  indices : List String
  layerIndices : List String
  aux : String
  vars : List String
  /-- The cases, in the order in which they are tried. -/
  cases : List (LayerCase ε)

/-- What a module holds. -/
inductive Content (ε : Type) where
  | functions (fs : List (Function ε))
  | family (f : Family ε)

/-- A module. -/
structure Module (ε : Type) where
  /-- The recurrence that it computes. -/
  recurrence : String
  name : String
  content : Content ε
  exports : List String

/-- The names that every module takes from the runtime. -/
def mathPrelude : String :=
  "const \x7b exp, sqrt, log, sin, cos, pow, abs \x7d = Math;"

/-- How scripts are written. -/
def dialect : Dialect :=
  ⟨.js, "number"⟩

/-- The first line of a generated file. -/
def banner (recurrence : String) : String :=
  "// " ++ recurrence ++ ": generated by recurforge, do not edit"

/-- The text of a function. -/
def Function.render (f : Function String) : String :=
  "\n".intercalate <|
    [("function " ++ f.name ++ "(" ++ ", ".intercalate f.params ++ ") \x7b")] ++
      indent 1 (Stmt.renderAll dialect f.body) ++ ["\x7d"]

namespace Family

variable (f : Family String)

/-- The name of the function that computes a layer. -/
def layer (f : Family ε) : String :=
  f.accessor ++ "Layer"

/-- The layer indices as arguments. -/
def layerArgs (f : Family ε) : String :=
  ", ".intercalate f.layerIndices

/-- The parameters of the functions that compute a layer. -/
def computeParams (f : Family ε) : String :=
  ", ".intercalate ([f.layerArgs, "out"] ++ f.vars)

/-- The name of a case. -/
def caseName (f : Family ε) (label : String) : String :=
  f.layer ++ "$" ++ label

/-- The text of a case. -/
def renderCase (label size : String) (body : List (Stmt String)) : String :=
  let id := f.caseName label
  "\n".intercalate <|
    ["const " ++ id ++ " = \x7b",
      "    nValues(" ++ f.layerArgs ++ ") \x7b",
      "        return " ++ size ++ ";",
      "    \x7d,",
      "    compute(" ++ f.computeParams ++ ") \x7b"] ++
      indent 2 (if body.isEmpty then []
        else ("const N_VALUES = " ++ id ++ ".nValues(" ++ f.layerArgs ++ ");") ::
          Stmt.renderAll dialect body) ++
      ["    \x7d,", "\x7d;"]

/-- The texts of a family's functions. -/
def render : List String :=
  let select := f.layer ++ "$select(" ++ f.layerArgs ++ ")"
  [f.renderCase "primary" "0" []] ++
    f.cases.map (fun c => f.renderCase c.label c.size c.body) ++
    ["\n".intercalate <|
        ["function " ++ select ++ " \x7b"] ++
          indent 1 (f.cases.map (fun c =>
            "if (" ++ c.guard ++ ") return " ++ f.caseName c.label ++ ";") ++
            ["return " ++ f.caseName "primary" ++ ";"]) ++
          ["\x7d"],
      "\n".intercalate
        ["function " ++ f.layer ++ "Size(" ++ f.layerArgs ++ ") \x7b",
          "    return " ++ select ++ ".nValues(" ++ f.layerArgs ++ ");",
          "\x7d"],
      "\n".intercalate
        ["function " ++ f.layer ++ "(" ++ f.computeParams ++ ") \x7b",
          "    " ++ select ++ ".compute(" ++ f.computeParams ++ ");",
          "\x7d"],
      "\n".intercalate
        ["function " ++ f.accessor ++ "(" ++ ", ".intercalate (f.indices ++ f.vars) ++ ") \x7b",
          "    const size = " ++ f.layer ++ "Size(" ++ f.layerArgs ++ ");",
          "    if (" ++ f.aux ++ " < 0 || " ++ f.aux ++ " >= size) return 0;",
          "    const out = new Array(size).fill(0);",
          "    " ++ f.layer ++ "(" ++ f.computeParams ++ ");",
          "    return out[" ++ f.aux ++ "];",
          "\x7d"]]

end Family

/-- The texts of what a module holds. -/
def Content.render : Content String → List String
  | .functions fs => fs.map Function.render
  | .family f => f.render

/-- The text of a module. -/
def Module.render (m : Module String) : String :=
  let body := "\n".intercalate
    [mathPrelude, "", "\n\n".intercalate m.content.render, "",
      "return \x7b " ++ ", ".intercalate m.exports ++ " \x7d;"]
  "\n".intercalate <|
    [banner m.recurrence, "const " ++ m.name ++ " = (() => \x7b"] ++ indent 1 (lines body) ++
      ["\x7d)();", ""]

end RecurrenceCompiler.Script
