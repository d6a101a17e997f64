import RecurrenceCompiler.Checked
import RecurrenceCompiler.Config.Basic
import RecurrenceCompiler.Config.Node
import RecurrenceCompiler.Decimal.Reader
import RecurrenceCompiler.Diagnostic

/-!
# Sources of settings

Settings come from environment variables and from objects in configuration files, whose keys may be
written in camel case or in snake case. A value of the wrong kind is noted and contributes nothing;
an empty text or a null contributes nothing either.
-/

namespace RecurrenceCompiler

open Text Decimal

/-- The settings. -/
inductive Setting where
  | target
  | vecType
  | vecInclude
  | optimization
  | cseThreshold
  | tablePadding
  | outputDir
  | definitionsDir
  | watchDelay
  | writeManifest

namespace Setting

/-- All settings. -/
def all : List Setting :=
  [.target, .vecType, .vecInclude, .optimization, .cseThreshold, .tablePadding, .outputDir,
    .definitionsDir, .watchDelay, .writeManifest]

/-- The object that holds a setting. -/
def group : Setting → String
  | target | vecType | vecInclude | optimization | cseThreshold | tablePadding => "codegen"
  | outputDir | definitionsDir | watchDelay | writeManifest => "output"

/-- The key of a setting in camel case. -/
def key : Setting → String
  | target => "target"
  | vecType => "vecType"
  | vecInclude => "vecInclude"
  | optimization => "optimization"
  | cseThreshold => "cseThreshold"
  | tablePadding => "tablePadding"
  | outputDir => "outputDir"
  | definitionsDir => "definitionsDir"
  | watchDelay => "watchDebounceMs"
  | writeManifest => "writeManifest"

/-- The key of a setting in snake case. -/
def snakeKey : Setting → String
  | target => "target"
  | vecType => "vec_type"
  | vecInclude => "vec_include"
  | optimization => "optimization"
  | cseThreshold => "cse_threshold"
  | tablePadding => "table_padding"
  | outputDir => "output_dir"
  | definitionsDir => "definitions_dir"
  | watchDelay => "watch_debounce_ms"
  | writeManifest => "write_manifest"

/-- The environment variable of a setting. -/
def variableName (envPrefix : String) (s : Setting) : String :=
  envPrefix ++ "_" ++ s.snakeKey.toUpper

/-- A setting in messages. -/
def path (s : Setting) : String :=
  s.group ++ "." ++ s.key

end Setting

namespace PartialConfig

/-- Values of settings as they were found. -/
abbrev Lookup := Setting → Option Node

/-- A reader that notes the values that it cannot use, and stops at one that cannot even be shown. -/
abbrev Reading := ExceptT Error Checked

/-- Note a value that a setting cannot have. -/
def unknownValue (s : Setting) (n : Node) : Reading (Option α) :=
  match n.display with
  | .ok value => ExceptT.lift <| Checked.instead none
      (DiagnosticCode.unknownConfigValue.message [("field", s.path), ("value", value)])
  | .error e => throw e

/-- The value of a setting, unless there is none. -/
def given? (look : Lookup) (s : Setting) : Option Node :=
  match look s with
  | some (.scalar .null) | some (.scalar (.string "")) => none
  | v => v

/-- A setting that is read by a function on its value. -/
def pick (look : Lookup) (s : Setting) (read : Node → Option α) : Reading (Option α) :=
  match given? look s with
  | none => pure none
  | some n =>
    match read n with
    | some v => pure (some v)
    | none => unknownValue s n

/-- One of several words. -/
def oneOf (words : List (String × α)) (n : Node) : Option α :=
  n.text?.bind (Json.getField? words)

/-- A whole number, possibly as text. -/
def wholeNumber (n : Node) : Option Float :=
  let number := match n with
    | .scalar (.number x) => some x
    | .scalar (.string s) => readNumber? s.toList
    | _ => none
  number.filter isWhole

/-- A truth value, possibly as text. -/
def truthValue : Node → Option Bool
  | .scalar (.bool b) => some b
  | .scalar (.string s) =>
    Json.getField? [("true", true), ("1", true), ("false", false), ("0", false)] s
  | _ => none

/-- The settings of a source, with the values that could not be used. -/
def readSettings (look : Lookup) : Reading PartialConfig := do
  let target ← pick look .target (oneOf [("cpp", .cpp), ("js", .js)])
  let vecType ← pick look .vecType Node.text?
  let vecInclude ← pick look .vecInclude Node.text?
  let optimization ← pick look .optimization (oneOf [("none", .none), ("cse", .cse)])
  let cseThreshold ← pick look .cseThreshold wholeNumber
  let tablePadding ← pick look .tablePadding wholeNumber
  let outputDir ← pick look .outputDir Node.text?
  let definitionsDir ← pick look .definitionsDir Node.text?
  let watchDelay ← pick look .watchDelay wholeNumber
  let writeManifest ← pick look .writeManifest truthValue
  return { target, vecType, vecInclude, optimization, cseThreshold, tablePadding, outputDir
           definitionsDir, watchDelay, writeManifest }

/-- The settings of a source, with the values that could not be used, unless one of them cannot be
shown. -/
def read (look : Lookup) : Except Error (Checked PartialConfig) :=
  let result := (readSettings look).run
  result.value.map fun p => ⟨p, result.problems⟩

/-- The settings of environment variables. -/
def ofEnvironment (envPrefix : String) (env : String → Option String) :
    Except Error (Checked PartialConfig) :=
  read fun s => (env (s.variableName envPrefix)).map fun t => .scalar (.string t)

/-- A setting in a map, under the first of its keys that is not null. -/
def inMap (data : Node) : Lookup := fun s => do
  let group ← data.field? s.group
  match group.field? s.key with
  | none | some (.scalar .null) => group.field? s.snakeKey
  | v => v

/-- The settings of a map. Other nodes have none, and null cannot be asked for them. -/
def ofMap (data : Node) : Except Error (Checked PartialConfig) :=
  match data with
  | .scalar .null => .error (.fault (.readOfUndefined "codegen"))
  | data => read (inMap data)

end PartialConfig

end RecurrenceCompiler
