import RecurrenceCompiler.Config.Source
import RecurrenceCompiler.Config.Yaml
import RecurrenceCompiler.Json.Parser
import RecurrenceCompiler.Workspace.Basic

/-!
# Loading a configuration

Overrides count more than the configuration file, the file more than the environment, and the
environment more than the defaults. Without a given file the first of the usual files that exists in
the working directory is read.
-/

namespace RecurrenceCompiler

/-- The names of configuration files that are found without being given. -/
def usualConfigFiles : List String :=
  ["recurforge.config.json", "recurforge.config.yaml", "recurforge.config.yml"]

/-- What environment variables start with. -/
def environmentPrefix : String := "RECURFORGE"

/-- The values of environment variables. -/
abbrev Environment := String → Option String

namespace PartialConfig

/-- The value that the text of a configuration file spells. -/
def readFormat (path text : String) : Except Error Node :=
  let extension := Text.lowercase (Path.fileExtension path)
  if extension == ".json" then
    match Json.parse? text with
    | some j => .ok (.ofJson j)
    | none => .error .invalidJson
  else if extension == ".yaml" || extension == ".yml" then .ok (Yaml.parse text)
  else .error (.config (.unknownFormat extension))

/-- The settings of a configuration file. -/
def ofFile (w : Workspace) (path : String) : Except Error (Checked PartialConfig) := do
  if !w.pathExists path then throw (.config (.notFound path))
  let text ← Error.ofFile (w.read path)
  match ← readFormat path text with
  | .map own inherited rooted => ofMap (.map own inherited rooted)
  | _ => throw (.config (.notAnObject path))

/-- The configuration file to read: the given one, else the first of the usual ones. -/
def configPath? (w : Workspace) (given : Option String) : Option String :=
  match given.filter fun p => !p.isEmpty with
  | some p => some p
  | none => (usualConfigFiles.map (Path.join w.cwd)).find? w.pathExists

/-- The settings of the configuration file, none if there is no such file. -/
def ofUsualFile (w : Workspace) (given : Option String) : Except Error (Checked PartialConfig) :=
  match configPath? w given with
  | some p => ofFile w p
  | none => .ok (pure {})

end PartialConfig

/-- The configuration from all sources, with the values that could not be used. -/
def Config.load (w : Workspace) (env : Environment) (file : Option String)
    (overrides : PartialConfig) : Except Error (Checked Config) := do
  let fromEnv ← PartialConfig.ofEnvironment environmentPrefix env
  let fromFile ← PartialConfig.ofUsualFile w file
  return ⟨.merge [fromEnv.value, fromFile.value, overrides], fromEnv.problems ++ fromFile.problems⟩

end RecurrenceCompiler
