import RecurrenceCompiler.Artifact.Write
import RecurrenceCompiler.Cli.Args
import RecurrenceCompiler.Cli.Help
import RecurrenceCompiler.Config.Load
import RecurrenceCompiler.Definition.Directory
import RecurrenceCompiler.Watch

/-!
# Commands

Each command reads and writes a workspace and prints lines. A command that fails keeps what it
printed and wrote before; the error is printed after that.
-/

namespace RecurrenceCompiler.Cli

open Decimal

/-- Where a line is printed. -/
inductive Stream where
  | out
  | err

/-- A printed line. -/
structure Line where
  stream : Stream
  text : String

/-- What commands see of the world besides files. -/
structure Host where
  env : Environment
  /-- How long the generation of a file took, in milliseconds. -/
  elapsed : String → String

/-- The files and the lines printed so far. -/
structure Session where
  workspace : Workspace
  lines : List Line := []

/-- A command that may fail. -/
abbrev Action := ExceptT Error (StateM Session)

/-- Print a line. -/
def say (stream : Stream) (text : String) : Action Unit :=
  modify fun s => { s with lines := s.lines ++ [⟨stream, text⟩] }

/-- Print lines. -/
def sayAll (stream : Stream) : List String → Action Unit
  | [] => pure ()
  | t :: ts => do
    say stream t
    sayAll stream ts

/-- The lines that report an error. -/
def reportError (e : Error) : List Line :=
  match e.code? with
  | some code =>
    ⟨.err, "Error [" ++ code.text ++ "]: " ++ e.message⟩ ::
      e.problems.map fun p => ⟨.err, "  - " ++ p⟩
  | none => [⟨.err, "Error: " ++ e.message⟩]

/-! ## Configuration -/

/-- The settings that arguments give. -/
def overrides (a : Args) : Except Error PartialConfig := do
  let target ←
    match a.target with
    | none => pure none
    | some "cpp" => pure (some Target.cpp)
    | some "js" => pure (some Target.js)
    | some t => throw (.definition (.badTarget t))
  return { target, outputDir := a.output, definitionsDir := a.definitions }

/-- The configuration of a command, with the warnings about it. -/
def buildConfig (w : Workspace) (env : Environment) (a : Args) : Except Error (Checked Config) := do
  let given ← overrides a
  let c ← Config.load w env a.config given
  if !c.value.errors.isEmpty then throw (.definition (.badConfiguration c.value.errors))
  return ⟨c.value, c.problems ++ c.value.warnings⟩

/-! ## Listing -/

/-- The lines about a recurrence. -/
def listEntry (verbose : Bool) (r : Recurrence) : Except Error (List String) := do
  let commas := ", ".intercalate
  let head := "  " ++ r.name ++ "[" ++ commas r.indices ++ "](" ++ commas r.runtimeVars ++ ")" ++
    if r.layered then "  [layered]" else ""
  if !verbose then return [head]
  let maxima := r.indices.map fun i => i ++ "<=" ++ (r.maxAmount i).text
  let rules ← r.sortedRules.mapM fun rule => do
    let text ← r.describe rule.expr
    pure ("      " ++ rule.guard.render ++ ": " ++ text)
  return [head] ++ (if r.description.isEmpty then [] else ["      " ++ r.description]) ++
    ["      bases=" ++ toString r.bases.length ++ " rules=" ++ toString r.rules.length ++ " max: " ++
      commas maxima] ++ rules

/-- The lines about a catalog, module by module. -/
def listing (c : Catalog) (verbose : Bool) : Except Error (List String) := do
  let modules ← c.modules.mapM fun m => do
    let entries ← (c.byModule m).mapM (listEntry verbose)
    pure ((m ++ ":") :: entries.flatten)
  return modules.flatten

/-! ## The commands -/

/-- The catalog of a configuration. -/
def catalogOf (config : Config) : Action Catalog := do
  let s ← get
  orThrow (Catalog.assemble s.workspace config.definitionsDir)

/-- The line about a generated file. -/
def artifactLine (host : Host) (a : Artifact) : String :=
  "  " ++ a.file ++ "  " ++ host.elapsed a.file ++ "ms  " ++ toString a.bytes ++ " bytes" ++
    if a.unit.strategies.isEmpty then ""
    else ", strategies=" ++ ",".intercalate (a.unit.strategies.map Strategy.text)

/-- Generate the files of all recurrences. -/
def generate (host : Host) (config : Config) (verbose : Bool) : Action Unit := do
  let catalog ← catalogOf config
  let artifacts ← orThrow (catalog.generateAll config.codegen none)
  sayAll .err ((Artifact.diagnostics artifacts).map Diagnostic.format)
  let s ← get
  let (workspace, outcome) :=
    writeArtifacts s.workspace config.outputDir artifacts config.writeManifest
  set { s with workspace }
  let result ← orThrow (Error.ofFile outcome)
  if verbose then sayAll .out (artifacts.map (artifactLine host))
  say .out ("Wrote " ++ toString result.written.length ++ " file(s), " ++
    toString result.unchanged.length ++ " unchanged, to " ++ workspace.locate config.outputDir)

/-- Evaluate a recurrence at a point; when verbose, also by interpretation. -/
def evaluate (catalog : Catalog) (a : Args) (name indexText : String) (assignments : List String) :
    Action Unit := do
  let point ← orThrow (parseIndices indexText)
  let values ← orThrow (parseAssignments assignments)
  let vars : RuntimeVars Float := Json.getField? values
  let value ← orThrow (catalog.evaluate name point vars a.layered)
  say .out (numberText value)
  if a.verbose then
    let r ← orThrow (catalog.require name)
    let reference ← orThrow (r.interpret catalog.resolver vars point)
    say .out ("reference: " ++ numberText reference)

/-- Run a command and give its exit code. -/
def perform (host : Host) (a : Args) (command : Command) : Action Nat := do
  let s ← get
  let config ← orThrow (buildConfig s.workspace host.env a)
  sayAll .err (config.problems.map ("warning: " ++ ·))
  match command with
  | .generate =>
    generate host config.value a.verbose
    return 0
  | .list =>
    let catalog ← catalogOf config.value
    let lines ← orThrow (listing catalog a.verbose)
    sayAll .out lines
    return 0
  | .eval =>
    let catalog ← catalogOf config.value
    match a.positionals with
    | name :: indexText :: assignments =>
      evaluate catalog a name indexText assignments
      return 0
    | _ =>
      say .err "usage: recurforge eval <Name> <i,j,..> [var=value...] [--layered]"
      return 1
  | .watch =>
    say .err "watch runs until interrupted; start it from the recurforge binary"
    return 1

/-- A session with the lines of an error added. -/
def Session.report (s : Session) (e : Error) : Session :=
  { s with lines := s.lines ++ reportError e }

/-- Run the command line. Gives the exit code and the session that it leaves. -/
def run (host : Host) (w : Workspace) (argv : List String) : Nat × Session :=
  let a := Args.parse argv
  let print (lines : List Line) : Session := ⟨w, lines⟩
  if a.help then (0, print [⟨.out, helpText⟩])
  else if a.version then (0, print [⟨.out, versionText⟩])
  else if !a.errors.isEmpty then
    (1, print (a.errors.map (fun e => ⟨.err, "Error: " ++ e⟩) ++
      [⟨.err, "Run recurforge --help for usage."⟩]))
  else
    match a.command with
    | none => (1, print [⟨.out, helpText⟩])
    | some command =>
      match ((perform host a command).run.run ⟨w, []⟩ : Except Error Nat × Session) with
      | (.ok code, s) => (code, s)
      | (.error e, s) => (1, s.report e)

/-! ## Watching -/

/-- A running watch. -/
structure Watching where
  config : Config
  verbose : Bool
  watcher : Watcher Float

/-- Generate once and start watching the directory of definitions. -/
def startWatch (host : Host) (config : Config) (verbose : Bool) : Action Watching := do
  match config.definitionsDir.filter fun d => !d.isEmpty with
  | none => throw (.definition .noDefinitionsDirectory)
  | some dir =>
    generate host config verbose
    let s ← get
    say .out ("Watching " ++ s.workspace.locate dir)
    return ⟨config, verbose, .watch config.watchDelay 0⟩

/-- A rebuild of a running watch. One that fails is reported and the watch goes on. -/
def Watching.rebuild (host : Host) (w : Watching) : Rebuild Error Session where
  build := generate host w.config w.verbose
  onError e := modify fun s => s.report e

/-- Take in an event. -/
def Watching.step (host : Host) (w : Watching) (event : WatchEvent Float) : StateM Session Watching := do
  let (watcher, _) ← w.watcher.step (w.rebuild host) event
  return { w with watcher }

end RecurrenceCompiler.Cli
