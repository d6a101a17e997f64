import RecurrenceCompiler.Cli.Run

/-!
# The program

Copies what a command may read from the disk into a workspace, runs the command on it, prints its
lines and writes back what changed. Nothing is decided here: which files count, what is printed and
what is written is up to the command.
-/

namespace RecurrenceCompiler.Cli

/-! ## Between disk and workspace -/

/-- The text of bytes. Bytes that are no text count as an empty one. -/
def decodeText (bytes : ByteArray) : String :=
  (String.fromUTF8? bytes).getD ""

/-- Copy a file, or the existence of a directory, into a workspace. -/
def loadPath (w : Workspace) (path : String) : IO Workspace := do
  let full := (← IO.currentDir) / path
  if ← full.isDir then return (w.makeDir path).1
  else if ← full.pathExists then return (w.add path (decodeText (← IO.FS.readBinFile full))).1
  else return w

/-- Copy a directory with the files in it into a workspace. -/
def loadDirectory (w : Workspace) (dir : String) : IO Workspace := do
  let mut w ← loadPath w dir
  if w.isDir dir then
    for entry in ← ((← IO.currentDir) / dir).readDir do
      w ← loadPath w (Path.join dir entry.fileName)
  return w

/-- The files that decide about the configuration. -/
def loadConfigFiles (a : Args) : IO Workspace := do
  let mut w : Workspace := { cwd := (← IO.currentDir).toString }
  for path in a.config.toList ++ usualConfigFiles do
    w ← loadPath w path
  return w

/-- The files that a command with a configuration may read or compare with. -/
def loadWorkspace (a : Args) (config : Config) : IO Workspace := do
  let mut w ← loadConfigFiles a
  for dir in (config.definitionsDir.filter fun d => !d.isEmpty).toList ++ [config.outputDir] do
    w ← loadDirectory w dir
  return w

/-- Write the files and directories that a command added or changed. -/
def store (before after : Workspace) : IO Unit := do
  for dir in after.dirs do
    if !before.isDir dir then IO.FS.createDirAll dir
  for (path, text) in after.files do
    if before.file? path != some text then IO.FS.writeFile path text

/-- Print lines. -/
def printLines (lines : List Line) : IO Unit := do
  for l in lines do
    match l.stream with
    | .out => IO.println l.text
    | .err => IO.eprintln l.text
  (← IO.getStdout).flush

/-- Store what a command did to a workspace and print its lines. -/
def finish (before : Workspace) (s : Session) : IO Unit := do
  store before s.workspace
  printLines s.lines

/-! ## What commands see of the world -/

/-- The environment variables that are settings. -/
def readEnvironment : IO Environment := do
  let names := Setting.all.map fun s => s.variableName environmentPrefix
  let values ← names.mapM fun n => do return (n, ← IO.getEnv n)
  return fun n => (Json.getField? values n).join

/-- Nanoseconds as milliseconds with one decimal. -/
def millisText (nanos : Nat) : String :=
  let tenths := nanos / 100000
  toString (tenths / 10) ++ "." ++ toString (tenths % 10)

/-- How long the generation of each file takes. -/
def timings (w : Workspace) (config : Config) : IO (List (String × String)) := do
  let recurrences := do
    let c ← Catalog.assemble w config.definitionsDir
    let rs ← c.ordered
    return (c, rs)
  match recurrences with
  | .error _ => return []
  | .ok (c, rs) =>
    let o := config.codegen
    let mut table := []
    for r in rs do
      for kind in r.unitKinds do
        let start ← IO.monoNanosNow
        let _ ← IO.lazyPure fun _ => (r.generate o c.resolver kind).map fun u => u.code.utf8ByteSize
        let stop ← IO.monoNanosNow
        table := (r.fileName kind o.dialect.extension, millisText (stop - start)) :: table
    return table

/-- The world of a command with a configuration. -/
def hostOf (env : Environment) (w : Workspace) (config : Config) (verbose : Bool) : IO Host := do
  let table ← if verbose then timings w config else pure []
  return ⟨env, fun file => (Json.getField? table file).getD "0.0"⟩

/-! ## Commands -/

/-- Run a command to its end and give the exit code. -/
def runOnce (env : Environment) (a : Args) (argv : List String) : IO Nat := do
  let first ← loadConfigFiles a
  let (host, w) ←
    match buildConfig first env a with
    | .error _ => pure (⟨env, fun _ => "0.0"⟩, first)
    | .ok c => do
      let w ← loadWorkspace a c.value
      let host ← hostOf env w c.value (a.verbose && a.command == some .generate)
      pure (host, w)
  let (code, s) := run host w argv
  finish w s
  return code

/-- The names of the files of a directory with the times of their last change. -/
def changeTimes (dir : String) : IO (List (String × IO.FS.SystemTime)) := do
  let entries ← ((← IO.currentDir) / dir).readDir
  entries.toList.mapM fun e => do
    return (e.fileName, (← e.path.metadata).modified)

/-- The files that were added, changed or removed between two looks at a directory. -/
def changedFiles (before after : List (String × IO.FS.SystemTime)) : List String :=
  ((after.filter fun f => !before.contains f) ++
    before.filter fun f => !after.any fun g => g.1 == f.1).map (·.1)

/-- The time between two looks at a watched directory, in milliseconds. -/
def pollInterval : UInt32 := 100

/-- Generate once, then again after every burst of changes, until interrupted. -/
def runWatch (env : Environment) (a : Args) : IO Nat := do
  let first ← loadConfigFiles a
  match buildConfig first env a with
  | .error e =>
    printLines (reportError e)
    return 1
  | .ok c =>
    printLines (c.problems.map fun p => ⟨.err, "warning: " ++ p⟩)
    let w ← loadWorkspace a c.value
    let host ← hostOf env w c.value a.verbose
    let (started, s) : Except Error Watching × Session :=
      (startWatch host c.value a.verbose).run.run ⟨w, []⟩
    match started with
    | .error e =>
      finish w (s.report e)
      return 1
    | .ok watching =>
      finish w s
      let dir := c.value.definitionsDir.getD ""
      let mut watching := watching
      let mut times ← changeTimes dir
      let mut now ← IO.monoMsNow
      repeat
        IO.sleep pollInterval
        let seen ← changeTimes dir
        let later ← IO.monoMsNow
        let w ← loadWorkspace a c.value
        let mut session : Session := ⟨w, []⟩
        for event in (changedFiles times seen).map (fun f => WatchEvent.change (some f)) ++
            [.advance (Float.ofNat (later - now))] do
          let (next, s) := (watching.step host event).run session
          watching := next
          session := s
        finish w session
        times := seen
        now := later
      return 0

end RecurrenceCompiler.Cli

open RecurrenceCompiler Cli in
/-- The command line. -/
def main (argv : List String) : IO UInt32 := do
  let a := Args.parse argv
  let env ← readEnvironment
  let watch := a.command == some .watch && !a.help && !a.version && a.errors.isEmpty
  try
    let code ← if watch then runWatch env a else runOnce env a argv
    return code.toUInt32
  catch e =>
    IO.eprintln ("Error: " ++ toString e)
    return 1
