import RecurrenceCompiler.Artifact.Basic
import RecurrenceCompiler.Digest.Sha256
import RecurrenceCompiler.Workspace.Basic

/-!
# Writing artifacts

A file is only written when its text changes, so that nothing is rebuilt needlessly. The manifest
lists the digest of every file by name.
-/

namespace RecurrenceCompiler

open Text

/-- The name of the manifest. -/
def manifestFile : String := "manifest.json"

/-- Files with their digests in the order of their names. The later of two texts under one name
counts, and the name `__proto__` cannot be a key. -/
def digestFiles (files : List (String × String)) : List (String × String) :=
  let texts := files.foldl (fun fs (n, t) => Json.setField fs n t) []
  let names := sortByUnits ((texts.map (·.1)).filter (· != "__proto__"))
  Json.enumerate <| names.map fun n =>
    (n, Sha256.textDigest ((Json.getField? texts n).getD ""))

/-- The text of the manifest of files. -/
def manifestText (files : List (String × String)) : String :=
  (Json.object [("generator", .string "recurforge"),
    ("files", .object ((digestFiles files).map fun (n, d) => (n, .string d)))]).pretty ++ "\n"

/-- What writing artifacts did. -/
structure WriteResult where
  written : List String := []
  unchanged : List String := []
  /-- The path of the manifest, if one was asked for. -/
  manifest : Option String := none

/-- Write a text into a file unless it holds the text already. Gives whether the file changed. A file
that exists but cannot be read is a fault. -/
def Workspace.writeIfChanged (w : Workspace) (path text : String) :
    Except FileFault (Workspace × Bool) :=
  match w.content path with
  | .ok .directory => .error .isDirectory
  | .ok (.file old) => if old == text then .ok (w, false) else (w.write path text).map (·, true)
  | .error _ => (w.write path text).map (·, true)

/-- Write files into a directory, until one cannot be written. -/
def writeFiles (dir : String) :
    Workspace × WriteResult → List (String × String) → Workspace × Except FileFault WriteResult
  | (w, result), [] => (w, .ok result)
  | (w, result), (file, text) :: rest =>
    match w.writeIfChanged (Path.join dir file) text with
    | .ok (w, true) => writeFiles dir (w, { result with written := result.written ++ [file] }) rest
    | .ok (w, false) =>
      writeFiles dir (w, { result with unchanged := result.unchanged ++ [file] }) rest
    | .error e => (w, .error e)

/-- Write artifacts and, if asked for, their manifest into a directory, which is made if needed. What
was written before a fault stays. -/
def writeArtifacts (w : Workspace) (dir : String) (artifacts : List Artifact) (manifest : Bool) :
    Workspace × Except FileFault WriteResult :=
  match w.makeDir dir with
  | (w, some e) => (w, .error e)
  | (w, none) =>
    let files := artifacts.map fun a => (a.file, a.unit.code)
    match writeFiles dir (w, {}) files with
    | (w, .error e) => (w, .error e)
    | (w, .ok result) =>
      if manifest then
        let path := Path.join dir manifestFile
        match w.writeIfChanged path (manifestText files) with
        | .ok (w, _) => (w, .ok { result with manifest := some path })
        | .error e => (w, .error e)
      else (w, .ok result)

end RecurrenceCompiler
