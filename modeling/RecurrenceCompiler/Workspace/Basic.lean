import RecurrenceCompiler.Error
import RecurrenceCompiler.Json.Basic
import RecurrenceCompiler.Workspace.Path

/-!
# Workspaces

The files that a command sees, as a map from paths to texts, with the directories that exist and the
working directory. Commands read and write a workspace; only the outermost layer copies it from and to
a disk.

A path is walked part by part, and every part but the last must lead through a directory: two dots
take back a directory that exists, and a slash after a file leads nowhere. Only where files are
written for the user are paths normalised first, as text.
-/

namespace RecurrenceCompiler

/-- Files and directories, under their normalised paths. -/
structure Workspace where
  /-- The working directory, from which relative paths start. -/
  cwd : String
  files : List (String × String) := []
  dirs : List String := [cwd]

/-- A location: the names on the way to it from the root. -/
abbrev Location := List String

/-- What can be found at a location. -/
inductive Occupant where
  | file (text : String)
  | directory

namespace Workspace

/-- The normalised path of a location. -/
def pathOf (loc : Location) : String :=
  "/" ++ "/".intercalate loc

variable (w : Workspace)

/-- A path as seen from the root, normalised as text. -/
def locate (p : String) : String :=
  Path.resolve w.cwd p

/-- What is found at a location. The directories above the working directory exist. -/
def occupantAt (loc : Location) : Option Occupant :=
  let path := pathOf loc
  match Json.getField? w.files path with
  | some text => some (.file text)
  | none =>
    if w.dirs.contains path || loc.isPrefixOf (Path.parts w.cwd) then some .directory else none

/-- The location that a part of a path leads to. -/
def step (loc : Location) (part : String) : Location :=
  if part.isEmpty || part == "." then loc
  else if part == ".." then loc.dropLast
  else loc ++ [part]

/-- The location that parts of a path lead to. A part can only be taken from a directory. -/
def walk : Location → List String → Except FileFault Location
  | loc, [] => .ok loc
  | loc, part :: parts =>
    match w.occupantAt loc with
    | none => .error .missing
    | some (.file _) => .error .notDirectory
    | some .directory => walk (step loc part) parts

/-- Where a path starts. -/
def start (p : String) : Location :=
  if Path.isAbsolute p then [] else Path.parts w.cwd

/-- The location that a path leads to, whether or not something is there. -/
def find (p : String) : Except FileFault Location :=
  if p.isEmpty then .error .missing else w.walk (w.start p) (Path.rawParts p)

/-- What a path leads to. -/
def content (p : String) : Except FileFault Occupant := do
  let loc ← w.find p
  match w.occupantAt loc with
  | some c => .ok c
  | none => .error .missing

/-- Whether a path leads to a directory. -/
def isDir (p : String) : Bool :=
  match w.content p with
  | .ok .directory => true
  | _ => false

/-- The text of a file, if it exists. -/
def file? (p : String) : Option String :=
  match w.content p with
  | .ok (.file text) => some text
  | _ => none

/-- Whether a path leads to a file or a directory. -/
def pathExists (p : String) : Bool :=
  match w.content p with
  | .ok _ => true
  | .error _ => false

/-- The text of a file. -/
def read (p : String) : Except FileFault String := do
  match ← w.content p with
  | .file text => .ok text
  | .directory => .error .isDirectory

/-- The workspace with a file written. -/
def write (p text : String) : Except FileFault Workspace := do
  let loc ← w.find p
  match w.occupantAt loc with
  | some .directory => .error .isDirectory
  | _ => .ok { w with files := Json.setField w.files (pathOf loc) text }

/-- The workspace without a file. -/
def erase (p : String) : Workspace :=
  match w.find p with
  | .ok loc => { w with files := w.files.filter fun f => f.1 != pathOf loc }
  | .error _ => w

/-- The names of what a directory holds. -/
def entries (p : String) : Except FileFault (List String) := do
  let loc ← w.find p
  match w.occupantAt loc with
  | none => .error .missing
  | some (.file _) => .error .notDirectory
  | some .directory =>
    let dir := pathOf loc
    .ok (((w.files.map (·.1) ++ w.dirs).filter fun q =>
      q != dir && Path.parent q == dir).map Path.lastPart)

/-! ## Making directories -/

/-- The workspace with one more directory, for which there must be room in an existing one. -/
def makeOne (p : String) : Except FileFault Workspace :=
  if p.isEmpty then .error .missing
  else
    match ((Path.rawParts p).reverse.dropWhile String.isEmpty) with
    | [] => .error .taken
    | last :: front => do
      let above ← w.walk (w.start p) front.reverse
      match w.occupantAt above with
      | none => .error .missing
      | some (.file _) => .error .notDirectory
      | some .directory =>
        let loc := step above last
        if last == "." || last == ".." || (w.occupantAt loc).isSome then .error .taken
        else .ok { w with dirs := w.dirs ++ [pathOf loc] }

/-- Why a directory cannot count as made where something is there already, if it cannot: only a
directory counts. A file is reported differently above a directory that is to be made. -/
def takenFault? (p : String) (above : Bool) : Option FileFault :=
  match w.content p with
  | .ok .directory => none
  | .ok (.file _) => some (if above then .notDirectory else .taken)
  | .error e => some e

/-- Make a directory and all that lie above it on its path; the fuel bounds their number. What was
made before a fault stays. -/
def makeWithin : Nat → Workspace → Bool → String → Workspace × Option FileFault
  | 0, w, _, _ => (w, some .missing)
  | fuel + 1, w, above, p =>
    match w.makeOne p with
    | .ok w => (w, none)
    | .error .taken => (w, w.takenFault? p above)
    | .error .missing =>
      let front := Path.front p
      if front == p then (w, some .missing)
      else
        match makeWithin fuel w true front with
        | (w, some e) => (w, some e)
        | (w, none) =>
          match w.makeOne p with
          | .ok w => (w, none)
          | .error .taken => (w, w.takenFault? p above)
          | .error e => (w, some e)
    | .error e => (w, some e)

/-- Make a directory and all that lie above it on its path. -/
def makeDir (p : String) : Workspace × Option FileFault :=
  makeWithin (p.length + 1) w false p

/-- Write a file, whose directory is made if needed. -/
def add (p text : String) : Workspace × Option FileFault :=
  let path := w.locate p
  match w.makeDir (Path.parent path) with
  | (w, some e) => (w, some e)
  | (w, none) =>
    match w.write path text with
    | .ok w => (w, none)
    | .error e => (w, some e)

end Workspace

end RecurrenceCompiler
