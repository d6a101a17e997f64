import RecurrenceCompiler.Text.Lowercase
import RecurrenceCompiler.Text.Blank

/-!
# Paths

Paths are texts whose parts are separated by slashes. Normalising a path drops empty parts and single
dots and lets two dots take back the part before them.
-/

namespace RecurrenceCompiler.Path

open Text

/-- Whether a path starts at the root. -/
def isAbsolute (p : String) : Bool :=
  p.toList.head? == some '/'

/-- Add a part to normalised parts, the last first. -/
def push (absolute : Bool) (parts : List String) (part : String) : List String :=
  if part.isEmpty || part == "." then parts
  else if part == ".." then
    match parts with
    | [] => if absolute then [] else [".."]
    | ".." :: _ => ".." :: parts
    | _ :: rest => rest
  else part :: parts

/-- The parts of a path as they are written. -/
def rawParts (p : String) : List String :=
  (splitOn '/' p.toList).map String.ofList

/-- The normalised parts of a path. -/
def parts (p : String) : List String :=
  ((rawParts p).foldl (push (isAbsolute p)) []).reverse

/-- A path without superfluous parts and without a slash at its end. -/
def normalize (p : String) : String :=
  let text := "/".intercalate (parts p)
  if isAbsolute p then "/" ++ text else if text.isEmpty then "." else text

/-- The path of a file in a directory. -/
def join (dir file : String) : String :=
  normalize (if dir.isEmpty then file else dir ++ "/" ++ file)

/-- A path seen from a working directory. -/
def resolve (cwd p : String) : String :=
  if isAbsolute p then normalize p else normalize (cwd ++ "/" ++ p)

/-- The directory of a normalised path. -/
def parent (p : String) : String :=
  let dir := "/".intercalate (parts p).dropLast
  if isAbsolute p then "/" ++ dir else dir

/-- The text of a path before its last slash, and the whole path without one. -/
def front (p : String) : String :=
  match p.toList.reverse.dropWhile (· != '/') with
  | [] => p
  | _ :: before => String.ofList before.reverse

/-- The last part of a path. -/
def lastPart (p : String) : String :=
  ((rawParts p).filter fun s => !s.isEmpty).getLast?.getD ""

/-- The text from the last dot of a path's last part on, if characters stand before the dot. -/
def fileExtension (p : String) : String :=
  let rev := (lastPart p).toList.reverse
  match rev.dropWhile (· != '.') with
  | '.' :: before =>
    if before.isEmpty || lastPart p == ".." then ""
    else String.ofList ('.' :: (rev.takeWhile (· != '.')).reverse)
  | _ => ""

end RecurrenceCompiler.Path
