import RecurrenceCompiler.Config.Node
import RecurrenceCompiler.Decimal.Reader

/-!
# Nested maps in YAML

Configuration files may be written in the part of YAML that has nested maps of scalars. A line is a
key, a colon and a value; a line without a value opens a map, which holds the lines that are indented
further. Lines without a colon only end the maps that are not indented less. Blank lines and lines
that start with a hash are skipped.

The key `__proto__` is no field as long as a map inherits from the root: a map under it is what the
map inherits from, a null cuts the map off from the root, and other scalars are lost.
-/

namespace RecurrenceCompiler.Yaml

open Text Decimal

/-- A line with its indentation and, if it has a colon, its key and its value. -/
structure Line where
  indent : Nat
  entry : Option (String × List Char)

/-- The line that characters spell, unless it is skipped. -/
def Line.ofChars? (cs : List Char) : Option Line :=
  match trim cs with
  | [] => none
  | '#' :: _ => none
  | text => some {
      indent := (cs.takeWhile isBlank).length
      entry := (cutAt? [':'] text).map fun (key, value) =>
        (String.ofList (trim key), trim value) }

/-- The lines of a text that are not skipped. -/
def lines (text : String) : List Line :=
  (splitOn '\n' text.toList).filterMap Line.ofChars?

/-- A run of digits with an optional sign, and possibly a fraction. -/
def isPlainNumber (cs : List Char) : Bool :=
  match cutAt? ['.'] cs with
  | none => isInteger cs
  | some (whole, fraction) => isInteger whole && isNatural fraction

/-- Whether a text stands between two quotes. -/
def isQuoted (quote : Char) (cs : List Char) : Bool :=
  cs.head? == some quote && cs.getLast? == some quote

/-- The scalar that a value spells. -/
def scalar (cs : List Char) : Json :=
  if cs == "true".toList then .bool true
  else if cs == "false".toList then .bool false
  else if cs == "null".toList then .null
  else if isPlainNumber cs then .number ((signedLiteral? cs).getD 0.0)
  else if isQuoted '"' cs || isQuoted '\x27' cs then .string (String.ofList (cs.drop 1).dropLast)
  else .string (String.ofList cs)

/-- What a map holds so far: its own fields, those that it inherits, and whether inheritance reaches
the root. -/
structure Fields where
  own : List (String × Node) := []
  inherited : List (String × Node) := []
  rooted : Bool := true

/-- The map that fields make. -/
def Fields.node (fs : Fields) : Node :=
  .map fs.own fs.inherited fs.rooted

/-- Set a field, or what a map inherits from. -/
def Fields.put (fs : Fields) (key : String) (value : Node) : Fields :=
  if key == "__proto__" && fs.rooted then
    match value with
    | .map own inherited rooted => { fs with inherited := own ++ inherited, rooted }
    | .scalar .null => { fs with inherited := [], rooted := false }
    | _ => fs
  else { fs with own := Json.setField fs.own key value }

/-- A map that is still open: the indentation and the key of the line that opened it, and what it
holds so far. -/
structure Frame where
  indent : Nat
  key : String
  fields : Fields := {}

/-- Maps that are still open, the innermost first, inside a map that stays open. -/
structure State where
  frames : List Frame := []
  root : Fields := {}

/-- Set a field of the innermost map. -/
def State.set (s : State) (key : String) (value : Node) : State :=
  match s.frames with
  | [] => { s with root := s.root.put key value }
  | f :: fs => { s with frames := { f with fields := f.fields.put key value } :: fs }

/-- Set a field that a closed map leaves, if there is one. -/
def attach (closed : Option (String × Node)) (fields : Fields) : Fields :=
  match closed with
  | some (key, value) => fields.put key value
  | none => fields

/-- Close the maps that a line of an indentation does not belong to, given the map that was closed
last. -/
def closeTo (indent : Nat) (root : Fields) : Option (String × Node) → List Frame → State
  | closed, [] => ⟨[], attach closed root⟩
  | closed, f :: fs =>
    let fields := attach closed f.fields
    if f.indent < indent then ⟨{ f with fields } :: fs, root⟩
    else closeTo indent root (some (f.key, fields.node)) fs

/-- Take in a line. -/
def State.add (s : State) (l : Line) : State :=
  let s := closeTo l.indent s.root none s.frames
  match l.entry with
  | none => s
  | some (key, []) => { s with frames := ⟨l.indent, key, {}⟩ :: s.frames }
  | some (key, value) => s.set key (.scalar (scalar value))

/-- Close all maps. -/
def State.finish (s : State) : Fields :=
  (closeTo 0 s.root none s.frames).root

/-- The map that a text spells. -/
def parse (text : String) : Node :=
  ((lines text).foldl State.add {}).finish.node

end RecurrenceCompiler.Yaml
