import RecurrenceCompiler.Decimal.Layout
import RecurrenceCompiler.Text.Quoted
import RecurrenceCompiler.Json.Basic

/-!
# Writing JSON

`Json.compress` writes a value on one line, `Json.pretty` with two spaces of indentation a level.
Numbers that are not finite are written as `null`.
-/

namespace RecurrenceCompiler.Json

open Text Decimal

/-- The text of a number. -/
def numberJson (x : Float) : String :=
  if x.isNaN || x.isInf then "null" else numberText x

mutual

/-- A value on one line. -/
def compress : Json → String
  | .null => "null"
  | .bool b => if b then "true" else "false"
  | .number x => numberJson x
  | .string s => quoted s
  | .array items => "[" ++ ",".intercalate (compressItems items) ++ "]"
  | .object fields => "\x7b" ++ ",".intercalate (compressFields fields) ++ "\x7d"

/-- The items of an array, each on one line. -/
def compressItems : List Json → List String
  | [] => []
  | j :: js => compress j :: compressItems js

/-- The fields of an object, each on one line. -/
def compressFields : List (String × Json) → List String
  | [] => []
  | (k, j) :: rest => (quoted k ++ ":" ++ compress j) :: compressFields rest

end

/-- Two spaces a level. -/
def margin (depth : Nat) : String :=
  String.ofList (List.replicate (2 * depth) ' ')

/-- Items between brackets, one a line, or the bare brackets when there are none. -/
def bracketed (left right : String) (depth : Nat) (items : List String) : String :=
  if items.isEmpty then left ++ right
  else left ++ "\n" ++ ",\n".intercalate (items.map (margin (depth + 1) ++ ·)) ++ "\n" ++
    margin depth ++ right

mutual

/-- A value over several lines, starting at a depth. -/
def prettyAt (depth : Nat) : Json → String
  | .null => "null"
  | .bool b => if b then "true" else "false"
  | .number x => numberJson x
  | .string s => quoted s
  | .array items => bracketed "[" "]" depth (prettyItems (depth + 1) items)
  | .object fields => bracketed "\x7b" "\x7d" depth (prettyFields (depth + 1) fields)

/-- The items of an array. -/
def prettyItems (depth : Nat) : List Json → List String
  | [] => []
  | j :: js => prettyAt depth j :: prettyItems depth js

/-- The fields of an object. -/
def prettyFields (depth : Nat) : List (String × Json) → List String
  | [] => []
  | (k, j) :: rest => (quoted k ++ ": " ++ prettyAt depth j) :: prettyFields depth rest

end

/-- A value over several lines. -/
def pretty (j : Json) : String :=
  prettyAt 0 j

end RecurrenceCompiler.Json
