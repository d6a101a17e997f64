import RecurrenceCompiler.Decimal.Layout
import RecurrenceCompiler.Error
import RecurrenceCompiler.Json.Basic

/-!
# Nodes of configuration files

A configuration file is a tree of maps. A map may inherit fields from another one: a field that it
does not hold itself is looked up there. Inheritance ends at a common root, which knows how to write
a map as text; a map that is cut off from the root, or that hides the root's `toString` behind a
field of its own, cannot be written.
-/

namespace RecurrenceCompiler

open Decimal

/-- A node of a configuration file. -/
inductive Node where
  /-- A null, a truth value, a number or a text. -/
  | scalar (value : Json)
  | list (items : List Node)
  /-- A map: its own fields, those that it inherits, and whether inheritance reaches the root. -/
  | map (own inherited : List (String × Node)) (rooted : Bool)

namespace Node

/-- The field of a map, its own before an inherited one. -/
def field? (n : Node) (key : String) : Option Node :=
  match n with
  | .map own inherited _ => Json.getField? own key <|> Json.getField? inherited key
  | _ => none

/-- The text of a string node. -/
def text? : Node → Option String
  | .scalar (.string s) => some s
  | _ => none

mutual

/-- A JSON value as a node. Its maps inherit from the root only. -/
def ofJson : Json → Node
  | .array items => .list (ofItems items)
  | .object fields => .map (ofFields fields) [] true
  | j => .scalar j

/-- The items of a list as nodes. -/
def ofItems : List Json → List Node
  | [] => []
  | j :: js => ofJson j :: ofItems js

/-- The fields of an object as nodes. -/
def ofFields : List (String × Json) → List (String × Node)
  | [] => []
  | (k, j) :: rest => (k, ofJson j) :: ofFields rest

end

mutual

/-- A node as a JSON value. Of a map only its own fields count. -/
def toJson : Node → Json
  | .scalar j => j
  | .list items => .array (toItems items)
  | .map own _ _ => .object (toFields own)

/-- Nodes as the items of a list. -/
def toItems : List Node → List Json
  | [] => []
  | n :: ns => n.toJson :: toItems ns

/-- Nodes as the fields of an object. -/
def toFields : List (String × Node) → List (String × Json)
  | [] => []
  | (k, n) :: rest => (k, n.toJson) :: toFields rest

end

/-- The text of a scalar. -/
def scalarText : Json → String
  | .null => "null"
  | .bool b => if b then "true" else "false"
  | .number x => numberText x
  | .string s => s
  | .array _ | .object _ => ""

mutual

/-- A node in messages. -/
def display : Node → Except Error String
  | .scalar j => .ok (scalarText j)
  | .list items => do
    let texts ← displayItems items
    return ",".intercalate texts
  | .map own inherited rooted =>
    if rooted && (Json.getField? (own ++ inherited) "toString").isNone then .ok "[object Object]"
    else .error (.fault .noPrimitive)

/-- The items of a list in messages. Nulls are left blank. -/
def displayItems : List Node → Except Error (List String)
  | [] => .ok []
  | n :: ns => do
    let text ←
      match n with
      | .scalar .null => pure ""
      | n => n.display
    let texts ← displayItems ns
    return text :: texts

end

end Node

end RecurrenceCompiler
