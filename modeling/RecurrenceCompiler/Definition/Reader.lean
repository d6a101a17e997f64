import RecurrenceCompiler.Checked
import RecurrenceCompiler.Definition.Basic
import RecurrenceCompiler.Json.Parser

/-!
# Reading definitions

A definition file holds one JSON object. Reading it never stops at a field of the wrong shape: each
reader notes the problem and goes on with a default, so that all problems are found in one pass.
-/

namespace RecurrenceCompiler

open Decimal

namespace Definition

open Checked

/-- The fields of an object, none for anything else. -/
abbrev Fields := List (String × Json)

variable (fs : Fields)

/-- A text that may be missing. -/
def text? (field : String) : Checked (Option String) :=
  match Json.getField? fs field with
  | none => pure none
  | some (.string s) => pure (some s)
  | some _ => instead none (field ++ ": expected a string")

/-- A text that must be there. -/
def requiredText (field : String) : Checked String :=
  match Json.getField? fs field with
  | none => instead "" (field ++ ": required")
  | some (.string s) => pure s
  | some _ => instead "" (field ++ ": expected a string")

/-- The texts of a list, if it holds nothing else. -/
def allTexts? : List Json → Option (List String)
  | [] => some []
  | .string s :: rest => (allTexts? rest).map (s :: ·)
  | _ :: _ => none

/-- A list of texts. -/
def texts (field : String) (required : Bool) : Checked (List String) :=
  match Json.getField? fs field with
  | none => do
    noteIf required (field ++ ": required")
    return []
  | some j =>
    match j.items?.bind allTexts? with
    | some ts => pure ts
    | none => instead [] (field ++ ": expected a list of strings")

/-- A truth value that may be missing. -/
def flag? (field : String) : Checked (Option Bool) :=
  match Json.getField? fs field with
  | none => pure none
  | some (.bool b) => pure (some b)
  | some _ => instead none (field ++ ": expected true or false")

/-- The integer entries of an object. The name `__proto__` cannot be bound and is skipped. -/
def integerEntries (field : String) : Fields → Checked (List (String × Float))
  | [] => pure []
  | (k, .number x) :: rest =>
    if isWhole x then do
      let entries ← integerEntries field rest
      return if k == "__proto__" then entries else (k, x) :: entries
    else do
      note (field ++ "." ++ k ++ ": expected an integer")
      integerEntries field rest
  | (k, _) :: rest => do
    note (field ++ "." ++ k ++ ": expected an integer")
    integerEntries field rest

/-- An object of integers that may be missing. -/
def integers? (field : String) : Checked (Option (List (String × Float))) :=
  match Json.getField? fs field with
  | none => pure none
  | some (.object entries) => some <$> integerEntries field entries
  | some _ => instead none (field ++ ": expected an object of integers")

/-- A list, empty when it is missing. -/
def list (field : String) : Checked (List Json) :=
  match Json.getField? fs field with
  | none => pure []
  | some (.array items) => pure items
  | some _ => instead [] (field ++ ": expected a list")

/-- The value of a base case. -/
def baseValue? (j : Json) : Option Constant :=
  match j.field? "value" with
  | some (.number x) => some (.number x)
  | some (.string s) => some (.raw s)
  | _ => none

/-- A base case, unless its fields are unusable. -/
def readBase (i : Nat) (j : Json) : Checked (Option BaseDefinition) :=
  let label := entryLabel "bases" i ++ "."
  let bound := (integers? (j.fields?.getD []) "at").within label
  ⟨(), bound.problems⟩ *>
    match bound.value, baseValue? j with
    | none, _ => do
      noteIf bound.problems.isEmpty (label ++ "at: required")
      return none
    | some _, none => instead none (label ++ "value: expected a number or a string")
    | some bound, some value => pure (some ⟨bound, value⟩)

/-- The branches of a rule. -/
def branches? : Checked (Option (List String)) :=
  if (Json.getField? fs "branches").isNone then pure none else some <$> texts fs "branches" false

/-- A rule, unless it is no object. -/
def readRule (i : Nat) (j : Json) : Checked (Option RuleDefinition) :=
  match j with
  | .object fs => within (entryLabel "rules" i ++ ".") do
    let guard ← requiredText fs "when"
    let expr ← text? fs "expr"
    let scale ← text? fs "scale"
    let branches ← branches? fs
    let name ← text? fs "name"
    noteIf (expr.isNone == branches.isNone) "give exactly one of expr and branches"
    noteIf (branches.isSome && scale.isSome) "scale does not apply to branches"
    return some { guard, expr, scale, branches, name }
  | _ => instead none (entryLabel "rules" i ++ ": expected an object")

/-- The entries of a list, counted from `i`, those that are unusable left out. -/
def readEntries (read : Nat → Json → Checked (Option α)) : Nat → List Json → Checked (List α)
  | _, [] => pure []
  | i, j :: js => do
    let entry ← read i j
    let entries ← readEntries read (i + 1) js
    return entry.toList ++ entries

/-- Whether a value is a list without usable texts, which leaves no index. -/
def noIndex (indices : List String) : Bool :=
  indices.isEmpty && ((Json.getField? fs "indices").bind Json.items?).isSome

/-- The definition that a JSON value spells, with all problems of its shape. It is only usable when
there are none. -/
def read (data : Json) : Checked Definition := do
  let fs := data.fields?.getD []
  noteIf data.fields?.isNone "definition: expected an object"
  let name ← requiredText fs "name"
  let indices ← texts fs "indices" true
  noteIf (noIndex fs indices) "indices: at least one index is required"
  let nameSpace ← text? fs "namespace"
  let maxIndices ← integers? fs "maxIndices"
  let auxIndex ← text? fs "auxIndex"
  let arrayVars ← texts fs "arrayVars" false
  let selfName ← text? fs "selfName"
  let layered ← flag? fs "layered"
  let description ← text? fs "description"
  let baseItems ← list fs "bases"
  let bases ← readEntries readBase 0 baseItems
  let ruleItems ← list fs "rules"
  let rules ← readEntries readRule 0 ruleItems
  let runtimeVars ← texts fs "runtimeVars" false
  let moduleName ← text? fs "module"
  let validity ← texts fs "validity" false
  return {
    name, indices, runtimeVars, nameSpace, maxIndices, auxIndex, arrayVars, selfName, layered
    description, validity, bases, rules
    moduleName := moduleName.getD userModule }

/-- How a definition is called in messages. -/
def shownName (name : String) : String :=
  if name.isEmpty then "<unnamed>" else name

/-- The recurrence that a JSON value describes, with its module. -/
def load (data : Json) (file : Option String) : Except Error CatalogEntry :=
  let d := read data
  if d.problems.isEmpty then do
    let r ← d.value.build file
    return ⟨r, d.value.moduleName⟩
  else .error (.definition (.invalid file (shownName d.value.name) d.problems))

/-- The recurrence that the text of a file describes, with its module. -/
def loadText (file text : String) : Except Error CatalogEntry :=
  match Json.parse? text with
  | none => .error (.definition (.notJson file))
  | some data => load data (some file)

end Definition

end RecurrenceCompiler
