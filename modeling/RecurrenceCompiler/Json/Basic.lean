import RecurrenceCompiler.Sorting

/-!
# JSON values

Values keep the fields of an object in the order in which they are enumerated: fields named by an
array index come first, in increasing order, the others in the order in which they were written.
When a field is written twice the first place and the last value count.
-/

namespace RecurrenceCompiler

/-- A JSON value. -/
inductive Json where
  | null
  | bool (b : Bool)
  | number (x : Float)
  | string (s : String)
  | array (items : List Json)
  | object (fields : List (String × Json))

namespace Json

/-- The array index that a field name spells, if it spells one. -/
def arrayIndex? (key : String) : Option Nat :=
  match key.toList with
  | [] => none
  | '0' :: [] => some 0
  | '0' :: _ => none
  | cs =>
    if cs.length ≤ 10 && cs.all (fun c => '0' ≤ c && c ≤ '9') then
      let n := cs.foldl (fun n c => n * 10 + (c.toNat - 48)) 0
      if n < 4294967295 then some n else none
    else none

/-- Overwrite the value under a key, or append the field. -/
def setField (fields : List (String × α)) (key : String) (value : α) : List (String × α) :=
  match fields with
  | [] => [(key, value)]
  | (k, v) :: rest => if k == key then (k, value) :: rest else (k, v) :: setField rest key value

/-- The value under a key. -/
def getField? (fields : List (String × α)) (key : String) : Option α :=
  (fields.find? fun f => f.1 == key).map (·.2)

/-- Fields in enumeration order: array indices first, in increasing order. -/
def enumerate (fields : List (String × α)) : List (String × α) :=
  let numbered := fields.filterMap fun f => (arrayIndex? f.1).map fun n => (n, f)
  let sorted := (sortBy (fun a b => a.1 ≤ b.1) numbered).map (·.2)
  sorted ++ fields.filter fun f => (arrayIndex? f.1).isNone

/-- The object with these fields, written one after another. -/
def ofFields (fields : List (String × Json)) : Json :=
  .object (enumerate (fields.foldl (fun fs (k, v) => setField fs k v) []))

/-- The value of a field of an object. -/
def field? (j : Json) (key : String) : Option Json :=
  match j with
  | .object fields => getField? fields key
  | _ => none

/-- The fields of an object. -/
def fields? : Json → Option (List (String × Json))
  | .object fields => some fields
  | _ => none

/-- The text of a string value. -/
def string? : Json → Option String
  | .string s => some s
  | _ => none

/-- The items of an array. -/
def items? : Json → Option (List Json)
  | .array items => some items
  | _ => none

end Json

end RecurrenceCompiler
