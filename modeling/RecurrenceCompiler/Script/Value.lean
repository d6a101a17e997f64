import RecurrenceCompiler.Ambient
import RecurrenceCompiler.Arith.Carrier
import RecurrenceCompiler.Decimal.Reader
import RecurrenceCompiler.Error
import RecurrenceCompiler.Json.Basic
import RecurrenceCompiler.Text.Units

/-!
# Values of scripts

Scripts compute with numbers, but other values turn up where a name stands for something else: an
element outside a table is undefined, a parameter may be a table, and the host has functions and
records under names of its own. Operators convert such values: all but addition and comparison take
the number of a value, addition joins texts if an operand only has a text, and a comparison of two
texts goes by their code units.

The operations make the values of scripts a number system over any other one, so that arithmetic text
can be evaluated on them too.
-/

namespace RecurrenceCompiler.Script

open Text Decimal

/-- What a function value calls. -/
inductive Callable where
  /-- A function of a loaded unit. -/
  | inUnit (unit : Nat) (name : String)
  | math (f : MathFn)
  /-- The largest of its arguments. -/
  | largest
  /-- Whether a value is a whole number. -/
  | isInteger
  /-- The constructor of tables. -/
  | array
  /-- Another function of the host. -/
  | host (name : String)
deriving DecidableEq

/-- The name of a function of the host in its text. -/
def Callable.shownName : Callable → String
  | inUnit _ name => name
  | math f => f.name
  | largest => "max"
  | isInteger => "isInteger"
  | array => "Array"
  | host name => name

/-- A value of a script. -/
inductive Value (α : Type) where
  | num (x : α)
  | truth (b : Bool)
  | text (s : String)
  | undefined
  | null
  /-- Its elements from zero on, and values under other keys. -/
  | table (items : List (Value α)) (named : List (String × Value α))
  | function (f : Callable)
  /-- A record of the host, known by its text. -/
  | record (text : String)

namespace Value

/-- The text of the record that holds the elementary functions. -/
def mathRecord : String := "[object Math]"

/-- The text of a plain record. -/
def plainRecord : String := "[object Object]"

/-- The table of given elements. -/
def ofItems (items : List (Value α)) : Value α :=
  .table items []

/-- The value of something that every record holds. The constructor of records goes by the name
`Object`. -/
def ofAmbient (a : Ambient) : Value α :=
  match a.arity with
  | some _ => .function (.host (if a.name == "constructor" then "Object" else a.name))
  | none => .record plainRecord

/-- The kind of a value. -/
def kind : Value α → String
  | .num _ => "number"
  | .truth _ => "boolean"
  | .text _ => "string"
  | .undefined => "undefined"
  | .null | .table .. | .record _ => "object"
  | .function _ => "function"

/-- The number that a value is, if it is one. -/
def number? : Value α → Option α
  | .num x => some x
  | _ => none

/-- Whether a value is undefined or null. -/
def isNothing : Value α → Bool
  | .undefined | .null => true
  | _ => false

/-- Whether a value only has a text, and no number of its own. -/
def isObject : Value α → Bool
  | .table .. | .function _ | .record _ => true
  | _ => false

section

variable {α : Type} [Carrier α]

/-- The number that is none. -/
def nan : α :=
  Carrier.ofFloat (0.0 / 0.0)

mutual

/-- The text of a value. -/
def toText : Value α → String
  | .num x => Carrier.text x
  | .truth b => if b then "true" else "false"
  | .text s => s
  | .undefined => "undefined"
  | .null => "null"
  | .table items _ => ",".intercalate (itemTexts items)
  | .function f => "function " ++ f.shownName ++ "() \x7b [native code] \x7d"
  | .record t => t

/-- The texts of the elements of a table. Missing ones are left blank. -/
def itemTexts : List (Value α) → List String
  | [] => []
  | v :: vs => (if v.isNothing then "" else v.toText) :: itemTexts vs

end

/-- The number that a text stands for. -/
def numberOfText (s : String) : α :=
  match readNumber? s.toList with
  | some x => Carrier.ofFloat x
  | none => nan

/-- The number that a value counts as. -/
def toNumber (v : Value α) : α :=
  match v with
  | .num x => x
  | .truth b => if b then Carrier.ofInt 1 else Carrier.zero
  | .undefined => nan
  | .null => Carrier.zero
  | v => numberOfText v.toText

/-- A value with a table, a function or a record replaced by its text. -/
def primitive (v : Value α) : Value α :=
  if v.isObject then .text v.toText else v

/-- Whether a condition holds: zero, the number that is none and the empty text do not. -/
def holds : Value α → Bool
  | .num x => Carrier.eq x x && !Carrier.eq x Carrier.zero
  | .truth b => b
  | .text s => !s.isEmpty
  | .undefined | .null => false
  | .table .. | .function _ | .record _ => true

/-! ## Operators -/

/-- The sum of two values, or their texts joined. -/
def plus (x y : Value α) : Value α :=
  match x, y with
  | .num x, .num y => .num (Carrier.add x y)
  | x, y =>
    match x.primitive, y.primitive with
    | .text s, y => .text (s ++ y.toText)
    | x, .text t => .text (x.toText ++ t)
    | x, y => .num (Carrier.add x.toNumber y.toNumber)

/-- Whether two values are the same without conversion. Two tables never are. -/
def same (x y : Value α) : Bool :=
  match x, y with
  | .num x, .num y => Carrier.eq x y
  | .truth a, .truth b => a == b
  | .text s, .text t => s == t
  | .undefined, .undefined | .null, .null => true
  | .function f, .function g => f == g
  | .record s, .record t => s == t
  | _, _ => false

/-- Whether two values are equal after conversion. -/
def equal (x y : Value α) : Bool :=
  if x.isNothing || y.isNothing then x.isNothing && y.isNothing
  else if x.isObject && y.isObject then x.same y
  else
    match x.primitive, y.primitive with
    | .text s, .text t => s == t
    | x, y => Carrier.eq x.toNumber y.toNumber

/-- Whether a value comes before another one: by code units if both are texts, else by number. -/
def less (x y : Value α) : Bool :=
  match x.primitive, y.primitive with
  | .text s, .text t => !unitsLe t s
  | x, y => Carrier.lt x.toNumber y.toNumber

/-- Whether a value comes before another one or is as large. -/
def lessEq (x y : Value α) : Bool :=
  match x.primitive, y.primitive with
  | .text s, .text t => unitsLe s t
  | x, y => Carrier.le x.toNumber y.toNumber

/-- Whether a value is a whole number. -/
def isWhole : Value α → Bool
  | .num x => Carrier.isWhole x
  | _ => false

instance : Carrier (Value α) where
  ofFloat x := .num (Carrier.ofFloat x)
  add := plus
  sub x y := .num (Carrier.sub x.toNumber y.toNumber)
  mul x y := .num (Carrier.mul x.toNumber y.toNumber)
  div x y := .num (Carrier.div x.toNumber y.toNumber)
  neg x := .num (Carrier.neg x.toNumber)
  apply f xs := .num (Carrier.apply f (xs.map toNumber))
  eq := same
  lt := less
  le := lessEq
  isWhole := isWhole
  toNat? x := x.number?.bind Carrier.toNat?
  text := toText

/-! ## Elements and properties -/

/-- The place of a table's element, if a value is one. -/
def slot? (key : Value α) : Option Nat :=
  let slot := match key with
    | .num x => Carrier.toNat? x
    | key => Json.arrayIndex? key.toText
  slot.filter (· < 4294967295)

/-- The element of a value at an index. -/
def element (v key : Value α) : Except Error (Value α) :=
  match v with
  | .undefined | .null => .error (.fault (.readOfUndefined key.toText))
  | .table items named =>
    match key.slot? with
    | some k => .ok (items[k]?.getD .undefined)
    | none => .ok ((Json.getField? named key.toText).getD .undefined)
  | .text s => .ok (((key.slot?.bind fun k => s.toList[k]?).map fun c =>
      .text (String.singleton c)).getD .undefined)
  | _ => .ok .undefined

/-- A value with an element written. A table grows when the element lies past its end; what is
written to a number or a text is lost. -/
def write (v key element : Value α) : Except Error (Value α) :=
  match v with
  | .undefined | .null => .error (.fault (.writeToUndefined key.toText))
  | .table items named =>
    match key.slot? with
    | none => .ok (.table items (Json.setField named key.toText element))
    | some k =>
      .ok <| .table (if k < items.length then items.set k element
        else items ++ List.replicate (k - items.length) .undefined ++ [element]) named
  | v => .ok v

/-- What the host keeps under a name of one of its values. -/
def member (v : Value α) (name : String) : Except Error (Value α) :=
  match v with
  | .undefined | .null => .error (.fault (.readOfUndefined name))
  | .function (.host "Number") =>
    .ok (if name == "isInteger" then .function .isInteger else .undefined)
  | .record t =>
    .ok <| if t != mathRecord then .undefined
      else if name == "max" then .function .largest
      else ((MathFn.ofName? name).map fun f => .function (.math f)).getD .undefined
  | _ => .ok .undefined

/-- A table of zeros, of a given length. Anything but a number would be its only element. -/
def zeros (length : Value α) : Except Error (Value α) :=
  match length with
  | .num x =>
    match (Carrier.toNat? x).filter (· < 4294967296) with
    | some n => .ok (ofItems (List.replicate n (.num Carrier.zero)))
    | none => .error (.fault .badLength)
  | _ => .ok (ofItems [.num Carrier.zero])

/-- The larger of two numbers, and no number if one of them is none. -/
def larger (x y : α) : α :=
  if !Carrier.eq x x then x else if Carrier.lt x y || !Carrier.eq y y then y else x

/-- The largest of numbers, starting from one. -/
def largest (first : α) (rest : List α) : α :=
  rest.foldl larger first

/-! ## Functions of the host -/

/-- An elementary function applied to as many arguments as it takes. -/
def applyMath (f : MathFn) (args : List (Value α)) : Value α :=
  .num (Carrier.apply f ((List.range f.arity).map fun i => (args[i]?.getD .undefined).toNumber))

/-- A function that every record holds, called on no record. -/
def applyHost (name : String) (args : List (Value α)) : Except Error (Value α) :=
  match name with
  | "Object" => .ok (.record plainRecord)
  | "toString" => .ok (.text "[object Undefined]")
  | "isPrototypeOf" =>
    if (args.head?.map isObject).getD false then .error (.fault .noRecord) else .ok (.truth false)
  | "Number" => .ok (.num ((args.head?.map toNumber).getD Carrier.zero))
  | _ => .error (.fault .noRecord)

/-- The value of a function of the host. -/
def applyCallable (f : Callable) (args : List (Value α)) : Except Error (Value α) :=
  match f with
  | .math f => .ok (applyMath f args)
  | .largest =>
    .ok (.num (largest (Carrier.ofFloat (-(1.0 / 0.0))) (args.map toNumber)))
  | .isInteger => .ok (.truth ((args.head?.map isWhole).getD false))
  | .array => zeros (args.head?.getD (.num Carrier.zero))
  | .host name => applyHost name args
  | .inUnit _ name => .error (.fault (.unknownName name))

end

end Value

end RecurrenceCompiler.Script
