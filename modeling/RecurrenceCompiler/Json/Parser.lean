import RecurrenceCompiler.Decimal.Reader
import RecurrenceCompiler.Json.Basic

/-!
# Reading JSON

`Json.parse?` reads a whole text as one value, with the JSON rules for blanks (space, tab, line feed,
carriage return), numbers (no leading zero, digits on both sides of a point) and strings (no raw
control characters). A surrogate that has no partner is read as the replacement character.
-/

namespace RecurrenceCompiler.Json

open Text Decimal

/-- A blank between JSON tokens. -/
def isJsonBlank (c : Char) : Bool :=
  c == ' ' || c == '\t' || c == '\n' || c == '\r'

/-- The text without its leading blanks. -/
def skip (cs : List Char) : List Char :=
  cs.dropWhile isJsonBlank

/-- Four hexadecimal digits at the front of a text. -/
def hex4? : List Char → Option (Nat × List Char)
  | a :: b :: c :: d :: rest => do
    let a ← baseDigit? 16 a
    let b ← baseDigit? 16 b
    let c ← baseDigit? 16 c
    let d ← baseDigit? 16 d
    return (((a * 16 + b) * 16 + c) * 16 + d, rest)
  | _ => none

/-- The character of a code unit, with the low surrogate that follows a high one. -/
def unitChar (n : Nat) (rest : List Char) : Char × List Char :=
  if 0xd800 ≤ n && n < 0xdc00 then
    match rest with
    | '\\' :: 'u' :: more =>
      match hex4? more with
      | some (low, rest') =>
        if 0xdc00 ≤ low && low < 0xe000 then
          (Char.ofNat (0x10000 + (n - 0xd800) * 0x400 + (low - 0xdc00)), rest')
        else (Char.ofNat 0xfffd, rest)
      | none => (Char.ofNat 0xfffd, rest)
    | _ => (Char.ofNat 0xfffd, rest)
  else if 0xdc00 ≤ n && n < 0xe000 then (Char.ofNat 0xfffd, rest)
  else (Char.ofNat n, rest)

/-- The character that an escape stands for, after its backslash. -/
def escape? : List Char → Option (Char × List Char)
  | '"' :: r => some ('"', r)
  | '\\' :: r => some ('\\', r)
  | '/' :: r => some ('/', r)
  | 'b' :: r => some (Char.ofNat 8, r)
  | 'f' :: r => some (Char.ofNat 12, r)
  | 'n' :: r => some ('\n', r)
  | 'r' :: r => some ('\r', r)
  | 't' :: r => some ('\t', r)
  | 'u' :: r => (hex4? r).map fun (n, rest) => unitChar n rest
  | _ => none

/-- The rest of a string after its opening quote. -/
def stringRest? : Nat → List Char → List Char → Option (String × List Char)
  | 0, _, _ => none
  | fuel + 1, acc, cs =>
    match cs with
    | [] => none
    | '"' :: rest => some (String.ofList acc.reverse, rest)
    | '\\' :: rest =>
      match escape? rest with
      | some (c, rest) => stringRest? fuel (c :: acc) rest
      | none => none
    | c :: rest => if c.toNat < 0x20 then none else stringRest? fuel (c :: acc) rest

/-- The whole part of a number: a zero alone, or digits without a leading zero. -/
def wholeOk (cs : List Char) : Bool :=
  match cs with
  | [] => false
  | ['0'] => true
  | c :: _ => c != '0'

/-- A number at the front of a text. -/
def number? (cs : List Char) : Option (Float × List Char) :=
  let (negative, body) : Bool × List Char :=
    match cs with
    | '-' :: r => (true, r)
    | r => (false, r)
  match Literal.scan? body with
  | some (l, rest) =>
    if wholeOk l.whole && l.point == !l.fraction.isEmpty then
      some (if negative then -l.value else l.value, rest)
    else none
  | none => none

mutual

/-- A value at the front of a text, blanks before it skipped. -/
def value? : Nat → List Char → Option (Json × List Char)
  | 0, _ => none
  | fuel + 1, cs =>
    match skip cs with
    | '"' :: rest => (stringRest? fuel [] rest).map fun (s, r) => (.string s, r)
    | '[' :: rest =>
      match skip rest with
      | ']' :: r => some (.array [], r)
      | _ => (items fuel [] rest).map fun (js, r) => (.array js, r)
    | '\x7b' :: rest =>
      match skip rest with
      | '\x7d' :: r => some (.object [], r)
      | _ => (members fuel [] rest).map fun (fs, r) => (ofFields fs, r)
    | 't' :: 'r' :: 'u' :: 'e' :: r => some (.bool true, r)
    | 'f' :: 'a' :: 'l' :: 's' :: 'e' :: r => some (.bool false, r)
    | 'n' :: 'u' :: 'l' :: 'l' :: r => some (.null, r)
    | rest => (number? rest).map fun (x, r) => (.number x, r)

/-- The items of an array up to its closing bracket. -/
def items : Nat → List Json → List Char → Option (List Json × List Char)
  | 0, _, _ => none
  | fuel + 1, acc, cs =>
    match value? fuel cs with
    | none => none
    | some (j, rest) =>
      match skip rest with
      | ',' :: r => items fuel (j :: acc) r
      | ']' :: r => some ((j :: acc).reverse, r)
      | _ => none

/-- The fields of an object up to its closing brace. -/
def members : Nat → List (String × Json) → List Char → Option (List (String × Json) × List Char)
  | 0, _, _ => none
  | fuel + 1, acc, cs =>
    match skip cs with
    | '"' :: rest =>
      match stringRest? fuel [] rest with
      | none => none
      | some (key, rest) =>
        match skip rest with
        | ':' :: rest =>
          match value? fuel rest with
          | none => none
          | some (j, rest) =>
            match skip rest with
            | ',' :: r => members fuel ((key, j) :: acc) r
            | '\x7d' :: r => some (((key, j) :: acc).reverse, r)
            | _ => none
        | _ => none
    | _ => none

end

/-- The value that a whole text spells. -/
def parse? (text : String) : Option Json :=
  let cs := text.toList
  match value? (2 * cs.length + 2) cs with
  | some (j, rest) => if (skip rest).isEmpty then some j else none
  | none => none

end RecurrenceCompiler.Json
