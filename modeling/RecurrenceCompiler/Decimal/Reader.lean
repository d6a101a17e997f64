import RecurrenceCompiler.Text.Blank
import RecurrenceCompiler.Decimal.Layout

/-!
# Reading numbers

`Literal.scan?` takes the longest unsigned number from the front of a text: digits with an optional
point and fraction, or a point and a fraction, then an optional exponent. `readNumber` is the more
liberal rule for whole texts such as configuration values: blanks around the number, a sign, the
words for infinity, and integers in base two, eight and sixteen.
-/

namespace RecurrenceCompiler.Decimal

open Text

/-- The value of a run of digits in a base. -/
def digitsValue (base : Nat) (value : Char → Nat) (cs : List Char) : Nat :=
  cs.foldl (fun n c => n * base + value c) 0

/-- The value of a decimal digit. -/
def digitValue (c : Char) : Nat :=
  c.toNat - 48

/-- The value of a run of decimal digits. -/
def natOfDigits (cs : List Char) : Nat :=
  digitsValue 10 digitValue cs

/-- The double nearest to `digits * 10 ^ exponent`. -/
def toFloat (digits : Nat) (exponent : Int) : Float :=
  if digits == 0 then 0.0
  else
    let top := (digitCount digits : Int) + exponent
    if 400 < top then 1.0 / 0.0
    else if top < -400 then 0.0
    else
      let (n, d) := scale 10 exponent (digits, 1)
      ofQuotient n d

/-- An unsigned decimal literal, cut into its parts. -/
structure Literal where
  whole : List Char
  /-- Whether a point follows the whole part. -/
  point : Bool
  fraction : List Char
  /-- The exponent as written: its letter, its sign if any, its digits. -/
  exponent : Option (Char × Option Char × List Char)

/-- The characters of a literal. -/
def Literal.chars (l : Literal) : List Char :=
  l.whole ++ (if l.point then ['.'] else []) ++ l.fraction ++
    match l.exponent with
    | none => []
    | some (e, sign, digits) => e :: (sign.toList ++ digits)

/-- The power of ten that the exponent part stands for. -/
def Literal.power (l : Literal) : Int :=
  match l.exponent with
  | none => 0
  | some (_, sign, digits) =>
    if sign == some '-' then -(natOfDigits digits : Int) else natOfDigits digits

/-- The double nearest to a literal. -/
def Literal.value (l : Literal) : Float :=
  toFloat (natOfDigits (l.whole ++ l.fraction)) (l.power - l.fraction.length)

/-- The exponent part at the front of a text, if there is a complete one. -/
def scanExponent? : List Char → Option ((Char × Option Char × List Char) × List Char)
  | e :: rest =>
    if e == 'e' || e == 'E' then
      let (sign, digitsOn) : Option Char × List Char :=
        match rest with
        | '+' :: r => (some '+', r)
        | '-' :: r => (some '-', r)
        | r => (none, r)
      let digits := digitsOn.takeWhile isDigit
      if digits.isEmpty then none else some ((e, sign, digits), digitsOn.dropWhile isDigit)
    else none
  | [] => none

/-- The literal with the exponent at the front of the rest, if there is one. -/
def Literal.withExponent (l : Literal) (rest : List Char) : Literal × List Char :=
  match scanExponent? rest with
  | some (e, rest) => (⟨l.whole, l.point, l.fraction, some e⟩, rest)
  | none => (l, rest)

/-- The longest literal at the front of a text, and the rest. -/
def Literal.scan? (cs : List Char) : Option (Literal × List Char) :=
  let whole := cs.takeWhile isDigit
  let rest := cs.dropWhile isDigit
  match rest with
  | '.' :: after =>
    let fraction := after.takeWhile isDigit
    if whole.isEmpty && fraction.isEmpty then none
    else some (Literal.withExponent ⟨whole, true, fraction, none⟩ (after.dropWhile isDigit))
  | rest =>
    if whole.isEmpty then none
    else some (Literal.withExponent ⟨whole, false, [], none⟩ rest)

/-- A text that is one unsigned literal to its end. -/
def Literal.ofChars? (cs : List Char) : Option Literal :=
  match Literal.scan? cs with
  | some (l, []) => some l
  | _ => none

/-- The double that a literal with an optional sign stands for. -/
def signedLiteral? (cs : List Char) : Option Float :=
  match cs with
  | '-' :: r => (Literal.ofChars? r).map fun l => -l.value
  | '+' :: r => (Literal.ofChars? r).map Literal.value
  | r => (Literal.ofChars? r).map Literal.value

/-- Whether a text is a number literal, blanks around it aside. -/
def isNumberLiteral (cs : List Char) : Bool :=
  (signedLiteral? (trim cs)).isSome

/-- The value of a digit in a base up to sixteen. -/
def baseDigit? (base : Nat) (c : Char) : Option Nat :=
  let n :=
    if isDigit c then c.toNat - 48
    else if 'a' ≤ c && c ≤ 'f' then c.toNat - 87
    else if 'A' ≤ c && c ≤ 'F' then c.toNat - 55
    else base
  if n < base then some n else none

/-- An unsigned integer in a base. -/
def readBase? (base : Nat) (cs : List Char) : Option Float :=
  if cs.isEmpty then none
  else (cs.mapM (baseDigit? base)).map fun ds =>
    ofInt (ds.foldl (fun n d => n * base + d) 0 : Nat)

/-- The number that a whole text stands for. The empty text stands for zero. -/
def readNumber? (cs : List Char) : Option Float :=
  match trim cs with
  | [] => some 0.0
  | '0' :: 'x' :: r | '0' :: 'X' :: r => readBase? 16 r
  | '0' :: 'o' :: r | '0' :: 'O' :: r => readBase? 8 r
  | '0' :: 'b' :: r | '0' :: 'B' :: r => readBase? 2 r
  | t =>
    if t == "Infinity".toList || t == "+Infinity".toList then some (1.0 / 0.0)
    else if t == "-Infinity".toList then some (-(1.0 / 0.0))
    else signedLiteral? t

/-- The integer that a run of digits with an optional minus sign stands for, on the grid of
doubles. -/
def readInteger (cs : List Char) : Int :=
  match cs with
  | '-' :: r => onDoubleGrid (-(natOfDigits r : Int))
  | r => onDoubleGrid (natOfDigits r)

end RecurrenceCompiler.Decimal
