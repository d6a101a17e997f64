import RecurrenceCompiler.Decimal.Reader
import RecurrenceCompiler.Error

/-!
# Tokens of arithmetic text

Arithmetic text is what stands in index expressions, coefficients and constraints: numbers, names,
the four operators, parentheses and commas. `tokenize` reads the longest token at each place and
skips blanks; it fails on any other character.
-/

namespace RecurrenceCompiler.Arith

open Text Decimal

/-- The operators and brackets of arithmetic text. -/
inductive Op where
  | plus
  | minus
  | times
  | slash
  | left
  | right
  | comma
deriving DecidableEq

/-- The character of an operator. -/
def Op.char : Op → Char
  | plus => '+'
  | minus => '-'
  | times => '*'
  | slash => '/'
  | left => '('
  | right => ')'
  | comma => ','

/-- The operator that a character is. -/
def Op.ofChar? : Char → Option Op
  | '+' => some plus
  | '-' => some minus
  | '*' => some times
  | '/' => some slash
  | '(' => some left
  | ')' => some right
  | ',' => some comma
  | _ => none

/-- A token of arithmetic text. -/
inductive Token where
  | num (value : Float)
  | name (name : String)
  | op (op : Op)

/-- The first token of a text that starts with no blank, and the rest. -/
def Token.first? : List Char → Option (Token × List Char)
  | [] => none
  | c :: cs =>
    match Literal.scan? (c :: cs) with
    | some (l, rest) => some (.num l.value, rest)
    | none =>
      if isNameStart c then
        some (.name (String.ofList (c :: cs.takeWhile isWord)), cs.dropWhile isWord)
      else (Op.ofChar? c).map fun op => (.op op, cs)

/-- The tokens of a text, with a bound on their number. -/
def tokensWithin : Nat → List Char → Option (List Token)
  | 0, cs => if (trimStart cs).isEmpty then some [] else none
  | fuel + 1, cs =>
    match trimStart cs with
    | [] => some []
    | c :: rest =>
      match Token.first? (c :: rest) with
      | none => none
      | some (t, rest) => (tokensWithin fuel rest).map (t :: ·)

/-- The tokens of a text, if every character of it belongs to one. -/
def tokens? (cs : List Char) : Option (List Token) :=
  tokensWithin cs.length cs

/-- The error of text that is not arithmetic. -/
def invalid (text : String) : Error :=
  .text .invalidArithmetic text none

/-- The tokens of a text. -/
def tokenize (text : String) : Except Error (List Token) :=
  match tokens? text.toList with
  | some ts => .ok ts
  | none => .error (invalid text)

end RecurrenceCompiler.Arith
