import RecurrenceCompiler.Text.Blank

/-!
# Cutting rule text

Rule text is cut at operators that stand outside all brackets. A sign separates two terms when an
operand stands before it; the sign inside the exponent of a number does not.
-/

namespace RecurrenceCompiler.RuleText

open Text

/-- An opening parenthesis or bracket. -/
def isOpening (c : Char) : Bool :=
  c == '(' || c == '['

/-- A closing parenthesis or bracket. -/
def isClosing (c : Char) : Bool :=
  c == ')' || c == ']'

/-- Whether brackets close in order, given those that are open, innermost first. -/
def balancedFrom : List Char → List Char → Bool
  | stack, [] => stack.isEmpty
  | stack, c :: cs =>
    if isOpening c then balancedFrom (c :: stack) cs
    else if isClosing c then
      match stack with
      | [] => false
      | o :: stack => (o == '(') == (c == ')') && balancedFrom stack cs
    else balancedFrom stack cs

/-- Whether brackets close in order. -/
def balanced (cs : List Char) : Bool :=
  balancedFrom [] cs

/-- The bracket depth after a character. -/
def depthAfter (depth : Int) (c : Char) : Int :=
  if isOpening c then depth + 1 else if isClosing c then depth - 1 else depth

/-- The pieces between separators outside all brackets, from a depth on; `cur` is the piece so far,
last character first. -/
def splitTopFrom (sep : Char) : Int → List Char → List Char → List (List Char)
  | _, cur, [] => [trim cur.reverse]
  | depth, cur, c :: cs =>
    if depth == 0 && c == sep then trim cur.reverse :: splitTopFrom sep 0 [] cs
    else splitTopFrom sep (depthAfter depth c) (c :: cur) cs

/-- The trimmed pieces between separators outside all brackets. -/
def splitTop (sep : Char) (cs : List Char) : List (List Char) :=
  splitTopFrom sep 0 [] cs

/-- A term of a sum and the sign before it. -/
structure Piece where
  text : List Char
  negated : Bool

/-- Whether an operand stands before, given the text before, last character first. -/
def afterOperand (seen : List Char) : Bool :=
  match seen.dropWhile isBlank with
  | [] => false
  | c :: _ => !("+-*/(,".toList.contains c)

/-- Whether the text before, last character first, starts no word and is preceded by no word. -/
def startsFresh : List Char → Bool
  | [] => true
  | c :: _ => !(isWord c || c == '.')

/-- Whether the text before, last character first, is the front of a number up to the letter of its
exponent. -/
def afterExponent : List Char → Bool
  | [] => false
  | e :: before =>
    (e == 'e' || e == 'E') &&
      match before.dropWhile isDigit with
      | '.' :: rest =>
        !(rest.takeWhile isDigit).isEmpty && startsFresh (rest.dropWhile isDigit)
      | rest => !(before.takeWhile isDigit).isEmpty && startsFresh rest

/-- The terms of a sum from a depth on: `seen` is the whole text before, `cur` the term so far, both
last character first. -/
def splitTermsFrom : Int → List Char → List Char → Bool → List Char → List Piece
  | _, _, cur, negated, [] => [⟨trim cur.reverse, negated⟩]
  | depth, seen, cur, negated, c :: cs =>
    if depth == 0 && (c == '+' || c == '-') && afterOperand seen && !afterExponent seen then
      ⟨trim cur.reverse, negated⟩ :: splitTermsFrom 0 (c :: seen) [] (c == '-') cs
    else splitTermsFrom (depthAfter depth c) (c :: seen) (c :: cur) negated cs

/-- The terms of a sum. -/
def splitTerms (cs : List Char) : List Piece :=
  splitTermsFrom 0 [] [] false cs

/-- Whether the parenthesis opened first closes at the very end, given the depth so far. -/
def closesLast : Int → List Char → Bool
  | _, [] => true
  | depth, c :: cs =>
    let depth := if c == '(' then depth + 1 else if c == ')' then depth - 1 else depth
    if depth == 0 && !cs.isEmpty then false else closesLast depth cs

/-- Whether one pair of parentheses encloses the whole text. -/
def isWrapped (cs : List Char) : Bool :=
  cs.head? == some '(' && cs.getLast? == some ')' && closesLast 0 cs

/-- The text without its first and last character. -/
def peel (cs : List Char) : List Char :=
  (cs.drop 1).dropLast

/-- The text without enclosing parentheses, with a bound on their number. -/
def unwrapWithin : Nat → List Char → List Char
  | 0, cs => cs
  | fuel + 1, cs => if isWrapped cs then unwrapWithin fuel (trim (peel cs)) else cs

/-- The text without the parentheses and blanks around it. -/
def unwrap (cs : List Char) : List Char :=
  unwrapWithin cs.length (trim cs)

/-- A text that ends in a name and blanks, as the part before the name and the name. The name is the
longest that ends there. -/
def endingName? (cs : List Char) : Option (List Char × List Char) :=
  let rev := cs.reverse.dropWhile isBlank
  let word := (rev.takeWhile isWord).reverse
  let name := word.dropWhile isDigit
  if name.isEmpty then none
  else some ((rev.dropWhile isWord).reverse ++ word.takeWhile isDigit, name)

/-- A text that starts with a name, as the name and the rest. -/
def startingName? : List Char → Option (List Char × List Char)
  | [] => none
  | c :: cs => if isNameStart c then some (c :: cs.takeWhile isWord, cs.dropWhile isWord) else none

end RecurrenceCompiler.RuleText
