import RecurrenceCompiler.Decimal.Reader

/-!
# Expressions of scripts

The expressions that occur in generated scripts, read from their text. The reader takes the longest
operator at each place, as scripts do, so two adjoining minus signs are a decrement and not a double
negation, and a number that starts with a zero is octal. Operators that no generated script uses,
assignments among them, are refused.
-/

namespace RecurrenceCompiler.Script

open Text Decimal

/-- An operator between two numbers. -/
inductive Operator where
  | add
  | sub
  | mul
  | div
  | eq
  | ne
  | lt
  | le
  | gt
  | ge
deriving DecidableEq

/-- An expression of a script. -/
inductive Expression where
  | num (x : Float)
  /-- A name, or the word `this`. -/
  | name (n : String)
  | truth (b : Bool)
  | null
  | undefined
  | negate (e : Expression)
  | positive (e : Expression)
  | not (e : Expression)
  | binary (op : Operator) (left right : Expression)
  /-- The second operand if the first holds. -/
  | both (left right : Expression)
  /-- The second operand unless the first holds. -/
  | either (left right : Expression)
  | cond (test yes no : Expression)
  /-- An element of a table. -/
  | element (table index : Expression)
  /-- What the host keeps under a name of a value. -/
  | member (value : Expression) (name : String)
  | call (callee : Expression) (args : List Expression)
  /-- A new table of zeros, made by a constructor of tables. -/
  | zeros (maker length : Expression)

/-- The operators and brackets of scripts. -/
inductive Mark where
  | op (op : Operator)
  | and
  | or
  | not
  | question
  | colon
  | left
  | right
  | leftSquare
  | rightSquare
  | comma
  | dot
  | semicolon
deriving DecidableEq

/-- The spellings of operators, longer ones before their prefixes; those without a meaning here are
refused. -/
def marks : List (String × Option Mark) :=
  [("===", none), ("!==", none), ("**", none), ("++", none), ("--", none), ("<<", none),
    (">>", none), ("??", none), ("=>", none), ("+=", none), ("-=", none), ("*=", none),
    ("/=", none), ("//", none), ("/*", none), ("==", some (.op .eq)), ("!=", some (.op .ne)),
    ("<=", some (.op .le)), (">=", some (.op .ge)), ("&&", some .and), ("||", some .or),
    ("<", some (.op .lt)), (">", some (.op .gt)), ("+", some (.op .add)), ("-", some (.op .sub)),
    ("*", some (.op .mul)), ("/", some (.op .div)), ("!", some .not), ("?", some .question),
    (":", some .colon), ("(", some .left), (")", some .right), ("[", some .leftSquare),
    ("]", some .rightSquare), (",", some .comma), (".", some .dot), (";", some .semicolon)]

/-- The words that cannot be names. -/
def reservedWords : List String :=
  ["break", "case", "catch", "class", "const", "continue", "debugger", "default", "delete", "do",
    "else", "enum", "export", "extends", "false", "finally", "for", "function", "if", "import", "in",
    "instanceof", "new", "null", "return", "super", "switch", "this", "throw", "true", "try",
    "typeof", "var", "void", "while", "with"]

/-- A token of a script. -/
inductive Token where
  | num (x : Float)
  | name (n : String)
  | mark (m : Mark)

/-- A character that may start a name. -/
def startsName (c : Char) : Bool :=
  isNameStart c || c == '$' || (127 < c.toNat && !isBlank c)

/-- A character that may continue a name. -/
def continuesName (c : Char) : Bool :=
  startsName c || isDigit c

/-- The number at the front of a text: octal if it has a leading zero and only octal digits, else
decimal. -/
def number? (cs : List Char) : Option (Float × List Char) :=
  let digits := cs.takeWhile isDigit
  match digits with
  | '0' :: _ :: _ =>
    if digits.all (· < '8') then
      some (ofInt (digitsValue 8 digitValue digits : Nat), cs.dropWhile isDigit)
    else (Literal.scan? cs).map fun (l, rest) => (l.value, rest)
  | _ => (Literal.scan? cs).map fun (l, rest) => (l.value, rest)

/-- The operator at the front of a text. -/
def mark? (cs : List Char) : Option (Mark × List Char) :=
  match marks.find? fun m => m.1.toList.isPrefixOf cs with
  | some (text, some m) => some (m, cs.drop text.length)
  | _ => none

/-- The first token of a text that starts with no blank, and the rest. A number is not followed by
a name. -/
def Token.first? (cs : List Char) : Option (Token × List Char) :=
  match number? cs with
  | some (x, rest) => if rest.head?.any startsName then none else some (.num x, rest)
  | none =>
    match cs with
    | [] => none
    | c :: rest =>
      if startsName c then
        some (.name (String.ofList (c :: rest.takeWhile continuesName)), rest.dropWhile continuesName)
      else (mark? cs).map fun (m, rest) => (.mark m, rest)

/-- The tokens of a text, with a bound on their number. -/
def tokensWithin : Nat → List Char → Option (List Token)
  | 0, cs => if (trimStart cs).isEmpty then some [] else none
  | fuel + 1, cs =>
    match trimStart cs with
    | [] => some []
    | rest => do
      let (t, rest) ← Token.first? rest
      let ts ← tokensWithin fuel rest
      return t :: ts

/-- The tokens of a text. -/
def tokens? (cs : List Char) : Option (List Token) :=
  tokensWithin cs.length cs

/-- How tightly an operator binds. -/
def Operator.level : Operator → Nat
  | eq | ne => 3
  | lt | le | gt | ge => 4
  | add | sub => 5
  | mul | div => 6

/-- A binary operator with its level and the expression that it builds. -/
def Mark.binary? : Mark → Option (Nat × (Expression → Expression → Expression))
  | .or => some (1, .either)
  | .and => some (2, .both)
  | .op o => some (o.level, .binary o)
  | _ => none

/-- The expression that a name or a word is. -/
def nameExpression? (n : String) : Option Expression :=
  if n == "true" then some (.truth true)
  else if n == "false" then some (.truth false)
  else if n == "null" then some .null
  else if n == "this" then some (.name n)
  else if reservedWords.contains n then none
  else some (.name n)

mutual

/-- A conditional expression at the front of the tokens. -/
def readCond : Nat → List Token → Option (Expression × List Token)
  | 0, _ => none
  | fuel + 1, ts => do
    let (test, ts) ← readBinary fuel 1 ts
    match ts with
    | .mark .question :: ts => do
      let (yes, ts) ← readCond fuel ts
      match ts with
      | .mark .colon :: ts => do
        let (no, ts) ← readCond fuel ts
        return (.cond test yes no, ts)
      | _ => none
    | ts => return (test, ts)

/-- Operands joined by operators of at least a level. -/
def readBinary : Nat → Nat → List Token → Option (Expression × List Token)
  | 0, _, _ => none
  | fuel + 1, level, ts => do
    let (e, ts) ← readUnary fuel ts
    readRest fuel level e ts

/-- The operators after a first operand. -/
def readRest : Nat → Nat → Expression → List Token → Option (Expression × List Token)
  | 0, _, _, _ => none
  | fuel + 1, level, e, .mark m :: ts =>
    match m.binary? with
    | some (l, build) =>
      if level ≤ l then do
        let (r, ts) ← readBinary fuel (l + 1) ts
        readRest fuel level (build e r) ts
      else return (e, .mark m :: ts)
    | none => return (e, .mark m :: ts)
  | _ + 1, _, e, ts => return (e, ts)

/-- An operand with its signs. -/
def readUnary : Nat → List Token → Option (Expression × List Token)
  | 0, _ => none
  | fuel + 1, .mark (.op .sub) :: ts => do
    let (e, ts) ← readUnary fuel ts
    return (.negate e, ts)
  | fuel + 1, .mark (.op .add) :: ts => do
    let (e, ts) ← readUnary fuel ts
    return (.positive e, ts)
  | fuel + 1, .mark .not :: ts => do
    let (e, ts) ← readUnary fuel ts
    return (.not e, ts)
  | fuel + 1, ts => do
    let (e, ts) ← readPrimary fuel ts
    readSuffixes fuel e ts

/-- A number, a name or a parenthesis. -/
def readPrimary : Nat → List Token → Option (Expression × List Token)
  | 0, _ => none
  | _ + 1, .num x :: ts => some (.num x, ts)
  | _ + 1, .name n :: ts => (nameExpression? n).map fun e => (e, ts)
  | fuel + 1, .mark .left :: ts => do
    let (e, ts) ← readCond fuel ts
    match ts with
    | .mark .right :: ts => return (e, ts)
    | _ => none
  | _ + 1, _ => none

/-- The subscripts, members and arguments after an operand. -/
def readSuffixes : Nat → Expression → List Token → Option (Expression × List Token)
  | 0, _, _ => none
  | fuel + 1, e, .mark .leftSquare :: ts => do
    let (i, ts) ← readCond fuel ts
    match ts with
    | .mark .rightSquare :: ts => readSuffixes fuel (.element e i) ts
    | _ => none
  | fuel + 1, e, .mark .dot :: .name n :: ts => readSuffixes fuel (.member e n) ts
  | fuel + 1, e, .mark .left :: ts => do
    let (args, ts) ← readArgs fuel ts
    readSuffixes fuel (.call e args) ts
  | _ + 1, e, ts => some (e, ts)

/-- The arguments of a call, up to its closing parenthesis. -/
def readArgs : Nat → List Token → Option (List Expression × List Token)
  | 0, _ => none
  | _ + 1, .mark .right :: ts => some ([], ts)
  | fuel + 1, ts => do
    let (e, ts) ← readCond fuel ts
    match ts with
    | .mark .comma :: ts => do
      let (es, ts) ← readArgs fuel ts
      return (e :: es, ts)
    | .mark .right :: ts => return ([e], ts)
    | _ => none

end

/-- An expression at the front of the tokens. -/
def Expression.read? (ts : List Token) : Option (Expression × List Token) :=
  readCond (8 * ts.length + 8) ts

/-- The expression that a text spells. -/
def Expression.parse? (text : String) : Option Expression := do
  let ts ← tokens? text.toList
  match Expression.read? ts with
  | some (e, []) => some e
  | _ => none

/-- What a message calls the callee of a call. -/
def Expression.shown : Expression → String
  | .name n => n
  | .member e n => e.shown ++ "." ++ n
  | _ => "(intermediate value)"

end RecurrenceCompiler.Script
