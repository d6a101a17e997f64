/-!
# Characters of a source text

The character classes that every reader of the project shares. Words and digits are ASCII: a name is
a letter or an underscore followed by letters, underscores and digits. Blanks are wider: every space
separator of Unicode, the control characters from tab to carriage return, the two line separators
and the byte order mark.
-/

namespace RecurrenceCompiler.Text

/-- A decimal digit. -/
def isDigit (c : Char) : Bool :=
  '0' ≤ c && c ≤ '9'

/-- A character that may start a name. -/
def isNameStart (c : Char) : Bool :=
  ('a' ≤ c && c ≤ 'z') || ('A' ≤ c && c ≤ 'Z') || c == '_'

/-- A character that may continue a name. -/
def isWord (c : Char) : Bool :=
  isNameStart c || isDigit c

/-- A character that ends a line. -/
def isLineBreak (c : Char) : Bool :=
  c == '\n' || c == '\r' || c.toNat == 0x2028 || c.toNat == 0x2029

/-- A blank: what trimming removes and what separates tokens. -/
def isBlank (c : Char) : Bool :=
  let n := c.toNat
  (0x09 ≤ n && n ≤ 0x0d) || n == 0x20 || n == 0xa0 || n == 0x1680 || (0x2000 ≤ n && n ≤ 0x200a) ||
    n == 0x2028 || n == 0x2029 || n == 0x202f || n == 0x205f || n == 0x3000 || n == 0xfeff

/-- The text without its leading blanks. -/
def trimStart (cs : List Char) : List Char :=
  cs.dropWhile isBlank

/-- The text without its trailing blanks. -/
def trimEnd (cs : List Char) : List Char :=
  (cs.reverse.dropWhile isBlank).reverse

/-- The text without the blanks around it. -/
def trim (cs : List Char) : List Char :=
  trimEnd (trimStart cs)

/-- Each run of blanks becomes one space. The flag says that the previous character was a blank. -/
def collapseFrom : Bool → List Char → List Char
  | _, [] => []
  | afterBlank, c :: cs =>
    if isBlank c then
      if afterBlank then collapseFrom true cs else ' ' :: collapseFrom true cs
    else c :: collapseFrom false cs

/-- Each run of blanks becomes one space. -/
def collapseBlanks (cs : List Char) : List Char :=
  collapseFrom false cs

/-- A name: a letter or an underscore, then word characters to the end. -/
def isName : List Char → Bool
  | [] => false
  | c :: cs => isNameStart c && cs.all isWord

/-- A name, as a string. -/
def isIdentifier (s : String) : Bool :=
  isName s.toList

/-- A non-empty run of digits. -/
def isNatural (cs : List Char) : Bool :=
  !cs.isEmpty && cs.all isDigit

/-- A run of digits with an optional minus sign. -/
def isInteger : List Char → Bool
  | '-' :: cs => isNatural cs
  | cs => isNatural cs

/-- The string without the blanks around it. -/
def trimmed (s : String) : String :=
  String.ofList (trim s.toList)

/-- The first occurrence of `needle`, as the text before it and the text after it. -/
def cutAt? (needle : List Char) : List Char → Option (List Char × List Char)
  | [] => if needle.isEmpty then some ([], []) else none
  | c :: cs =>
    if needle.isPrefixOf (c :: cs) then some ([], (c :: cs).drop needle.length)
    else (cutAt? needle cs).map fun (before, after) => (c :: before, after)

/-- Whether `needle` occurs in the text. -/
def contains (needle cs : List Char) : Bool :=
  (cutAt? needle cs).isSome

/-- The pieces between the occurrences of one character. There is always at least one piece. -/
def splitOn (sep : Char) : List Char → List (List Char)
  | [] => [[]]
  | c :: cs =>
    match splitOn sep cs with
    | [] => [[]]
    | piece :: pieces => if c == sep then [] :: piece :: pieces else (c :: piece) :: pieces

/-- The lines of a string, without their terminators. -/
def lines (s : String) : List String :=
  (splitOn '\n' s.toList).map String.ofList

end RecurrenceCompiler.Text
