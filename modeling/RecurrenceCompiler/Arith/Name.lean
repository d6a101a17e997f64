import RecurrenceCompiler.Text.Blank

/-!
# Names inside a text

`namesIn` lists the names that a text mentions without reading it as arithmetic: a name is a maximal
run of word characters that starts with a letter or an underscore and is preceded neither by a word
character nor by a point. So the `e` of `1e5` is no name, and neither is `y` in `x.y`.
`substitute` replaces names and leaves all other characters alone.
-/

namespace RecurrenceCompiler.Arith

open Text

/-- A piece of a text: a name, or one character outside names. -/
inductive Piece where
  | name (cs : List Char)
  | other (c : Char)

/-- Where a scan for names stands. -/
inductive Scan where
  /-- A name may start here. -/
  | free
  /-- The previous character is a digit or a point, so no name starts here. -/
  | blocked
  /-- Inside a name; its characters so far, last first. -/
  | inside (rev : List Char)

/-- The state after a character outside names. -/
def Scan.after (c : Char) : Scan :=
  if isWord c || c == '.' then .blocked else .free

/-- The pieces of a text from a state on. -/
def piecesFrom : Scan → List Char → List Piece
  | .inside rev, [] => [.name rev.reverse]
  | _, [] => []
  | .inside rev, c :: cs =>
    if isWord c then piecesFrom (.inside (c :: rev)) cs
    else .name rev.reverse :: .other c :: piecesFrom (.after c) cs
  | .free, c :: cs =>
    if isNameStart c then piecesFrom (.inside [c]) cs
    else .other c :: piecesFrom (.after c) cs
  | .blocked, c :: cs => .other c :: piecesFrom (.after c) cs

/-- The pieces of a text. -/
def pieces (cs : List Char) : List Piece :=
  piecesFrom .free cs

/-- The name that a piece is. -/
def Piece.name? : Piece → Option String
  | .name cs => some (String.ofList cs)
  | .other _ => none

/-- The elements of a list without repetition, in the order of their first occurrence. -/
def distinct [BEq α] (xs : List α) : List α :=
  xs.foldl (fun seen x => if seen.contains x then seen else seen ++ [x]) []

/-- The names that a text mentions, in the order of their first occurrence. -/
def namesIn (text : String) : List String :=
  distinct ((pieces text.toList).filterMap Piece.name?)

/-- Whether a text mentions a name. -/
def mentions (text name : String) : Bool :=
  (namesIn text).contains name

/-- A piece with its name replaced. -/
def Piece.replace (value : String → Option String) : Piece → List Char
  | .name cs =>
    match value (String.ofList cs) with
    | some s => s.toList
    | none => cs
  | .other c => [c]

/-- The text with its names replaced where `value` gives them one. -/
def substitute (value : String → Option String) (text : String) : String :=
  String.ofList ((pieces text.toList).flatMap (Piece.replace value))

end RecurrenceCompiler.Arith
