import RecurrenceCompiler.Sorting

/-!
# The order of texts

Names, keys and file names are sorted by their UTF-16 code units: a character outside the basic
plane counts as its two surrogates, so it comes before the characters from U+E000 on.
-/

namespace RecurrenceCompiler.Text

/-- The UTF-16 code units of a character. -/
def charUnits (c : Char) : List Nat :=
  let n := c.toNat
  if n < 0x10000 then [n]
  else [0xd800 + (n - 0x10000) / 0x400, 0xdc00 + (n - 0x10000) % 0x400]

/-- The UTF-16 code units of a string. -/
def units (s : String) : List Nat :=
  s.toList.flatMap charUnits

/-- The lexicographic order of code units: a proper prefix comes first. -/
def lexLe : List Nat → List Nat → Bool
  | [], _ => true
  | _ :: _, [] => false
  | m :: ms, n :: ns => m < n || (m == n && lexLe ms ns)

/-- The order of texts by code units. -/
def unitsLe (a b : String) : Bool :=
  lexLe (units a) (units b)

/-- The strings in the order of their code units. -/
def sortByUnits (xs : List String) : List String :=
  sortBy unitsLe xs

end RecurrenceCompiler.Text
