/-!
# Sorting

Stable sorting by insertion. The lists sorted are short, and sorting computes by recursion on the list
alone.
-/

namespace RecurrenceCompiler

/-- A list with one more element, before the first that it may stand before. -/
def insertBy (le : α → α → Bool) (a : α) : List α → List α
  | [] => [a]
  | b :: bs => if le a b then a :: b :: bs else b :: insertBy le a bs

/-- The elements in order. Those that are equal keep their places. -/
def sortBy (le : α → α → Bool) : List α → List α
  | [] => []
  | a :: as => insertBy le a (sortBy le as)

end RecurrenceCompiler
