import RecurrenceCompiler.Library.Combinatorics
import RecurrenceCompiler.Library.Integrals
import RecurrenceCompiler.Library.Orthogonal

/-!
# The standard library

The recurrences that every catalog of the command line starts with.
-/

namespace RecurrenceCompiler.Library

/-- The definitions of the standard library, module by module. -/
def standard : List Definition :=
  orthogonal ++ combinatorics ++ mcmd ++ gradients

/-- The catalog of the standard library. -/
def catalog : Except Error Catalog :=
  Catalog.addDefinitions {} standard

end RecurrenceCompiler.Library
