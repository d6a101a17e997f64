import RecurrenceCompiler.Definition.Basic

/-!
# Combinatorial recurrences
-/

namespace RecurrenceCompiler.Library

/-- Pascal's triangle. -/
def binomial : Definition where
  name := "Binomial"
  indices := ["n", "k"]
  moduleName := "combinatorics"
  nameSpace := "combinatorics"
  maxIndices := some [("n", 10), ("k", 10)]
  description := "Binomial coefficients C(n,k)"
  validity := ["n >= 0", "k >= 0", "n >= k"]
  bases := [⟨[("n", 0), ("k", 0)], .number 1⟩]
  rules := [
    { guard := "k == 0", expr := "E[n-1, k]", name := "k=0 edge" },
    { guard := "n == k", expr := "E[n-1, k-1]", name := "n=k edge" },
    { guard := "n > k && k > 0", expr := "E[n-1, k-1] + E[n-1, k]", name := "Pascal's rule" }]

/-- A sequence in which each value is `x` times the last plus the one before. -/
def fibonacci : Definition where
  name := "Fibonacci"
  indices := ["n"]
  runtimeVars := ["x"]
  moduleName := "combinatorics"
  nameSpace := "sequences"
  maxIndices := some [("n", 20)]
  description := "Fibonacci-like sequence with parameter x"
  validity := ["n >= 0"]
  bases := [⟨[("n", 0)], .number 1⟩, ⟨[("n", 1)], .raw "x"⟩]
  rules := [{ guard := "n > 1", expr := "x * E[n-1] + E[n-2]", name := "Fibonacci-like" }]

/-- The combinatorial recurrences. -/
def combinatorics : List Definition :=
  [binomial, fibonacci]

end RecurrenceCompiler.Library
