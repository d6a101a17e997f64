import RecurrenceCompiler.Definition.Basic

/-!
# Orthogonal polynomials

The classical families by their three-term recurrences, the associated Legendre functions, and
Hermite expansion coefficients that average the reductions on either side.
-/

namespace RecurrenceCompiler.Library

/-- Hermite expansion coefficients, averaging the reductions on the two sides. -/
def hermite : Definition where
  name := "Hermite"
  indices := ["nA", "nB", "N"]
  runtimeVars := ["PA", "PB", "aAB"]
  moduleName := "orthogonal"
  nameSpace := "hermite"
  maxIndices := some [("nA", 3), ("nB", 3), ("N", 6)]
  description := "Hermite expansion coefficients E^\x7bnA,nB\x7d_N"
  validity := ["nA >= 0", "nB >= 0", "N >= 0", "nA + nB >= N"]
  bases := [⟨[("nA", 0), ("nB", 0), ("N", 0)], .number 1⟩]
  rules := [
    { guard := "nA == 0 && nB > 0"
      expr := "aAB * E[nA, nB-1, N-1] + PB * E[nA, nB-1, N] + (N+1) * E[nA, nB-1, N+1]"
      name := "B-side reduction" },
    { guard := "nB == 0 && nA > 0"
      expr := "aAB * E[nA-1, nB, N-1] + PA * E[nA-1, nB, N] + (N+1) * E[nA-1, nB, N+1]"
      name := "A-side reduction" },
    { guard := "nA > 0 && nB > 0"
      branches := some [
        "aAB * E[nA, nB-1, N-1] + PB * E[nA, nB-1, N] + (N+1) * E[nA, nB-1, N+1]",
        "aAB * E[nA-1, nB, N-1] + PA * E[nA-1, nB, N] + (N+1) * E[nA-1, nB, N+1]"]
      name := "Two-branch average" }]

/-- A family with one index, starting at one and a given value. -/
def threeTerm (name nameSpace description : String) (runtimeVars : List String) (first : String)
    (rule : RuleDefinition) : Definition where
  name
  indices := ["n"]
  runtimeVars
  moduleName := "orthogonal"
  nameSpace
  maxIndices := some [("n", 15)]
  description
  validity := ["n >= 0"]
  bases := [⟨[("n", 0)], .number 1⟩, ⟨[("n", 1)], .raw first⟩]
  rules := [rule]

/-- Legendre polynomials. -/
def legendre : Definition :=
  threeTerm "Legendre" "legendre" "Legendre polynomials P_n(x)" ["x"] "x"
    { guard := "n > 1", expr := "(2*n-1) * x * E[n-1] + (-(n-1)) * E[n-2]", scale := "1/n"
      name := "Three-term recurrence" }

/-- Chebyshev polynomials of the first kind. -/
def chebyshevT : Definition :=
  threeTerm "ChebyshevT" "chebyshev" "Chebyshev polynomials of the first kind T_n(x)" ["x"] "x"
    { guard := "n > 1", expr := "2 * x * E[n-1] - E[n-2]", name := "Three-term" }

/-- Chebyshev polynomials of the second kind. -/
def chebyshevU : Definition :=
  threeTerm "ChebyshevU" "chebyshev" "Chebyshev polynomials of the second kind U_n(x)"
    ["x", "two_x"] "two_x"
    { guard := "n > 1", expr := "two_x * E[n-1] - E[n-2]", name := "Three-term" }

/-- The Hermite polynomials of probability theory. -/
def hermiteHe : Definition :=
  threeTerm "HermiteHe" "hermite_poly" "Probabilists' Hermite polynomials He_n(x)" ["x"] "x"
    { guard := "n > 1", expr := "x * E[n-1] + (-(n-1)) * E[n-2]", name := "Three-term" }

/-- The Hermite polynomials of physics. -/
def hermiteH : Definition :=
  threeTerm "HermiteH" "hermite_poly" "Physicists' Hermite polynomials H_n(x)" ["x", "two_x"] "two_x"
    { guard := "n > 1", expr := "two_x * E[n-1] + (-2*(n-1)) * E[n-2]", name := "Three-term" }

/-- Laguerre polynomials. -/
def laguerre : Definition :=
  threeTerm "Laguerre" "laguerre" "Laguerre polynomials L_n(x)" ["x", "one_minus_x"] "one_minus_x"
    { guard := "n > 1", expr := "(2*n-1-x) * E[n-1] + (-(n-1)) * E[n-2]", scale := "1/n"
      name := "Three-term" }

/-- Associated Legendre functions. -/
def assocLegendre : Definition where
  name := "AssocLegendre"
  indices := ["l", "m"]
  runtimeVars := ["x", "sqrt1mx2"]
  moduleName := "orthogonal"
  nameSpace := "legendre"
  maxIndices := some [("l", 10), ("m", 10)]
  description := "Associated Legendre functions P_l^m(x)"
  validity := ["l >= 0", "m >= 0", "l >= m"]
  bases := [⟨[("l", 0), ("m", 0)], .number 1⟩]
  rules := [
    { guard := "l == m && m > 0", expr := "(-(2*m-1)) * sqrt1mx2 * E[l-1, m-1]"
      name := "Diagonal" },
    { guard := "l == m + 1", expr := "(2*m+1) * x * E[l-1, m]", name := "First off-diagonal" },
    { guard := "l > m + 1", expr := "(2*l-1) * x * E[l-1, m] + (-(l+m-1)) * E[l-2, m]"
      scale := "1/(l-m)", name := "General" }]

/-- The orthogonal families. -/
def orthogonal : List Definition :=
  [hermite, legendre, chebyshevT, chebyshevU, hermiteHe, hermiteH, laguerre, assocLegendre]

end RecurrenceCompiler.Library
