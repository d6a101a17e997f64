import RecurrenceCompiler.Definition.Basic

/-!
# Molecular integrals

Recurrences of Gaussian integrals: Hermite expansion coefficients and Coulomb integrals, both with
layers, and overlap coefficients with their derivative.
-/

namespace RecurrenceCompiler.Library

/-- Hermite expansion coefficients by layers. Mixed indices are reduced on the first side only. -/
def hermiteE : Definition where
  name := "HermiteE"
  indices := ["nA", "nB", "t"]
  runtimeVars := ["PA", "PB", "aAB"]
  moduleName := "mcmd"
  nameSpace := "mcmd_hermite"
  maxIndices := some [("nA", 3), ("nB", 3), ("t", 6)]
  auxIndex := "t"
  layered := true
  description := "Hermite expansion coefficients E^\x7bnA,nB\x7d_t"
  validity := ["nA >= 0", "nB >= 0", "t >= 0", "t <= nA + nB"]
  bases := [⟨[("nA", 0), ("nB", 0), ("t", 0)], .number 1⟩]
  rules := [
    { guard := "nA > 0 && nB == 0 && t == 0"
      expr := "PA * E[nA-1, nB, t] + (t + 1) * E[nA-1, nB, t+1]"
      name := "A-side t=0" },
    { guard := "nA > 0 && nB == 0 && t > 0"
      expr := "aAB * E[nA-1, nB, t-1] + PA * E[nA-1, nB, t] + (t + 1) * E[nA-1, nB, t+1]"
      name := "A-side t>0" },
    { guard := "nA == 0 && nB > 0 && t == 0"
      expr := "PB * E[nA, nB-1, t] + (t + 1) * E[nA, nB-1, t+1]"
      name := "B-side t=0" },
    { guard := "nA == 0 && nB > 0 && t > 0"
      expr := "aAB * E[nA, nB-1, t-1] + PB * E[nA, nB-1, t] + (t + 1) * E[nA, nB-1, t+1]"
      name := "B-side t>0" },
    { guard := "nA > 0 && nB > 0 && t == 0"
      expr := "PA * E[nA-1, nB, t] + (t + 1) * E[nA-1, nB, t+1]"
      name := "General t=0" },
    { guard := "nA > 0 && nB > 0 && t > 0"
      expr := "aAB * E[nA-1, nB, t-1] + PA * E[nA-1, nB, t] + (t + 1) * E[nA-1, nB, t+1]"
      name := "General t>0" }]

/-- Hermite Coulomb integrals over a table of Boys function values. -/
def coulombR : Definition where
  name := "CoulombR"
  indices := ["t", "u", "v", "N"]
  runtimeVars := ["PCx", "PCy", "PCz", "Boys"]
  moduleName := "mcmd"
  nameSpace := "mcmd_coulomb"
  maxIndices := some [("t", 6), ("u", 6), ("v", 6), ("N", 6)]
  auxIndex := "N"
  arrayVars := ["Boys"]
  layered := true
  description := "Hermite Coulomb auxiliary integrals R^\x7b(N)\x7d_\x7btuv\x7d"
  validity := ["t >= 0", "u >= 0", "v >= 0", "N >= 0"]
  bases := [⟨[("t", 0), ("u", 0), ("v", 0)], .raw "Boys[N]"⟩]
  rules := [
    { guard := "t > 0", expr := "PCx * E[t-1, u, v, N+1] + (t - 1) * E[t-2, u, v, N+1]"
      name := "X-recurrence" },
    { guard := "t == 0 && u > 0", expr := "PCy * E[t, u-1, v, N+1] + (u - 1) * E[t, u-2, v, N+1]"
      name := "Y-recurrence" },
    { guard := "t == 0 && u == 0 && v > 0"
      expr := "PCz * E[t, u, v-1, N+1] + (v - 1) * E[t, u, v-2, N+1]"
      name := "Z-recurrence" }]

/-- The runtime variables of the overlap coefficients. -/
def overlapVars : List String :=
  ["a", "b", "p", "P_tau", "A_tau", "B_tau", "Delta_sq"]

/-- Overlap expansion coefficients. -/
def overlap : Definition where
  name := "E"
  indices := ["i", "j", "t"]
  runtimeVars := overlapVars
  moduleName := "gradients"
  nameSpace := "mcmd"
  maxIndices := some [("i", 3), ("j", 3), ("t", 6)]
  description := "Overlap expansion coefficients E^\x7bi,j\x7d_t"
  bases := [⟨[("i", 0), ("j", 0), ("t", 0)], .raw "exp(-(a * b) / (a + b) * Delta_sq)"⟩]
  rules := [
    { guard := "i > 0 && t >= 0 && t <= i + j"
      expr := "(0.5 / p) * E[i-1, j, t-1] + (P_tau - A_tau) * E[i-1, j, t] + (t + 1.0) * E[i-1, j, t+1]"
      name := "Increment i" },
    { guard := "j > 0 && t >= 0 && t <= i + j"
      expr := "(0.5 / p) * E[i, j-1, t-1] + (P_tau - B_tau) * E[i, j-1, t] + (t + 1.0) * E[i, j-1, t+1]"
      name := "Increment j" }]

/-- The derivative of the overlap coefficients, which calls the coefficients themselves. -/
def overlapDeriv : Definition where
  name := "E_deriv"
  indices := ["i", "j", "t"]
  runtimeVars := overlapVars
  moduleName := "gradients"
  nameSpace := "mcmd"
  maxIndices := some [("i", 3), ("j", 3), ("t", 7)]
  selfName := "E_deriv"
  description := "Derivative coefficients E^\x7bi,j,1\x7d_t"
  bases := [⟨[("i", 0), ("j", 0), ("t", 0)],
    .raw "2.0 * a * (P_tau - A_tau) * exp(-(a * b) / (a + b) * Delta_sq)"⟩]
  rules := [
    { guard := "i > 0 && t >= 0 && t <= i + j"
      expr := "(0.5 / p) * E_deriv[i-1, j, t-1] - (b / (a + b)) * E[i-1, j, t]" ++
        " + (P_tau - A_tau) * E_deriv[i-1, j, t] + (t + 1.0) * E_deriv[i-1, j, t+1]"
      name := "Increment i" },
    { guard := "j > 0 && t >= 0 && t <= i + j"
      expr := "(0.5 / p) * E_deriv[i, j-1, t-1] + (a / (a + b)) * E[i, j-1, t]" ++
        " + (P_tau - B_tau) * E_deriv[i, j-1, t] + (t + 1.0) * E_deriv[i, j-1, t+1]"
      name := "Increment j" }]

/-- The integrals of the expansion scheme. -/
def mcmd : List Definition :=
  [hermiteE, coulombR]

/-- The overlap coefficients and their derivative. -/
def gradients : List Definition :=
  [overlap, overlapDeriv]

end RecurrenceCompiler.Library
