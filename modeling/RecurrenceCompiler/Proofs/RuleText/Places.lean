import RecurrenceCompiler.RuleText.Parser

/-!
# The place of a rule

A context knows the number of the rule that a text belongs to. It is for messages only: with another
number the same texts are read, and the same things are read from them (`alike_parseRule`,
`alike_parseValue`). Errors may differ then, since they name the place; but none of them is a list of
single problems, neither here nor there.
-/

namespace RecurrenceCompiler

/-- Two computations with the same result, or which both fail with an error that lists no problems. -/
inductive Alike {α : Type} : Except Error α → Except Error α → Prop
  | ok (a : α) : Alike (.ok a) (.ok a)
  | error {e e' : Error} : e.problems = [] → e'.problems = [] → Alike (.error e) (.error e')

namespace Alike

variable {α β : Type} {x y : Except Error α}

theorem bind {f g : α → Except Error β} (hxy : Alike x y) (hfg : ∀ a, Alike (f a) (g a)) :
    Alike (x >>= f) (y >>= g) := by
  cases hxy with
  | ok a => exact hfg a
  | error he he' => exact .error he he'

theorem map (f : α → β) (h : Alike x y) : Alike (x.map f) (y.map f) := by
  cases h with
  | ok a => exact .ok (f a)
  | error he he' => exact .error he he'

end Alike

namespace RuleText

/-- The context at another rule. -/
def Context.atRule (ctx : Context) (i : Option Nat) : Context :=
  { ctx with ruleIndex := i }

variable (ctx : Context) (i : Option Nat)

theorem alike_fault {α : Type} (what what' : TextFault) (cs cs' : List Char) :
    Alike (α := α) (.error ((ctx.atRule i).fault what cs)) (.error (ctx.fault what' cs')) :=
  .error rfl rfl

theorem alike_checkTokens (cs : List Char) :
    Alike (checkTokens (ctx.atRule i) cs) (checkTokens ctx cs) := by
  rw [checkTokens, checkTokens]
  split
  · exact .ok ()
  · exact alike_fault ..

/-! ## Coefficients -/

/-- The functions that read coefficients, within a bound on the nesting. -/
structure CoeffAlike (fuel : Nat) : Prop where
  coeff : ∀ cs, Alike (coeffWithin (ctx.atRule i) fuel cs) (coeffWithin ctx fuel cs)
  factors : ∀ whole acc fs,
    Alike (factorsWithin (ctx.atRule i) fuel whole acc fs) (factorsWithin ctx fuel whole acc fs)
  factor : ∀ cs, Alike (factorWithin (ctx.atRule i) fuel cs) (factorWithin ctx fuel cs)

variable {ctx i}

/-- One more level of nesting. -/
theorem CoeffAlike.succ {fuel : Nat} (ih : CoeffAlike ctx i fuel) : CoeffAlike ctx i (fuel + 1) where
  coeff cs := by
    rw [coeffWithin, coeffWithin]
    exact ih.factors _ _ _
  factors whole acc fs := by
    cases fs with
    | nil =>
      cases acc with
      | none => exact alike_fault ..
      | some e => exact .ok e
    | cons f fs =>
      rw [factorsWithin, factorsWithin]
      split
      · exact alike_fault ..
      · exact (ih.factor f).bind fun e => ih.factors _ _ _
  factor cs := by
    unfold factorWithin
    dsimp only
    cases literal? cs with
    | some x => exact .ok _
    | none =>
      change Alike (if ctx.runtimeVars.contains _ then _ else
        if (Arith.namesIn _).any ctx.indices.contains then _ else _) _
      split
      · exact .ok _
      · split
        · exact (alike_checkTokens ctx i _).bind fun _ => .ok _
        · split
          · exact ih.coeff _
          · split
            · split
              · exact alike_fault ..
              · exact (ih.factor _).map negate
            · exact (alike_checkTokens ctx i cs).bind fun _ => .ok _

variable (ctx i)

theorem coeffAlike : ∀ fuel, CoeffAlike ctx i fuel
  | 0 => ⟨fun _ => alike_fault .., fun _ _ _ => alike_fault .., fun _ => alike_fault ..⟩
  | fuel + 1 => (coeffAlike fuel).succ

theorem alike_parseCoeff (cs : List Char) :
    Alike (parseCoeff (ctx.atRule i) cs) (parseCoeff ctx cs) :=
  (coeffAlike ctx i _).coeff cs

/-! ## Bodies -/

theorem alike_parseShifts (seen : List String) (shifts : List Decimal.Whole) (cs : List (List Char)) :
    Alike (parseShifts (ctx.atRule i) seen shifts cs) (parseShifts ctx seen shifts cs) := by
  induction cs generalizing seen shifts with
  | nil => exact .ok shifts
  | cons c cs ih =>
    rw [parseShifts, parseShifts]
    cases shift? c with
    | none => exact alike_fault ..
    | some p =>
      obtain ⟨name, amount⟩ := p
      change Alike (if !ctx.indices.contains name || seen.contains name then _ else _)
        (if !ctx.indices.contains name || seen.contains name then _ else _)
      split
      · exact alike_fault ..
      · exact ih _ _

theorem alike_parseCall (name text : List Char) :
    Alike (parseCall (ctx.atRule i) name text) (parseCall ctx name text) := by
  rw [parseCall, parseCall]
  split
  · exact alike_fault ..
  · exact (alike_parseShifts ctx i _ _ _).bind fun _ => .ok _

theorem alike_parseFront (whole front : List Char) :
    Alike (parseFront (ctx.atRule i) whole front) (parseFront ctx whole front) := by
  unfold parseFront
  split
  · exact .ok _
  · exact .ok _
  · split
    · exact alike_fault ..
    · dsimp only
      split
      · exact alike_fault ..
      · exact alike_parseCoeff ctx i _

theorem alike_parseTerm (p : Piece) : Alike (parseTerm (ctx.atRule i) p) (parseTerm ctx p) := by
  unfold parseTerm
  split
  · exact alike_fault ..
  · split
    · exact alike_fault ..
    · split
      · exact alike_fault ..
      · split
        · exact alike_fault ..
        · split
          · exact alike_fault ..
          · exact (alike_parseCall ctx i _ _).bind fun _ =>
              (alike_parseFront ctx i _ _).bind fun _ => .ok _

theorem alike_parseTerms (body : List Char) (ps : List Piece) :
    Alike (parseTerms (ctx.atRule i) body ps) (parseTerms ctx body ps) := by
  induction ps with
  | nil => exact .ok []
  | cons p ps ih =>
    rw [parseTerms, parseTerms]
    split
    · exact alike_fault ..
    · exact (alike_parseTerm ctx i p).bind fun _ => ih.bind fun _ => .ok _

theorem alike_parseBody (text : String) :
    Alike (parseBody (ctx.atRule i) text) (parseBody ctx text) := by
  refine Alike.map Expr.sum ?_
  unfold parseSum
  dsimp only
  split
  · exact alike_fault ..
  · split
    · exact alike_fault ..
    · exact alike_parseTerms ctx i _ _

theorem alike_parseScaleChars (cs : List Char) :
    Alike (parseScaleChars (ctx.atRule i) cs) (parseScaleChars ctx cs) := by
  unfold parseScaleChars
  dsimp only
  split
  · exact (alike_parseCoeff ctx i _).map _
  · split
    · exact alike_fault ..
    · exact (alike_parseCoeff ctx i _).map _

/-- **The same rules are read**, whatever their number. -/
theorem alike_parseRule (text : String) (scale : Option String) :
    Alike (parseRule (ctx.atRule i) text scale) (parseRule ctx text scale) := by
  refine (alike_parseBody ctx i text).bind fun body => ?_
  cases scale with
  | none => exact .ok body
  | some s => exact (alike_parseScaleChars ctx i s.toList).bind fun _ => .ok _

/-- **The same base values are read**, whatever rule they stand at. -/
theorem alike_parseValue (value : Constant) :
    Alike (parseValue (ctx.atRule i) value) (parseValue ctx value) := by
  cases value with
  | number x => exact .ok _
  | raw text =>
    unfold parseValue
    dsimp only
    split
    · exact alike_fault ..
    · split
      · exact .ok _
      · change Alike (if ctx.runtimeVars.contains _ then _ else _) _
        split
        · exact .ok _
        · split
          · change Alike (if ctx.arrayVars.contains _ then _ else _) _
            split
            · exact .ok _
            · exact alike_parseCoeff ctx i _
          · exact alike_parseCoeff ctx i _

end RuleText

end RecurrenceCompiler
