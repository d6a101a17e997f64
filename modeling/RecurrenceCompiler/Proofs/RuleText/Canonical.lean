import RecurrenceCompiler.Proofs.Decimal.Positional
import RecurrenceCompiler.Proofs.RuleText.RoundTrip

/-!
# Canonical rules

A rule that is put together by hand comes back from its text as well, if it has the form that the parser
gives to rules (`parse_print_canonical`): a sum of terms, each a product of factors from left to right
times a call, with a scale or without. The names of the context have to be told apart, since a name
that is both an index and a runtime variable is read as the latter (`canonical_needs_distinct`).
-/

namespace RecurrenceCompiler

open Text Decimal Arith

/-- A product of factors, taken from left to right. -/
inductive Expr.ProductOf (p : Expr → Prop) : Expr → Prop
  | factor {e : Expr} : p e → ProductOf p e
  | mul {l r : Expr} : ProductOf p l → p r → ProductOf p (.binop .mul l r)

namespace RuleText

/-- A text in balanced brackets without blanks around it or two blanks in a row, which is no more in
parentheses as a whole and which tokens cover. -/
structure Kernel (cs : List Char) : Prop where
  balanced : balanced cs
  trimmed : trim cs = cs
  normal : collapseBlanks cs = cs
  unwrapped : isWrapped cs = false
  tokens : (tokens? cs).isSome

/-- Index arithmetic. -/
structure IndexText (ctx : Context) (cs : List Char) : Prop extends Kernel cs where
  indexed : (namesIn (String.ofList cs)).any ctx.indices.contains

/-- Arithmetic without indices, as the last case of reading a factor keeps it: what stands between two
stars and is no number, no name, not in parentheses and has no sign. -/
structure RuntimeText (ctx : Context) (cs : List Char) : Prop extends Kernel cs where
  ne_nil : cs ≠ []
  uncut : uncut '*' 0 cs
  literal : literal? cs = none
  unindexed : (namesIn (String.ofList cs)).any ctx.indices.contains = false
  unsigned : cs.head? ≠ some '-'
  unnamed : isName cs = false

/-- A factor in the form that the parser gives to it. -/
inductive CanonicalFactor (ctx : Context) : Expr → Prop
  | number {x : Float} : IsFinite x → isNegativeZero x = false → CanonicalFactor ctx (.number x)
  | name {n : String} : isIdentifier n → n ∉ ctx.indices → CanonicalFactor ctx (.var n)
  | index {t : String} : IndexText ctx t.toList → CanonicalFactor ctx (.index t)
  | runtime {t : String} : RuntimeText ctx t.toList → CanonicalFactor ctx (.var ("(" ++ t ++ ")"))

/-- A call with a shift for each index. A shift is a double, not the negative zero and below ten to the
power twenty-one, and a target is another recurrence. -/
structure CanonicalCall (ctx : Context) (c : Call) : Prop where
  length : c.shifts.length = ctx.indices.length
  grid : ∀ w ∈ c.shifts, w.OnGrid
  signed : ∀ w ∈ c.shifts, w.negative → w.magnitude ≠ 0
  small : ∀ w ∈ c.shifts, w.magnitude < 10 ^ 21
  target : ∀ t, c.target = some t → isIdentifier t ∧ t ≠ ctx.name ∧ t ≠ ctx.selfName

/-- A term of a canonical rule. -/
structure CanonicalTerm (ctx : Context) (t : Term Expr) : Prop where
  coeff : t.coeff.ProductOf (CanonicalFactor ctx)
  call : ∃ c, t.factor = .call c ∧ CanonicalCall ctx c

/-- A rule in the form that the parser gives to rules. -/
inductive CanonicalRule (ctx : Context) : Expr → Prop
  | sum {ts : List (Term Expr)} : ts ≠ [] → (∀ t ∈ ts, CanonicalTerm ctx t) → CanonicalRule ctx (.sum ts)
  | scaled {ts : List (Term Expr)} {scale : Expr} {division : Bool} : ts ≠ [] →
      (∀ t ∈ ts, CanonicalTerm ctx t) → scale.ProductOf (CanonicalFactor ctx) →
      CanonicalRule ctx (.scaled (.sum ts) scale division)

variable {ctx : Context}

/-! ## Factors -/

theorem CanonicalFactor.isProduct_eq {l : Expr} (h : CanonicalFactor ctx l) : l.isProduct = false := by
  cases h <;> rfl

/-- The factors of a product of factors, and that it is taken from left to right. -/
theorem factors_of_productOf {e : Expr} (h : e.ProductOf (CanonicalFactor ctx)) :
    (∀ l ∈ e.factors, CanonicalFactor ctx l) ∧ e.isLeftNested := by
  induction h with
  | factor hl =>
    rw [Expr.factors_of_not_isProduct hl.isProduct_eq]
    exact ⟨List.forall_mem_singleton.2 hl, Expr.isLeftNested_of_not_isProduct hl.isProduct_eq⟩
  | mul _ hr ih =>
    rw [Expr.factors, Expr.factors_of_not_isProduct hr.isProduct_eq]
    refine ⟨List.forall_mem_append.2 ⟨ih.1, List.forall_mem_singleton.2 hr⟩, ?_⟩
    simp [Expr.isLeftNested, ih.2, hr.isProduct_eq]

theorem CanonicalFactor.readable {l : Expr} (h : CanonicalFactor ctx l) : Readable l := by
  rintro x rfl
  cases h with
  | number hfin hzero => exact ⟨hfin, hzero⟩

/-- A text of a factor with a star before it. -/
def starredPart : Expr → List Char
  | .var n => '*' :: n.toList
  | .index t => '*' :: t.toList
  | _ => ['*']

theorem toList_paren (t : String) : ("(" ++ t ++ ")").toList = '(' :: t.toList ++ [')'] := by
  simp

theorem collapse_tidy {cs : List Char} (h : collapseBlanks cs = cs) : Tidy cs :=
  h ▸ tidy_collapseBlanks cs

theorem CanonicalFactor.tidy {l : Expr} (h : CanonicalFactor ctx l) : Tidy (starredPart l) := by
  have hsign : Tidy ['*'] := tidy_of_not_isBlank (by simp; rfl)
  have hstar {cs : List Char} (hcs : Tidy cs) : Tidy ('*' :: cs) :=
    hsign.append hcs (.inl (by simp; rfl))
  cases h with
  | number => exact hsign
  | name hn => exact hstar (tidy_of_not_isJoint fun c hc => isJoint_of_isWord (isWord_of_isIdentifier hn c hc))
  | index hi => exact hstar (collapse_tidy hi.normal)
  | runtime hr =>
    rw [starredPart, toList_paren]
    exact hstar (collapse_tidy hr.normal).paren

/-- A factor is a leaf of every text that has its text as a part. -/
theorem CanonicalFactor.leaf {l : Expr} {whole : List Char} (h : CanonicalFactor ctx l)
    (hpart : starredPart l <:+: whole) : Leaf ctx whole l := by
  cases h with
  | number => exact .number _
  | @name n hn hindex =>
    by_cases hv : n ∈ ctx.runtimeVars
    · exact .runtime hv
    · exact .name hn hv hindex
  | @index t hi =>
    have hleaf : Leaf ctx whole (.index (String.ofList t.toList)) :=
      .index { hi with part := (List.suffix_cons '*' t.toList).isInfix.trans hpart }
    rwa [String.ofList_toList] at hleaf
  | @runtime t hr =>
    rw [starredPart, toList_paren] at hpart
    have hinner : t.toList <:+: '*' :: ('(' :: t.toList ++ [')']) := ⟨['*', '('], [')'], by simp⟩
    have hleaf : Leaf ctx whole (.var (String.ofList ('(' :: t.toList ++ [')']))) :=
      .verbatim { hr with part := hinner.trans hpart }
    rwa [ofList_paren, String.ofList_toList] at hleaf

/-! ## A text of which all factors are cut -/

/-- Some factors, one after another. -/
def starredParts (ls : List Expr) : List Char :=
  ls.flatMap starredPart

theorem tidy_starredParts {ls : List Expr} (h : ∀ l ∈ ls, CanonicalFactor ctx l) :
    Tidy (starredParts ls) := by
  induction ls with
  | nil => exact ⟨.nil, nofun⟩
  | cons l ls ih =>
    rw [List.forall_mem_cons] at h
    refine h.1.tidy.append (ih h.2) (.inr ?_)
    -- Each part starts with its star.
    cases ls with
    | nil => simp
    | cons m ls =>
      obtain ⟨rest, hrest⟩ : ∃ rest, starredPart m = '*' :: rest := by
        unfold starredPart
        split <;> exact ⟨_, rfl⟩
      rw [List.map_cons, List.flatten_cons, hrest]
      rintro c ⟨⟩
      rfl

theorem infix_starredParts {ls : List Expr} {l : Expr} (h : l ∈ ls) :
    starredPart l <:+: starredParts ls := by
  obtain ⟨before, after, rfl⟩ := List.append_of_mem h
  exact ⟨starredParts before, starredParts after, by simp [starredParts]⟩

/-! ## Rules -/

/-- A canonical call is one that is read in a text, and its shifts are written in digits. -/
theorem CanonicalCall.isCall (hne : ctx.indices ≠ []) {c : Call} (h : CanonicalCall ctx c) :
    IsCall ctx c ∧ ∀ w ∈ c.shifts, w.Written :=
  ⟨⟨⟨fun t ht => (h.target t ht).1, h.length, h.grid⟩, fun t ht => (h.target t ht).2, hne⟩,
    fun w hw => ⟨h.signed w hw, isNatural_intText (onGrid_magnitude (h.grid w hw)) (h.small w hw)⟩⟩

theorem CanonicalTerm.isTerm (hne : ctx.indices ≠ []) {t : Term Expr} (h : CanonicalTerm ctx t)
    {whole : List Char} (hwhole : starredParts t.coeff.factors <:+: whole) :
    IsTerm ctx whole t ∧ Spellable t := by
  obtain ⟨c, hc, hcall⟩ := h.call
  obtain ⟨hcall, hwritten⟩ := hcall.isCall hne
  have hfactors := (factors_of_productOf h.coeff).1
  refine ⟨⟨⟨c, hc, hcall⟩, fun l hl => (hfactors l hl).leaf ((infix_starredParts hl).trans hwhole)⟩,
    fun l hl => (hfactors l hl).readable, fun c' hc' => ?_⟩
  cases hc.symm.trans hc'
  exact hwritten

/-- A canonical sum is read back from its text. -/
theorem parseBody_canonical (hctx : ctx.WellNamed) (hne : ctx.indices ≠ []) {ts : List (Term Expr)}
    (hts : ts ≠ []) (h : ∀ t ∈ ts, CanonicalTerm ctx t) :
    ∃ body, printExpr ctx.names (.sum ts) = .ok body ∧ parseBody ctx body = .ok (.sum ts) := by
  have hwhole : Tidy (starredParts (ts.flatMap fun t => t.coeff.factors)) := by
    have hfactors : ∀ l ∈ ts.flatMap fun t => t.coeff.factors, CanonicalFactor ctx l := by
      intro l hl
      obtain ⟨t, ht, hl⟩ := List.mem_flatMap.1 hl
      exact (factors_of_productOf (h t ht).coeff).1 l hl
    exact tidy_starredParts hfactors
  have hterms : ∀ t ∈ ts,
      IsTerm ctx (starredParts (ts.flatMap fun t => t.coeff.factors)) t ∧ Spellable t := by
    intro t ht
    refine (h t ht).isTerm hne ?_
    obtain ⟨before, after, rfl⟩ := List.append_of_mem ht
    exact ⟨starredParts (before.flatMap fun t => t.coeff.factors),
      starredParts (after.flatMap fun t => t.coeff.factors), by simp [starredParts]⟩
  obtain ⟨body, hprint, hparse⟩ := parseBody_printExpr hctx hwhole hts hterms
  refine ⟨body, hprint, ?_⟩
  rw [hparse, Expr.regroup_eq_self_iff.2]
  rw [Expr.isGrouped, List.all_eq_true]
  exact fun t ht => (factors_of_productOf (h t ht).coeff).2

/-- A canonical scale is read back from its text. -/
theorem parseScaleChars_canonical (hctx : ctx.WellNamed) {scale : Expr}
    (h : scale.ProductOf (CanonicalFactor ctx)) (division : Bool) :
    ∃ text, printExpr ctx.names scale = .ok text ∧
      parseScaleChars ctx (if division then "1/" ++ text else text).toList = .ok (scale, division) := by
  obtain ⟨hfactors, hnested⟩ := factors_of_productOf h
  have hleaves : ∀ l ∈ scale.factors, Leaf ctx (starredParts scale.factors) l := fun l hl =>
    (hfactors l hl).leaf (infix_starredParts hl)
  have hparse := parseScaleChars_printed hctx hleaves (fun l hl => (hfactors l hl).readable) division
  rw [Expr.leftNested_eq_self_iff.2 hnested] at hparse
  refine ⟨_, printExpr_product hleaves, ?_⟩
  rw [← hparse]
  cases division <;> simp

/-- **Parsing undoes printing on canonical rules**: in a context with an index and with names that can be
told apart, a canonical rule has a text and is read back from it as it was. -/
theorem parse_print_canonical (hctx : ctx.WellNamed) (hne : ctx.indices ≠ []) {e : Expr}
    (h : CanonicalRule ctx e) :
    ∃ p, printRule ctx.names e = .ok p ∧ parseRule ctx p.body p.scale = .ok e := by
  cases h with
  | sum hts h =>
    obtain ⟨body, hprint, hparse⟩ := parseBody_canonical hctx hne hts h
    refine ⟨⟨body, none⟩, ?_, ?_⟩
    · rw [printRule, hprint]
      · rfl
      · simp
    · rw [parseRule, hparse]
      rfl
  | @scaled ts scale division hts h hscale =>
    obtain ⟨body, hprint, hparse⟩ := parseBody_canonical hctx hne hts h
    obtain ⟨text, htext, hread⟩ := parseScaleChars_canonical hctx hscale division
    refine ⟨⟨body, some (if division then "1/" ++ text else text)⟩, ?_, ?_⟩
    · rw [printRule, htext, hprint]
      rfl
    · rw [parseRule, hparse]
      simp only [hread]
      rfl

/-! ## A canonical rule, and a name with two meanings -/

/-- One over `x` times a term with index arithmetic and runtime arithmetic. -/
def canonicalSample : Expr :=
  .scaled (.sum [⟨.binop .mul (.index "2*n - 1") (.var ("(" ++ "x + y" ++ ")")), .call ⟨[⟨true, 1⟩], none⟩⟩])
    (.var "x") true

theorem canonicalRule_sample : CanonicalRule sampleContext canonicalSample := by
  have hindex : IndexText sampleContext "2*n - 1".toList :=
    ⟨⟨by decide, by decide, by decide, by decide, by decide +kernel⟩, by decide +kernel⟩
  have hruntime : RuntimeText sampleContext "x + y".toList :=
    ⟨⟨by decide, by decide, by decide, by decide, by decide +kernel⟩, by decide, by decide, by decide +kernel,
      by decide +kernel, by decide, by decide⟩
  refine .scaled (List.cons_ne_nil _ _) (List.forall_mem_singleton.2 ⟨?_, _, rfl, ?_⟩)
    (.factor (.name (by decide) (by decide)))
  · exact .mul (.factor (.index hindex)) (.runtime hruntime)
  · exact ⟨rfl, List.forall_mem_singleton.2 rfl, by decide, by decide, nofun⟩

/-- The sample is read back from its text. -/
theorem parse_print_canonical_sample : ∃ p, printRule sampleContext.names canonicalSample = .ok p ∧
    parseRule sampleContext p.body p.scale = .ok canonicalSample :=
  parse_print_canonical wellNamed_sampleContext (by decide) canonicalRule_sample

/-- A context in which `n` is both an index and a runtime variable. -/
def clashingContext : Context where
  name := "Seq"
  indices := ["n"]
  runtimeVars := ["n"]
  selfName := "E"

/-- **The names have to be told apart**: where `n` is both an index and a runtime variable, the index
arithmetic `n` in `n * E[n-1]` is read back as the variable. -/
theorem canonical_needs_distinct : ¬ ∀ (ctx : Context) (e : Expr), isIdentifier ctx.selfName →
    (∀ i ∈ ctx.indices, isIdentifier i) → (∀ v ∈ ctx.runtimeVars, isIdentifier v) → CanonicalRule ctx e →
    ∃ p, printRule ctx.names e = .ok p ∧ parseRule ctx p.body p.scale = .ok e := by
  intro hall
  have hindex : IndexText clashingContext "n".toList :=
    ⟨⟨by decide, by decide, by decide, by decide, by decide +kernel⟩, by decide +kernel⟩
  have hcanonical : CanonicalRule clashingContext (.sum [⟨.index "n", .call ⟨[⟨true, 1⟩], none⟩⟩]) :=
    .sum (List.cons_ne_nil _ _) (List.forall_mem_singleton.2 ⟨.factor (.index hindex), _,
      rfl, rfl, List.forall_mem_singleton.2 rfl, by decide, by decide, nofun⟩)
  obtain ⟨p, hprint, hparse⟩ := hall clashingContext _ (by decide) (by decide) (by decide) hcanonical
  have hrun : (do
      let p ← printRule clashingContext.names (.sum [⟨.index "n", .call ⟨[⟨true, 1⟩], none⟩⟩])
      let e ← parseRule clashingContext p.body p.scale
      return e.leaves.any fun l => l matches .var _ : Except Error Bool) = .ok true :=
    toOption_eq_some_iff.1 (by decide +kernel)
  rw [hprint] at hrun
  change (parseRule clashingContext p.body p.scale >>= _) = _ at hrun
  rw [hparse] at hrun
  cases hrun

end RuleText

end RecurrenceCompiler
