import RecurrenceCompiler.Proofs.Recurrence.Built
import RecurrenceCompiler.Proofs.RuleText.Sentences

/-!
# What the builder accepts

The builder checks that the texts it keeps consist of tokens, and of the sides of a constraint and the
index of a table entry not even that. So a recurrence that is built without a warning can hold a text
that fails as soon as it is evaluated (`malformed_accepted`).

Beyond that the builder neither repairs nor breaks anything: each step keeps sentences of arithmetic
exactly if it was given sentences (`Performs.keeps`), and so does a whole definition
(`stored_sentences_iff`).
-/

namespace RecurrenceCompiler

open Text Decimal Arith RuleText

/-! ## Texts that are given and texts that are kept -/

/-- The two sides of each constraint. -/
def Guard.sides (g : Guard) : List String :=
  g.constraints.flatMap fun c => [c.left, c.right]

/-- The arithmetic texts that a recurrence stores. -/
def Recurrence.texts (r : Recurrence) : List String :=
  r.validity.sides ++ r.bases.flatMap (·.value.texts) ++
    r.rules.flatMap fun rule => rule.guard.sides ++ rule.expr.texts

/-- The sides of the constraints that texts spell. -/
def guardTexts (texts : List String) : List (List Char) :=
  match Guard.parse texts with
  | .ok g => g.sides.map String.toList
  | .error _ => []

/-- The arithmetic texts that a step gives. -/
def Step.texts (ctx : RuleText.Context) : Step → List (List Char)
  | .validity texts => guardTexts texts
  | .base _ value => valueTexts ctx value
  | .rule guard body scale _ =>
    guardTexts [guard] ++ (bodyTexts body ++ (scale.map fun s => scaleText s.toList).toList)
  | .average guard branches _ => guardTexts [guard] ++ branches.flatMap bodyTexts

/-- Whether the sides of all constraints are sentences. -/
def Guard.Sentences (g : Guard) : Prop :=
  ∀ t ∈ g.sides, IsSentence t.toList

/-- Whether all texts that a recurrence stores are sentences. -/
def Recurrence.Sentences (r : Recurrence) : Prop :=
  ∀ t ∈ r.texts, IsSentence t.toList

/-- What is kept is right exactly if what is given is: sentences, or balanced texts of which only
sentences are kept. -/
def Keeps (given : List (List Char)) (kept : Prop) : Prop :=
  (∀ t ∈ given, IsSentence t) ↔ (∀ t ∈ given, balanced t) ∧ kept

theorem Keeps.append {as bs : List (List Char)} {p q : Prop} (ha : Keeps as p) (hb : Keeps bs q) :
    Keeps (as ++ bs) (p ∧ q) := by
  simp only [Keeps, List.forall_mem_append] at ha hb ⊢
  rw [ha, hb, and_and_and_comm]

/-- A sentence is balanced, so nothing more is to be said where the brackets were checked. -/
theorem keeps_of_iff {given : List (List Char)} {kept : Prop}
    (h : (∀ t ∈ given, IsSentence t) ↔ kept) : Keeps given kept :=
  ⟨fun hs => ⟨fun t ht => balanced_of_isSentence (hs t ht), h.1 hs⟩, fun hs => h.2 hs.2⟩

theorem keeps_nil : Keeps [] True :=
  keeps_of_iff (by simp)

namespace RuleText

variable {ctx : Context}

theorem keeps_bodyTexts (hvars : ∀ v ∈ ctx.runtimeVars, isIdentifier v) {text : String} {e : Expr}
    (h : parseBody ctx text = .ok e) : Keeps (bodyTexts text) e.Sentences :=
  keeps_of_iff (sentences_parseBody hvars h).symm

theorem keeps_branches (hvars : ∀ v ∈ ctx.runtimeVars, isIdentifier v) {branches : List String}
    {es : List Expr} (h : List.Forall₂ (fun b e => parseBody ctx b = .ok e) branches es) :
    Keeps (branches.flatMap bodyTexts) (∀ e ∈ es, e.Sentences) := by
  induction h with
  | nil => exact keeps_of_iff (by simp)
  | cons hb _ ih =>
    rw [List.flatMap_cons, List.forall_mem_cons]
    exact (keeps_bodyTexts hvars hb).append ih

theorem keeps_rule (hvars : ∀ v ∈ ctx.runtimeVars, isIdentifier v) {text : String}
    {scale : Option String} {e : Expr} (h : parseRule ctx text scale = .ok e) :
    Keeps (bodyTexts text ++ (scale.map fun s => scaleText s.toList).toList) e.Sentences := by
  obtain ⟨body, hbody, h⟩ := bind_ok h
  have hbody := keeps_bodyTexts hvars hbody
  cases scale with
  | none =>
    cases h
    rw [Option.map_none, Option.toList_none, List.append_nil]
    exact hbody
  | some s =>
    obtain ⟨⟨factor, division⟩, hscale, h⟩ := bind_ok h
    cases h
    have hfactor : Keeps [scaleText s.toList] factor.Sentences := by
      rw [Keeps, List.forall_mem_singleton, List.forall_mem_singleton]
      exact isSentence_iff_of_parseCoeff hvars (parseScaleChars_eq_ok hscale)
    have hboth := hbody.append hfactor
    rwa [← Expr.sentences_scaled] at hboth

end RuleText

theorem Guard.sentences_and {g h : Guard} : (g.and h).Sentences ↔ g.Sentences ∧ h.Sentences := by
  simp only [Guard.Sentences, Guard.sides, Guard.and, List.flatMap_append, List.forall_mem_append]

namespace Recurrence

variable {r r' : Recurrence}

/-- The sides of constraints are kept as they are. -/
theorem keeps_guardTexts {texts : List String} {g : Guard} (h : r.readGuard texts = .ok g) :
    Keeps (guardTexts texts) g.Sentences := by
  obtain ⟨g', hg', h⟩ := bind_ok h
  obtain ⟨⟨⟩, -, h⟩ := bind_ok h
  cases h
  refine keeps_of_iff ?_
  simp only [guardTexts, hg', List.forall_mem_map]
  rfl

/-! ## Steps and definitions -/

theorem sentences_iff : r.Sentences ↔ r.validity.Sentences ∧ (∀ b ∈ r.bases, b.value.Sentences) ∧
    ∀ rule ∈ r.rules, rule.guard.Sentences ∧ rule.expr.Sentences := by
  simp only [Sentences, texts, List.forall_mem_append, List.forall_mem_flatMap, and_assoc]
  rfl

/-- One more rule. -/
theorem sentences_withRule {g : Guard} {e : Expr} {name : Option String} {ds : List Diagnostic} :
    (r.withRule g e name ds).Sentences ↔ r.Sentences ∧ g.Sentences ∧ e.Sentences := by
  rw [sentences_iff, sentences_iff, withRule]
  simp only [List.forall_mem_append, List.forall_mem_singleton, and_assoc]

/-- **What a step keeps are sentences exactly if what it is given are.** -/
theorem Performs.keeps {s : Step} (h : r.Performs s r')
    (hvars : ∀ v ∈ r.runtimeVars, isIdentifier v) :
    ∃ new, Keeps (s.texts (r.context none)) new ∧ (r'.Sentences ↔ r.Sentences ∧ new) := by
  cases h with
  | @validity texts g hg =>
    refine ⟨g.Sentences, keeps_guardTexts hg, ?_⟩
    rw [sentences_iff, sentences_iff]
    simp only [Guard.sentences_and]
    tauto
  | @base bound value slots e _ _ he =>
    refine ⟨e.Sentences, @sentences_parseValue (r.context none) hvars value e he, ?_⟩
    rw [sentences_iff, sentences_iff]
    simp only [List.forall_mem_append, List.forall_mem_singleton]
    tauto
  | @rule guard body scale name g e hg he =>
    exact ⟨_, (keeps_guardTexts hg).append (@keeps_rule r.nextContext hvars body scale e he),
      sentences_withRule⟩
  | @average guard branches name g es _ hg hes =>
    refine ⟨_, (keeps_guardTexts hg).append (@keeps_branches r.nextContext hvars branches es hes), ?_⟩
    rw [sentences_withRule, Expr.sentences_average]
    simp

/-- What a definition keeps are sentences exactly if what its steps are given are. -/
theorem build_keeps {steps : List Step} (hvars : ∀ v ∈ r.runtimeVars, isIdentifier v)
    (h : r.build steps = .ok r') : ∃ new,
    Keeps (steps.flatMap (Step.texts (r.context none))) new ∧ (r'.Sentences ↔ r.Sentences ∧ new) := by
  induction steps generalizing r with
  | nil =>
    cases h
    exact ⟨True, keeps_nil, by simp⟩
  | cons s steps ih =>
    rw [Recurrence.build] at h
    split at h
    · next next hrun =>
      have hstep := performs_of_run hrun
      obtain ⟨p, hp, hnext⟩ := hstep.keeps hvars
      have hheader := hstep.toHeader
      obtain ⟨q, hq, hlast⟩ := ih (by rwa [hheader]) h
      rw [hheader] at hq
      exact ⟨p ∧ q, hp.append hq, by rw [hlast, hnext, and_assoc]⟩
    · cases h

/-- **What a definition stores are sentences of arithmetic exactly if what its steps give are.** Then
no text of it is ever malformed when it is evaluated, whatever the names stand for. The other way round
the brackets of the texts must close in order, since `x)+(y` is kept as `(x)+(y)`. -/
theorem stored_sentences_iff {name : String} {indices vars : List String} {options : RecurrenceOptions}
    {r₀ r : Recurrence} {steps : List Step} (hcreate : create name indices vars options = .ok r₀)
    (hbuild : r₀.build steps = .ok r) :
    ((∀ t ∈ steps.flatMap (Step.texts (r₀.context none)), IsSentence t) ↔
      (∀ t ∈ steps.flatMap (Step.texts (r₀.context none)), balanced t) ∧
        ∀ t ∈ r.texts, IsSentence t.toList) ∧
    ∀ t ∈ r.texts, IsSentence t.toList → ∀ (α : Type) [Carrier α] (env : Env α) (e : Error),
      eval env t = .error e → ∃ what, e = .evaluation what := by
  obtain ⟨new, hkeeps, hiff⟩ := build_keeps (wellFormed_create hcreate).runtime hbuild
  have hempty : r₀.Sentences := by
    have hr := created_of_create hcreate
    rw [sentences_iff, hr.validity, hr.bases, hr.rules]
    simp [Guard.Sentences, Guard.sides]
  refine ⟨?_, fun t _ ht α _ env e he => ht.eval_error he⟩
  have hstored : r.Sentences ↔ new := hiff.trans (and_iff_right hempty)
  rw [Keeps, ← hstored] at hkeeps
  exact hkeeps

/-- A definition with a table, a rule of two terms and a scale. -/
def tabled : List Step :=
  [.validity ["m >= 0", "m <= n"], .base [("n", 0.0)] (.raw "t[m+1]"),
    .rule "n > 0" "(2*n-1)*x*E[n-1,m] - (x+1)*E[n-1,m-1]" (some "1/n") none]

/-- Products are kept as their factors, and the factors are sentences exactly if the products are. -/
theorem stored_sentences_iff_tabled : ∃ r₀ r,
    create "Tri" ["n", "m"] ["x", "t"] { arrayVars := ["t"] } = .ok r₀ ∧ r₀.build tabled = .ok r ∧
    (tabled.flatMap (Step.texts (r₀.context none))).map String.ofList =
      ["m", "0", "m", "n", "m+1", "n", "0", "(2*n-1)*x", "(x+1)", "n"] ∧
    r.texts = ["m", "0", "m", "n", "m+1", "n", "0", "2*n-1", "x", "(x+1)", "n"] ∧
    ((∀ t ∈ tabled.flatMap (Step.texts (r₀.context none)), IsSentence t) ↔
      (∀ t ∈ tabled.flatMap (Step.texts (r₀.context none)), balanced t) ∧
        ∀ t ∈ r.texts, IsSentence t.toList) ∧
    ∀ t ∈ r.texts, IsSentence t.toList → ∀ (α : Type) [Carrier α] (env : Env α) (e : Error),
      eval env t = .error e → ∃ what, e = .evaluation what := by
  have hcheck : ((create "Tri" ["n", "m"] ["x", "t"] { arrayVars := ["t"] }).toOption.any fun r₀ =>
      ((tabled.flatMap (Step.texts (r₀.context none))).map String.ofList ==
        ["m", "0", "m", "n", "m+1", "n", "0", "(2*n-1)*x", "(x+1)", "n"]) &&
      (r₀.build tabled).toOption.any fun r =>
        r.texts == ["m", "0", "m", "n", "m+1", "n", "0", "2*n-1", "x", "(x+1)", "n"]) = true := by
    decide +kernel
  obtain ⟨r₀, hcreate, hcheck⟩ := exists_ok_of_any hcheck
  obtain ⟨hgiven, hcheck⟩ := Bool.and_eq_true_iff.1 hcheck
  obtain ⟨r, hbuild, htexts⟩ := exists_ok_of_any hcheck
  exact ⟨r₀, r, hcreate, hbuild, beq_iff_eq.1 hgiven, beq_iff_eq.1 htexts,
    stored_sentences_iff hcreate hbuild⟩

/-- A rule whose coefficient is two names. -/
def malformed : Step :=
  .rule "n > 0" "(x y)*E[n-1]" none none

/-- **Two names without an operator between them are accepted**, without a warning, and kept as a text
that is malformed where all names have values. -/
theorem malformed_accepted : ∃ r₀ r, create "Seq" ["n"] ["x", "y"] {} = .ok r₀ ∧
    r₀.build [malformed] = .ok r ∧ r.diagnostics.length = 0 ∧ "(x y)" ∈ r.texts ∧
    eval (fun _ => some (1 : ℚ)) "(x y)" = .error (invalid "(x y)") := by
  have hcheck : ((create "Seq" ["n"] ["x", "y"] {}).toOption.any fun r₀ =>
      (r₀.build [malformed]).toOption.any fun r =>
        r.diagnostics.length == 0 && r.texts.contains "(x y)") = true := by
    decide +kernel
  obtain ⟨r₀, hcreate, hcheck⟩ := exists_ok_of_any hcheck
  obtain ⟨r, hbuild, hcheck⟩ := exists_ok_of_any hcheck
  obtain ⟨hquiet, hkept⟩ := Bool.and_eq_true_iff.1 hcheck
  refine ⟨r₀, r, hcreate, hbuild, beq_iff_eq.1 hquiet, List.contains_iff_mem.1 hkept, ?_⟩
  with_unfolding_all rfl

end Recurrence

end RecurrenceCompiler
