import RecurrenceCompiler.Proofs.Codegen.Machines
import RecurrenceCompiler.Proofs.Codegen.Operands

/-!
# Rule bodies compute their rules

A body is run by reading its declarations in order, each as a formula over the names bound before, and
then its result (`Body.run`). Formulas make a machine (`Body.formulas`), so whatever strategy is chosen,
running the body performs the operations of the rule (`Recurrence.render_computes`).
-/

namespace RecurrenceCompiler

open Text Decimal Arith Script

namespace Body

/-! ## Running statements -/

section
variable {V : Type} (op : BinOp → V → V → V)

/-- Run declarations from top to bottom: each binds its name to the value of its formula. -/
def runStatements : (String → V) → List (Stmt String) → Option (String → V)
  | atom, [] => some atom
  | atom, .comment _ :: ss => runStatements atom ss
  | atom, .value n t :: ss =>
    (Formula.read op atom t).bind fun v => runStatements (Function.update atom n v) ss
  | _, _ :: _ => none

/-- The value of a body, given values of operands: the declarations are run, then the result is read. -/
def run (atom : String → V) (b : Body) : Option V :=
  (runStatements op atom b.statements).bind fun atom => Formula.read op atom b.result

/-- Formulas over names that are bound to values. Declarations bind names. -/
def formulas : BodyMachine op where
  State := String → V
  sum := Formula.SumText op
  product := Formula.ProductText op
  operand := Formula.OperandText op
  ofProduct := by
    rintro _ _ _ ⟨ws, hspaced, hproduct⟩
    exact ⟨ws, hspaced, hproduct.isSum⟩
  ofOperand h := h.product
  paren h := h.paren
  joinSum ho hl hr := (Formula.reading op (· = _)).joinSum ho (by rintro _ rfl; exact hl)
    (by rintro _ rfl; exact hr) _ rfl
  joinProduct ho hl hr := (Formula.reading op (· = _)).joinProduct ho (by rintro _ rfl; exact hl)
    (by rintro _ rfl; exact hr) _ rfl
  Has atom n v := atom n = v
  CanDeclare _ n := isNameRun n.toList
  Declares atom n t atom' := ∃ v, Formula.read op atom t = some v ∧ atom' = Function.update atom n v
  Off names atom other := ∀ n, n ∉ names → other n = atom n
  operand_name hn hv := hv ▸ Formula.operandText_name hn
  exists_declares {atom n t v} _ h := by
    refine ⟨Function.update atom n v, ⟨v, h.read_eq, rfl⟩, fun m hm => ?_, Function.update_self ..⟩
    exact Function.update_of_ne (by simpa using hm) _ _
  off_refl _ _ _ _ := rfl
  off_trans h h' n hn := (h' n hn).trans (h n hn)
  off_mono hsub h n hn := h n fun hmem => hn (hsub hmem)
  has_off hn hoff hv := (hoff _ hn).trans hv
  canDeclare_off _ hn := hn

variable {op}

/-- What the machine runs, is run. -/
theorem runStatements_of_runs {atom atom' : (formulas op).State} {ss : List (Stmt String)}
    (h : (formulas op).Runs atom ss atom') : runStatements op atom ss = some atom' := by
  induction h with
  | nil => rfl
  | comment _ ih => exact ih
  | value hn _ ih =>
    obtain ⟨v, hv, rfl⟩ := hn
    exact (congrArg (Option.bind · _) hv).trans ih

/-- **A body that the machine computes has its value.** -/
theorem run_of_computes {atom : String → V} {b : Body} {v : V} (h : (formulas op).Computes atom b v) :
    b.run op atom = some v := by
  obtain ⟨final, hrun, -, hresult⟩ := h
  rw [run, runStatements_of_runs hrun]
  exact Formula.SumText.read_eq hresult

/-- **An operand that mentions no declared name** stands for what it is read as. -/
theorem operand_of_read {atom : String → V} {names : List String} {text : String} {v : V}
    (hoperand : Formula.isOperand text.toList) (hread : Formula.read op atom text = some v)
    (hnames : ∀ n ∈ names, isNameRun n.toList) (hfree : ∀ n ∈ names, ¬Mentions text.toList n.toList) :
    ((formulas op).reading ((formulas op).Off names atom)).operand text v := by
  intro later hlater
  refine Formula.operandText_of_read hoperand (hread ▸ Formula.readChars_congr fun n hn => ?_)
  refine hlater _ fun hmem => hfree _ hmem ?_
  rw [String.toList_ofList]
  refine hn ?_
  have hrun := hnames _ hmem
  rwa [String.toList_ofList] at hrun

end

end Body

namespace Interpretation

theorem closed_of_isRuleLeaf {V : Type} {I : Interpretation V} {ctx : RuleText.Context} {l : Expr}
    (h : RuleText.IsRuleLeaf ctx l) : I.Closed l := by
  rcases h with ⟨c, rfl⟩ | ⟨whole, h⟩
  · exact ⟨_, fun _ => rfl⟩
  · cases h <;> exact ⟨_, fun _ => rfl⟩

end Interpretation

/-! ## Rules -/

namespace Recurrence

variable {r : Recurrence}

/-- **Every strategy computes the rules that the builder adds.** The body of a rule is rendered. When it
is run, it performs the operations of the rule, whatever they are: terms are added from left to right,
coefficients multiply calls and the scale comes last. Calls must be rendered as operands, and the texts
of the leaves must be read as what the leaves stand for and mention no name that the body declares. -/
theorem render_computes {V : Type} (I : Interpretation V) (atom : String → V) (hr : r.Built) {s : Step}
    (hs : s.ScaleBalanced) {rule : Rule} (hrule : (s.run r).1.rules = r.rules ++ [rule])
    (hz : rule.expr.NoNegativeZero) {d : Dialect} (hd : d.CallsVecType) {call : CallText}
    (hcall : ∀ c ∈ rule.expr.calls, ∃ text, call c = .ok text ∧ Formula.isOperand text.toList)
    (hatom : ∀ l ∈ rule.expr.leaves, ∀ text, renderExpr d call l = .ok text →
      Formula.read I.op atom text = I.value (fun _ => none) l)
    (optimization : Optimization) (threshold : Int) :
    ∃ body, Body.render d call r.indices optimization threshold rule.expr = .ok body ∧
      ((∀ l ∈ rule.expr.leaves, ∀ text, renderExpr d call l = .ok text →
          ∀ n ∈ declared body.statements, ¬Mentions text.toList n.toList) →
        ∃ v, I.value (fun _ => none) rule.expr = some v ∧ body.run I.op atom = some v) := by
  have hregular : rule.expr.Regular := by
    have hrules := (hr.step s).readShaped.rules
    rw [hrule] at hrules
    exact Expr.regular_of_isRuleShaped (hrules rule (by simp))
  have hleaf := leaf_of_step hr hs hrule
  have htexts : ∀ l ∈ rule.expr.leaves, ∃ text, renderExpr d call l = .ok text ∧
      Formula.isOperand text.toList := by
    intro l hl
    rcases hleaf l hl with ⟨c, rfl⟩ | ⟨whole, hcut⟩
    · exact hcall c (List.mem_filterMap.2 ⟨_, hl, rfl⟩)
    · exact Dialect.isOperand_leaf hd hr.wellFormed.runtime hcut call
  obtain ⟨body, hbody⟩ := Body.exists_render hregular
    (fun l hl => (htexts l hl).imp fun _ h => h.1) r.indices optimization threshold
  refine ⟨body, hbody, fun hfree => ?_⟩
  have hrenders := Body.renders_of_render hbody
  obtain ⟨v, hv, hshared⟩ := Interpretation.ofShared_share_of_isRule (I := I)
    (fun i hi => comma_not_mem_of_isIdentifier (hr.wellFormed.identifiers i hi)) hr.wellFormed.distinct
    le_rfl (isRule_of_step hr hs hrule) hz threshold
  have hnames := hrenders.wellNamed.isNameRun
  refine ⟨v, hv, Body.run_of_computes <|
    BodyMachine.computes_of_renders hrenders hregular hnames (fun l hl => ?_) hv hshared⟩
  obtain ⟨text, htext, hoperand⟩ := htexts l hl
  obtain ⟨w, hw⟩ := Interpretation.closed_of_isRuleLeaf (I := I) (hleaf l hl)
  have hread := (hatom l hl text htext).trans (hw _)
  exact ⟨text, w, htext, Body.operand_of_read hoperand hread hnames (hfree l hl text htext), hw⟩

/-- The C++ dialect with the usual vector type. -/
def vectors : Dialect :=
  ⟨.cpp, "Vec8d"⟩

/-- A call with its shifts for arguments. -/
def shiftsText (shifts : List Int) : String :=
  "E(" ++ ", ".intercalate (shifts.map toString) ++ ")"

/-- Calls with their shifts for arguments. -/
def shiftCalls : CallText := fun c =>
  .ok (shiftsText (c.shifts.map Whole.toInt))

/-- The length of a text. -/
def textLength (t : String) : Int :=
  t.length

/-- The lengths of the texts that the parts are rendered as. -/
def textLengths : Interpretation Int :=
  { lengths with
    number x := textLength (vectors.number x)
    index t := textLength (vectors.indexValue t)
    call _ shifts := textLength (shiftsText shifts) }

/-- What is named is declared first, and the value stays. -/
theorem render_computes_repeating : ∃ r rule body, triangle = .ok r ∧ repeating.ScaleBalanced ∧
    (repeating.run r).1.rules = r.rules ++ [rule] ∧ rule.expr.NoNegativeZero ∧ vectors.CallsVecType ∧
    Body.render vectors shiftCalls r.indices .cse 2 rule.expr = .ok body ∧ body.strategy = .cse ∧
    ∃ v, textLengths.value (fun _ => none) rule.expr = some v ∧
      body.run textLengths.op textLength = some v := by
  have hcheck : (triangle.toOption.any fun r => r.rules.isEmpty &&
      (repeating.run r).1.rules.length == 1 && (repeating.run r).1.rules.all fun rule =>
        decide rule.expr.NoNegativeZero &&
        (rule.expr.leaves.all fun l =>
          (renderExpr vectors shiftCalls l).toOption.all fun text => !text.toList.contains '_' &&
            Formula.read textLengths.op textLength text == textLengths.value (fun _ => none) l) &&
        (rule.expr.calls.all fun c =>
          Formula.isOperand (shiftsText (c.shifts.map Whole.toInt)).toList) &&
        (Body.render vectors shiftCalls r.indices .cse 2 rule.expr).toOption.any fun body =>
          body.strategy == .cse && (declared body.statements).all (·.toList.contains '_')) = true := by
    decide +kernel
  obtain ⟨r, hr, hcheck⟩ := exists_ok_of_any hcheck
  simp only [Bool.and_eq_true, beq_iff_eq (α := Nat)] at hcheck
  obtain ⟨⟨hempty, hone⟩, hcheck⟩ := hcheck
  obtain ⟨rule, hrule⟩ := List.length_eq_one_iff.1 hone
  rw [hrule, List.all_cons, List.all_nil, Bool.and_true] at hcheck
  simp only [Bool.and_eq_true, decide_eq_true_eq, List.all_eq_true] at hcheck
  obtain ⟨⟨⟨hz, hleaves⟩, hcalls⟩, hbody⟩ := hcheck
  obtain ⟨body, hbody, hcheck⟩ := exists_ok_of_any hbody
  rw [Bool.and_eq_true, List.all_eq_true] at hcheck
  have hadds : (repeating.run r).1.rules = r.rules ++ [rule] := by
    rw [hrule, List.isEmpty_iff.1 hempty, List.nil_append]
  have hscale : repeating.ScaleBalanced :=
    show RuleText.balanced "1/(2*n+1)".toList = true by decide +kernel
  have htext : ∀ l ∈ rule.expr.leaves, ∀ text, renderExpr vectors shiftCalls l = .ok text →
      '_' ∉ text.toList ∧
        Formula.read textLengths.op textLength text = textLengths.value (fun _ => none) l := by
    intro l hl text htext
    have hleaf := hleaves l hl
    rw [htext] at hleaf
    simpa [Except.toOption] using hleaf
  have hd : vectors.CallsVecType := fun _ => by decide
  obtain ⟨body', hbody', hrun⟩ := render_computes textLengths textLength (.create hr) hscale hadds hz hd
    (fun c hc => ⟨_, rfl, hcalls c hc⟩) (fun l hl text h => (htext l hl text h).2) .cse 2
  obtain rfl := Except.ok.inj (hbody.symm.trans hbody')
  refine ⟨r, rule, body, hr, hscale, hadds, hz, hd, hbody, by simpa using hcheck.1, hrun ?_⟩
  rintro l hl text h n hn ⟨-, before, after, heq, -, -⟩
  refine (htext l hl text h).1 ?_
  have hline : '_' ∈ n.toList := by simpa using hcheck.2 n hn
  rw [heq]
  simp [hline]

end Recurrence

end RecurrenceCompiler
