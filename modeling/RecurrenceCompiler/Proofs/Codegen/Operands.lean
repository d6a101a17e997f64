import RecurrenceCompiler.Proofs.Codegen.Formula
import RecurrenceCompiler.Proofs.Recurrence.Shape
import RecurrenceCompiler.Proofs.Recurrence.Sharing

/-!
# The operands of rules

The leaves of a rule are calls and what the parser cuts out of balanced texts (`Recurrence.leaf_of_step`).
In both dialects what is cut out is rendered as an operand: numbers, names, and texts in parentheses or
behind the vector type (`Dialect.isOperand_leaf`). Rules have no empty sums and no terms for factors, so
they are rendered without regrouping (`Expr.regular_of_isRuleShaped`).
-/

namespace RecurrenceCompiler

open Text Decimal Arith Script

/-! ## Leaves in the dialects -/

namespace Dialect

variable {d : Dialect}

/-- The vector type of C++ output may stand before arguments. -/
def CallsVecType (d : Dialect) : Prop :=
  d.target = .cpp → Formula.isPostfix d.vecType.toList

/-- A number without a sign is an operand. -/
theorem isOperand_spells {cs : List Char} {x : Float} (h : Spells cs x) (hsign : showsSign x = false) :
    Formula.isOperand cs := by
  rw [Spells] at h
  rw [showsSign] at hsign
  cases hr : Reading.ofFloat x with
  | nan =>
    rw [hr] at h
    rw [h]
    decide
  | zero =>
    rw [hr] at h
    rw [h]
    decide
  | infinite negative =>
    rw [hr] at h hsign
    obtain rfl : negative = false := hsign
    rw [h]
    decide
  | finite negative b =>
    rw [hr] at h hsign
    obtain rfl : negative = false := hsign
    obtain ⟨l, hl, -, htext⟩ := h
    rw [show cs = l.chars from htext, Formula.isOperand, Literal.ofChars?_chars hl, Option.isSome_some,
      Bool.or_true]

/-- **A constant is rendered as an operand.** -/
theorem isOperand_number (hd : d.CallsVecType) (x : Float) : Formula.isOperand (d.number x).toList := by
  have hbal := (Expr.legible_numberText x).balanced
  cases htarget : d.target with
  | cpp =>
    have hcpp : RuleText.balanced (cppNumber x).toList := by
      rw [cppNumber]
      split
      · rw [String.toList_append, RuleText.balanced_append hbal]
        decide
      · exact hbal
    have htext : (d.number x).toList = d.vecType.toList ++ ('(' :: (cppNumber x).toList ++ [')']) := by
      simp [number, htarget]
    rw [htext]
    exact Formula.isOperand_call (hd htarget) hcpp
  | js =>
    simp only [number, htarget]
    split
    · have htext : ("(" ++ numberText x ++ ")").toList = '(' :: (numberText x).toList ++ [')'] := by simp
      rw [htext]
      exact Formula.isOperand_paren hbal
    · next hcond =>
      refine isOperand_spells (x := x) ?_ ?_
      · rw [numberText, String.toList_ofList]
        exact spells_numberChars x
      · cases hsign : showsSign x with
        | false => rfl
        | true => simp [lt_zero_of_showsSign hsign] at hcond

/-- **Lifted index arithmetic is an operand.** -/
theorem isOperand_indexValue (hd : d.CallsVecType) {text : String} (h : RuleText.balanced text.toList) :
    Formula.isOperand (d.indexValue text).toList := by
  cases htarget : d.target with
  | cpp =>
    have htext : (d.indexValue text).toList = d.vecType.toList ++ ('(' :: text.toList ++ [')']) := by
      simp [indexValue, htarget]
    rw [htext]
    exact Formula.isOperand_call (hd htarget) h
  | js =>
    have htext : (d.indexValue text).toList = '(' :: text.toList ++ [')'] := by simp [indexValue, htarget]
    rw [htext]
    exact Formula.isOperand_paren h

theorem isNameRun_of_isIdentifier {n : String} (h : isIdentifier n) : isNameRun n.toList := by
  rw [isIdentifier] at h
  cases hn : n.toList with
  | nil =>
    rw [hn] at h
    cases h
  | cons c cs =>
    rw [hn] at h
    obtain ⟨hc, hcs⟩ := Bool.and_eq_true_iff.1 h
    refine Bool.and_eq_true_iff.2 ⟨by simp [startsName, hc], List.all_eq_true.2 fun c hc => ?_⟩
    exact continuesName_of_isWord (List.all_eq_true.1 hcs c hc)

/-- **What the parser cuts out is rendered as an operand.** -/
theorem isOperand_leaf (hd : d.CallsVecType) {ctx : RuleText.Context}
    (hvars : ∀ v ∈ ctx.runtimeVars, isIdentifier v) {whole : List Char} {l : Expr}
    (h : RuleText.Leaf ctx whole l) (call : CallText) :
    ∃ text, renderExpr d call l = .ok text ∧ Formula.isOperand text.toList := by
  cases h with
  | number x => exact ⟨_, rfl, isOperand_number hd x⟩
  | runtime hv => exact ⟨_, rfl, Formula.isOperand_name (isNameRun_of_isIdentifier (hvars _ hv))⟩
  | name hn => exact ⟨_, rfl, Formula.isOperand_name (isNameRun_of_isIdentifier hn)⟩
  | verbatim hv =>
    refine ⟨_, rfl, ?_⟩
    rw [String.toList_ofList]
    exact Formula.isOperand_paren hv.balanced
  | index hi =>
    exact ⟨_, rfl, isOperand_indexValue hd (by rw [String.toList_ofList]; exact hi.balanced)⟩

end Dialect

/-! ## Leaves of rules -/

namespace Expr

/-- The leaves of a coefficient are its factors. -/
theorem IsCoefficient.leaves_eq {e : Expr} (h : e.IsCoefficient) : e.leaves = e.factors := by
  induction h with
  | number x => rw [Expr.number, leaves, factors]; simp
  | var => rw [leaves, factors]; simp
  | index => rw [leaves, factors]; simp
  | mul _ _ ihl ihr => rw [leaves, factors, ihl, ihr]

end Expr

namespace RuleText

variable {ctx : Context}

/-- A leaf of a rule is a call or cut out of a text. -/
def IsRuleLeaf (ctx : Context) (l : Expr) : Prop :=
  (∃ c, l = .call c) ∨ ∃ whole, Leaf ctx whole l

theorem isRuleLeaf_coefficient {whole : List Char} {e : Expr} (he : e.IsCoefficient)
    (h : ∀ l ∈ e.factors, Leaf ctx whole l) : ∀ l ∈ e.leaves, IsRuleLeaf ctx l := by
  rw [he.leaves_eq]
  exact fun l hl => .inr ⟨whole, h l hl⟩

/-- The leaves of a rule body. -/
theorem isRuleLeaf_parseBody (hvars : ∀ v ∈ ctx.runtimeVars, isIdentifier v) {text : String} {e : Expr}
    (h : parseBody ctx text = .ok e) : ∀ l ∈ e.leaves, IsRuleLeaf ctx l := by
  obtain ⟨ts, body, rfl, -, -, hts⟩ := isTerm_parseBody h
  obtain ⟨ts', heq, hspelled⟩ := isBody_parseBody hvars h
  obtain rfl := Expr.sum.inj heq
  rw [Expr.leaves_sum, List.forall_mem_flatMap]
  intro t ht
  obtain ⟨⟨c, hfactor, -⟩, hleaves⟩ := hts t ht
  rw [Expr.leaves, List.forall_mem_append, List.forall_mem_singleton, hfactor]
  exact ⟨isRuleLeaf_coefficient (hspelled t ht).1 hleaves, .inl ⟨c, rfl⟩⟩

/-- **The leaves of a rule** whose scale has balanced brackets. -/
theorem isRuleLeaf_parseRule (hvars : ∀ v ∈ ctx.runtimeVars, isIdentifier v) {text : String}
    {scale : Option String} {e : Expr} (hbal : ∀ s, scale = some s → balanced s.toList)
    (h : parseRule ctx text scale = .ok e) : ∀ l ∈ e.leaves, IsRuleLeaf ctx l := by
  obtain ⟨body, hbody, h⟩ := bind_ok h
  have hbody := isRuleLeaf_parseBody hvars hbody
  cases scale with
  | none =>
    cases h
    exact hbody
  | some s =>
    obtain ⟨⟨factor, division⟩, hscale, h⟩ := bind_ok h
    cases h
    have hfactor := leaf_parseCoeff (balanced_scaleText (hbal s rfl)) (parseScaleChars_eq_ok hscale)
    rw [Expr.leaves, List.forall_mem_append]
    exact ⟨hbody, isRuleLeaf_coefficient (isCoefficient_parseScaleChars hvars (hbal s rfl) hscale) hfactor⟩

end RuleText

namespace Recurrence

/-- **The leaves of a rule that the builder adds** are calls and what is cut out of its texts. -/
theorem leaf_of_step {r : Recurrence} (hr : r.Built) {s : Step} (hs : s.ScaleBalanced) {rule : Rule}
    (hrule : (s.run r).1.rules = r.rules ++ [rule]) :
    ∀ l ∈ rule.expr.leaves, RuleText.IsRuleLeaf r.nextContext l := by
  have hvars := hr.wellFormed.runtime
  rcases expr_of_step hrule with ⟨guard, body, scale, name, rfl, he⟩ | ⟨branches, es, x, -, heq, hes⟩
  · refine @RuleText.isRuleLeaf_parseRule r.nextContext hvars body scale _ ?_ he
    rintro t rfl
    exact hs
  · rw [heq, Expr.leaves_average, List.forall_mem_append, List.forall_mem_flatMap]
    refine ⟨fun e he => ?_, List.forall_mem_singleton.2 (.inr ⟨[], .number _⟩)⟩
    obtain ⟨b, -, hb⟩ := exists_of_forall₂ hes he
    exact @RuleText.isRuleLeaf_parseBody r.nextContext hvars b e hb

end Recurrence

/-! ## Rules are rendered without regrouping -/

namespace Expr

theorem regular_of_isArithmetic {e : Expr} (h : e.isArithmetic) : e.Regular := by
  have hterm {e : Expr} (h : e.isArithmetic) : e.isTerm = false := by
    cases e <;> first | rfl | cases h
  induction e using Expr.induction with
  | const | var | index | lookup => exact .leaf rfl
  | binop op l r ihl ihr =>
    rw [isArithmetic, Bool.and_eq_true] at h
    exact .binop (ihl h.1) (ihr h.2) (hterm h.1) (hterm h.2)
  | _ => simp [isArithmetic] at h

theorem regular_of_isSumShaped {rank : Nat} {e : Expr} (h : e.isSumShaped rank) : e.Regular := by
  cases e with
  | sum ts =>
    rw [isSumShaped, Bool.and_eq_true, Bool.not_eq_true', List.isEmpty_eq_false_iff, List.all_eq_true] at h
    refine .sum h.1 fun t ht => regular_of_isArithmetic ?_
    exact (Bool.and_eq_true_iff.1 (h.2 t ht)).1
  | _ => cases h

/-- **No part of a rule is regrouped when it is rendered.** -/
theorem regular_of_isRuleShaped {rank : Nat} {e : Expr} (h : e.isRuleShaped rank) : e.Regular := by
  cases e with
  | scaled inner scale division =>
    rw [isRuleShaped, Bool.and_eq_true] at h
    exact .scaled (regular_of_isSumShaped h.1) (regular_of_isArithmetic h.2)
  | average bs scale =>
    rw [isRuleShaped, Bool.and_eq_true, Bool.and_eq_true, Bool.not_eq_true', List.isEmpty_eq_false_iff,
      List.all_eq_true] at h
    exact .average h.1.1 (fun b hb => regular_of_isSumShaped (h.1.2 b hb)) (regular_of_isArithmetic h.2)
  | sum ts =>
    have h : (Expr.sum ts).isSumShaped rank := h
    exact regular_of_isSumShaped h
  | _ => cases h

end Expr

/-!
## Building from balanced texts

The builder checks the brackets of rule bodies only. Where those of scales and of the values of base cases
close in order too (`Step.Balanced`), whatever is stored is put together from what the parser cuts out of
texts: the rules have the shape of rules (`Balanced.rules`), and the values of base cases are table entries
or products (`Balanced.values`).
-/

/-- The brackets of a step's texts close in order. Those of a rule body are checked when it is read. -/
def Step.Balanced : Step → Prop
  | .rule _ _ (some scale) _ => RuleText.balanced scale.toList
  | .base _ (.raw value) => RuleText.balanced value.toList
  | _ => True

instance : DecidablePred Step.Balanced
  | .rule _ _ (some scale) _ => inferInstanceAs (Decidable (RuleText.balanced scale.toList = true))
  | .rule _ _ none _ => inferInstanceAs (Decidable True)
  | .base _ (.raw value) => inferInstanceAs (Decidable (RuleText.balanced value.toList = true))
  | .base _ (.number _) => inferInstanceAs (Decidable True)
  | .validity _ => inferInstanceAs (Decidable True)
  | .average _ _ _ => inferInstanceAs (Decidable True)

theorem Step.Balanced.scale {s : Step} (h : s.Balanced) : s.ScaleBalanced := by
  cases s with
  | rule guard body scale name => cases scale <;> exact h
  | _ => trivial

namespace RuleText

variable {ctx ctx' : Context}

/-- What is cut out of a text depends on the names of indices and runtime variables only. -/
theorem Leaf.congr {whole : List Char} {l : Expr} (h : Leaf ctx whole l)
    (hindices : ctx'.indices = ctx.indices) (hvars : ctx'.runtimeVars = ctx.runtimeVars) :
    Leaf ctx' whole l := by
  cases h with
  | number x => exact .number x
  | runtime hv => exact .runtime (hvars ▸ hv)
  | name hid hv hi => exact .name hid (hvars ▸ hv) (hindices ▸ hi)
  | verbatim h => exact .verbatim { h with unindexed := hindices ▸ h.unindexed }
  | index h => exact .index { h with indexed := hindices ▸ h.indexed }

theorem IsRuleLeaf.congr {l : Expr} (h : IsRuleLeaf ctx l) (hindices : ctx'.indices = ctx.indices)
    (hvars : ctx'.runtimeVars = ctx.runtimeVars) : IsRuleLeaf ctx' l :=
  h.imp_right (.imp fun _ hleaf => hleaf.congr hindices hvars)

/-- The value of a base case: a table entry, or a product of what is cut out of a text. -/
inductive IsValue (ctx : Context) : Expr → Prop
  | lookup {table i : String} : table ∈ ctx.arrayVars → IsValue ctx (.lookup table i)
  | product {e : Expr} {whole : List Char} : e.IsCoefficient → (∀ l ∈ e.leaves, Leaf ctx whole l) →
      IsValue ctx e

theorem IsValue.congr {e : Expr} (h : IsValue ctx e) (hindices : ctx'.indices = ctx.indices)
    (hvars : ctx'.runtimeVars = ctx.runtimeVars) (harrays : ctx'.arrayVars = ctx.arrayVars) :
    IsValue ctx' e := by
  cases h with
  | lookup h => exact .lookup (harrays ▸ h)
  | product he hl => exact .product he fun l hmem => (hl l hmem).congr hindices hvars

/-- **The value of a base case that is read from a balanced text.** -/
theorem isValue_parseValue (hvars : ∀ v ∈ ctx.runtimeVars, isIdentifier v) {value : Constant} {e : Expr}
    (hbal : ∀ t, value = .raw t → balanced t.toList) (h : parseValue ctx value = .ok e) :
    IsValue ctx e := by
  have hnumber (x : Float) : IsValue ctx (.number x) :=
    .product (.number x) (List.forall_mem_singleton.2 (@Leaf.number ctx [] x))
  cases value with
  | number x =>
    cases h
    exact hnumber x
  | raw t =>
    have hcut : balanced (trim t.toList) := (balanced_trim _).trans (hbal t rfl)
    have hcoeff {e : Expr} (h : parseCoeff ctx (trim t.toList) = .ok e) : IsValue ctx e := by
      have he := isCoefficient_parseCoeff hvars hcut h
      exact .product he (he.leaves_eq ▸ leaf_parseCoeff hcut h)
    rw [parseValue] at h
    split at h
    · cases h
    · split at h
      · cases h
        exact hnumber _
      · split at h
        · next hmem =>
          cases h
          have hv : String.ofList (trim t.toList) ∈ ctx.runtimeVars := by simpa using hmem
          have hleaf : Leaf ctx (trim t.toList) (.var (String.ofList (trim t.toList))) := .runtime hv
          exact .product (.var (legible_of_isIdentifier (hvars _ hv))) (List.forall_mem_singleton.2 hleaf)
        · split at h
          · split at h
            · next hmem =>
              cases h
              exact .lookup (by simpa using hmem)
            · exact hcoeff h
          · exact hcoeff h

end RuleText

/-- The value of a base case is rendered without regrouping. -/
theorem RuleText.IsValue.regular {ctx : RuleText.Context} {e : Expr} (h : RuleText.IsValue ctx e) :
    e.Regular := by
  cases h with
  | lookup => exact .leaf rfl
  | product hcoeff _ => exact Expr.regular_of_isArithmetic hcoeff.isArithmetic

namespace Recurrence

/-- A recurrence that is built from texts whose brackets close in order, failed steps included. -/
inductive Balanced : Recurrence → Prop
  | create {name indices vars options r} : create name indices vars options = .ok r → Balanced r
  | step {r} {s : Step} : Balanced r → s.Balanced → Balanced (s.run r).1

theorem Balanced.built {r : Recurrence} (h : r.Balanced) : r.Built := by
  induction h with
  | create h => exact .create h
  | step _ _ ih => exact .step _ ih

/-- Performing balanced steps until the end builds from balanced texts. -/
theorem Balanced.build {r r' : Recurrence} (h : r.Balanced) {steps : List Step} (hsteps : ∀ s ∈ steps, s.Balanced)
    (hbuild : r.build steps = .ok r') : r'.Balanced := by
  induction steps generalizing r with
  | nil =>
    cases hbuild
    exact h
  | cons s steps ih =>
    rw [List.forall_mem_cons] at hsteps
    rw [Recurrence.build] at hbuild
    split at hbuild
    · next next hrun =>
      have hnext := h.step hsteps.1
      rw [hrun] at hnext
      exact ih hnext hsteps.2 hbuild
    · cases hbuild

/-- A step adds a rule at most. -/
theorem rules_run (r : Recurrence) (s : Step) :
    (s.run r).1.rules = r.rules ∨ ∃ rule, (s.run r).1.rules = r.rules ++ [rule] := by
  rcases r.run_cases s with hstep | ⟨ds, hstep⟩
  · generalize (s.run r).1 = r' at hstep
    cases hstep with
    | validity | base => exact .inl rfl
    | rule | average => exact .inr ⟨_, rfl⟩
  · rw [hstep]
    exact .inl rfl

/-- A step adds a base case at most, whose value it reads. -/
theorem bases_run (r : Recurrence) (s : Step) : (s.run r).1.bases = r.bases ∨
    ∃ bound value slots e, s = .base bound value ∧
      RuleText.parseValue (r.context none) value = .ok e ∧
      (s.run r).1.bases = r.bases ++ [⟨slots, e⟩] := by
  rcases r.run_cases s with hstep | ⟨ds, hstep⟩
  · generalize (s.run r).1 = r' at hstep
    cases hstep with
    | base _ _ he => exact .inr ⟨_, _, _, _, rfl, he, rfl⟩
    | validity | rule | average => exact .inl rfl
  · rw [hstep]
    exact .inl rfl

/-- **The rules of what is built from balanced texts** have the shape of rules. Their leaves are calls and
what is cut out of texts. -/
theorem Balanced.rules {r : Recurrence} (h : r.Balanced) : ∀ rule ∈ r.rules,
    rule.expr.IsRule r.indices.length ∧
      ∀ l ∈ rule.expr.leaves, RuleText.IsRuleLeaf (r.context none) l := by
  induction h with
  | create h => simp [(created_of_create h).rules]
  | @step r s hr hs ih =>
    rw [toHeader_run]
    rcases rules_run r s with hrules | ⟨rule, hrule⟩
    · rw [hrules]
      exact ih
    · rw [hrule, List.forall_mem_append, List.forall_mem_singleton]
      refine ⟨ih, isRule_of_step hr.built hs.scale hrule, fun l hl => ?_⟩
      exact (leaf_of_step hr.built hs.scale hrule l hl).congr rfl rfl

/-- **The values of its base cases** are table entries or products of what is cut out of texts. -/
theorem Balanced.values {r : Recurrence} (h : r.Balanced) : ∀ b ∈ r.bases,
    RuleText.IsValue (r.context none) b.value := by
  induction h with
  | create h => simp [(created_of_create h).bases]
  | @step r s hr hs ih =>
    rw [toHeader_run]
    rcases bases_run r s with hbases | ⟨bound, value, slots, e, rfl, he, hbases⟩
    · rw [hbases]
      exact ih
    · rw [hbases, List.forall_mem_append, List.forall_mem_singleton]
      refine ⟨ih, RuleText.isValue_parseValue hr.built.wellFormed.runtime ?_ he⟩
      rintro t rfl
      exact hs

end Recurrence

end RecurrenceCompiler
