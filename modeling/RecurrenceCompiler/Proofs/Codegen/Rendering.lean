import RecurrenceCompiler.Codegen.Body
import RecurrenceCompiler.Proofs.Expr.Interpretation
import RecurrenceCompiler.Proofs.Script.Numbers

/-!
# Rendered expressions

A rendered expression stands for what its tree stands for: no operator regroups its operands
(`Expr.exists_rendered`). This holds wherever operators bind as usual, so it is proved for any way of
reading texts (`TextReading`) and any way of giving expressions a meaning (`Expr.Valuation`).

In scripts the text of an expression is that of a script expression with the same tree
(`Expr.exists_script`). It has the value of the expression wherever its leaves have theirs
(`Expr.kept_of_leaves`), so no sum or product is taken in another order.
-/

namespace RecurrenceCompiler

open Text Decimal Script

/-! ## Shapes that are rendered -/

namespace Expr

/-- An expression without parts. -/
def isLeaf : Expr → Bool
  | .const _ | .var _ | .index _ | .lookup _ _ | .ref _ | .call _ => true
  | _ => false

/-- A coefficient times a factor. -/
def isTerm : Expr → Bool
  | .term _ => true
  | _ => false

/-- A sum or a difference. -/
def isAdditive : Expr → Bool
  | .sum _ | .binop .add _ _ | .binop .sub _ _ => true
  | _ => false

/-- An expression without empty sums, whose operations have no terms for operands. -/
inductive Regular : Expr → Prop
  | leaf {e : Expr} : e.isLeaf → Regular e
  | binop {op : BinOp} {l r : Expr} : Regular l → Regular r → l.isTerm = false → r.isTerm = false →
      Regular (.binop op l r)
  | term {t : Term Expr} : Regular t.coeff → Regular (.term t)
  | sum {ts : List (Term Expr)} : ts ≠ [] → (∀ t ∈ ts, Regular t.coeff) → Regular (.sum ts)
  | scaled {inner scale : Expr} {division : Bool} : Regular inner → Regular scale →
      Regular (.scaled inner scale division)
  | average {bs : List Expr} {scale : Expr} : bs ≠ [] → (∀ b ∈ bs, Regular b) → Regular scale →
      Regular (.average bs scale)

end Expr

/-! ## Texts and what they stand for -/

/-- Whether an operation is written in sums. -/
def BinOp.isAdditive : BinOp → Bool
  | .add | .sub => true
  | .mul | .div => false

/-- What texts stand for where a sum, a product or an operand is read. A sum joins products and a product
joins operands, from left to right. Parentheses make an operand of a sum. -/
structure TextReading (X : Type) where
  op : BinOp → X → X → X
  sum : String → X → Prop
  product : String → X → Prop
  operand : String → X → Prop
  ofProduct {t : String} {x : X} : product t x → sum t x
  ofOperand {t : String} {x : X} : operand t x → product t x
  paren {t : String} {x : X} : sum t x → operand ("(" ++ t ++ ")") x
  joinSum {o : BinOp} {l r : String} {x y : X} : o.isAdditive = true → sum l x → product r y →
    sum (l ++ " " ++ o.text ++ " " ++ r) (op o x y)
  joinProduct {o : BinOp} {l r : String} {x y : X} : o.isAdditive = false → product l x → operand r y →
    product (l ++ " " ++ o.text ++ " " ++ r) (op o x y)

namespace TextReading

variable {X : Type} (L : TextReading X)

/-- A product of two texts. -/
theorem mul {l r : String} {x y : X} (hl : L.product l x) (hr : L.operand r y) :
    L.product (l ++ " * " ++ r) (L.op .mul x y) := by
  have hjoin := L.joinProduct (o := .mul) rfl hl hr
  simpa [BinOp.text, String.append_assoc] using hjoin

/-- A multiple or a quotient of two texts in parentheses. -/
theorem scaled {inner scale : String} {x k : X} (hx : L.sum inner x) (hk : L.sum scale k)
    (division : Bool) : L.product
      ("(" ++ inner ++ ") " ++ (if division then "/" else "*") ++ " (" ++ scale ++ ")")
      (L.op (if division then .div else .mul) x k) := by
  have hjoin (o : BinOp) (ho : o.isAdditive = false) :=
    L.joinProduct ho (L.ofOperand (L.paren hx)) (L.paren hk)
  have htext (symbol : String) : "(" ++ inner ++ ") " ++ symbol ++ " (" ++ scale ++ ")" =
      "(" ++ inner ++ ")" ++ " " ++ symbol ++ " " ++ ("(" ++ scale ++ ")") :=
    String.toList_inj.1 (by simp)
  rw [htext]
  cases division with
  | true => exact hjoin .div rfl
  | false => exact hjoin .mul rfl

/-- **Summands separated by plus signs.** -/
theorem sum_intercalate {texts : List String} {x : X} {xs : List X}
    (h : List.Forall₂ L.product texts (x :: xs)) :
    L.sum (" + ".intercalate texts) (xs.foldl (L.op .add) x) := by
  -- The texts before the first plus sign that is left are one summand.
  have hfold : ∀ {texts : List String} {xs : List X} {text : String} {x : X},
      List.Forall₂ L.product texts xs → L.sum text x →
      L.sum (" + ".intercalate (text :: texts)) (xs.foldl (L.op .add) x) := by
    intro texts xs text x h htext
    induction h generalizing text x with
    | nil => simpa using htext
    | @cons text' x' texts xs hx _ ih =>
      have hjoin := L.joinSum (o := .add) rfl htext hx
      have hglue : " + ".intercalate (text :: text' :: texts) =
          " + ".intercalate ((text ++ " " ++ BinOp.add.text ++ " " ++ text') :: texts) := by
        cases texts <;> simp [String.intercalate_cons_cons, BinOp.text, String.append_assoc]
      rw [hglue]
      exact ih hjoin
  cases h with
  | cons hx hxs => exact hfold hxs (L.ofProduct hx)

end TextReading

/-- A meaning of expressions that performs their operations: terms are added from left to right, a
coefficient multiplies what stands behind it, and a scale is applied last. -/
structure Expr.Valuation {X : Type} (op : BinOp → X → X → X) (means : Expr → X → Prop) : Prop where
  binop {o : BinOp} {l r : Expr} {x y : X} : means l x → means r y → means (.binop o l r) (op o x y)
  term {t : Term Expr} {f k : X} : means t.factor.expr f → means t.coeff k →
    means (.term t) (if t.coeff.isUnit then f else op .mul k f)
  sum {ts : List (Term Expr)} {x : X} {xs : List X} :
    List.Forall₂ (fun t x => means (.term t) x) ts (x :: xs) → means (.sum ts) (xs.foldl (op .add) x)
  scaled {inner scale : Expr} {division : Bool} {x k : X} : means inner x → means scale k →
    means (.scaled inner scale division) (op (if division then .div else .mul) x k)
  average {bs : List Expr} {scale : Expr} {x k : X} {xs : List X} :
    List.Forall₂ means bs (x :: xs) → means scale k →
    means (.average bs scale) (op .mul (xs.foldl (op .add) x) k)

/-! ## Texts of expressions -/

namespace Expr

section
variable {d : Dialect} {callText : CallText} {X : Type} {L : TextReading X} {means : Expr → X → Prop}

/-- A text of an expression stands for what the expression means: as a sum, as a product unless the
expression is a sum, and as an operand if it is a leaf. -/
structure Rendered (d : Dialect) (callText : CallText) (L : TextReading X) (means : Expr → X → Prop)
    (e : Expr) (text : String) (x : X) : Prop where
  text_eq : renderExpr d callText e = .ok text
  means : means e x
  sum : L.sum text x
  product : e.isAdditive = false → L.product text x
  operand : e.isLeaf = true → L.operand text x

/-- A leaf is rendered as an operand. -/
def LeafText (d : Dialect) (callText : CallText) (L : TextReading X) (means : Expr → X → Prop)
    (leaf : Expr) : Prop :=
  ∃ text x, renderExpr d callText leaf = .ok text ∧ L.operand text x ∧ means leaf x

/-- An operand is put in parentheses unless it is a leaf. -/
theorem Rendered.parenthesise {e : Expr} {text : String} {x : X}
    (h : e.Rendered d callText L means text x) (hterm : e.isTerm = false) :
    L.operand (parenthesise e.isCompound text) x := by
  cases e with
  | term => cases hterm
  | binop | sum | scaled | average => exact L.paren h.sum
  | _ => exact h.operand rfl

/-- A coefficient is put in parentheses if it is a sum. -/
theorem Rendered.coefficient {e : Expr} {text : String} {x : X}
    (h : e.Rendered d callText L means text x) :
    L.product (RecurrenceCompiler.parenthesise e.isCompoundCoeff text) x := by
  cases e with
  | sum | scaled | average => exact L.ofOperand (L.paren h.sum)
  | binop op l r =>
    cases op with
    | add | sub => exact L.ofOperand (L.paren h.sum)
    | mul | div => exact h.product rfl
  | _ => exact h.product rfl

theorem LeafText.rendered {e : Expr} (h : LeafText d callText L means e) :
    ∃ text x, e.Rendered d callText L means text x := by
  obtain ⟨text, x, htext, hoperand, hx⟩ := h
  have hproduct := L.ofOperand hoperand
  exact ⟨text, x, htext, hx, L.ofProduct hproduct, fun _ => hproduct, fun _ => hoperand⟩

/-- The text of a factor. -/
theorem exists_factorText {f : Factor} (h : LeafText d callText L means f.expr) :
    ∃ text x, renderFactor callText f = .ok text ∧ L.operand text x ∧ means f.expr x := by
  cases f with
  | call c | ref n => exact h

theorem renderTerms_eq (ts : List (Term Expr)) :
    renderTerms d callText ts = ts.mapM fun t => renderExpr d callText (.term t) := by
  induction ts with
  | nil => rfl
  | cons t ts ih =>
    rw [renderTerms, ih, List.mapM_cons, renderExpr]
    simp only [bind_assoc, pure_bind]

theorem renderList_eq (es : List Expr) :
    renderList d callText es = es.mapM (renderExpr d callText) := by
  induction es with
  | nil => rfl
  | cons e es ih =>
    rw [renderList, ih, List.mapM_cons]

/-- The text of a term. -/
theorem exists_termText (hmeans : Valuation L.op means) {t : Term Expr}
    (hcoeff : ∃ text x, t.coeff.Rendered d callText L means text x)
    (hfactor : LeafText d callText L means t.factor.expr) :
    ∃ text x, renderExpr d callText (.term t) = .ok text ∧ L.product text x ∧ means (.term t) x := by
  obtain ⟨k, y, hk⟩ := hcoeff
  obtain ⟨c, x, hc, hctext, hx⟩ := exists_factorText hfactor
  refine ⟨renderProduct t.coeff k c, _, ?_, ?_, hmeans.term hx hk.means⟩
  · rw [renderExpr, hc, hk.text_eq]
    rfl
  · rw [renderProduct]
    split
    · exact L.ofOperand hctext
    · exact L.mul hk.coefficient hctext

/-- Texts of the parts of a list, and what they stand for. -/
theorem exists_parts {β : Type} {render : β → Except Error String} {reads : String → X → Prop}
    {means : β → X → Prop} {bs : List β}
    (h : ∀ b ∈ bs, ∃ text x, render b = .ok text ∧ reads text x ∧ means b x) :
    ∃ texts xs, bs.mapM render = .ok texts ∧ List.Forall₂ reads texts xs ∧
      List.Forall₂ means bs xs := by
  induction bs with
  | nil => exact ⟨[], [], rfl, .nil, .nil⟩
  | cons b bs ih =>
    obtain ⟨text, x, htext, hreads, hx⟩ := h b (by simp)
    obtain ⟨texts, xs, htexts, hrest, hxs⟩ := ih fun c hc => h c (by simp [hc])
    refine ⟨text :: texts, x :: xs, ?_, .cons hreads hrest, .cons hx hxs⟩
    rw [List.mapM_cons, htext, htexts]
    rfl

/-- **A rendered expression stands for what its tree does**, if its leaves are rendered as operands. -/
theorem exists_rendered (hmeans : Valuation L.op means) {e : Expr} (he : e.Regular)
    (hleaves : ∀ l ∈ e.leaves, LeafText d callText L means l) :
    ∃ text x, e.Rendered d callText L means text x := by
  induction he with
  | @leaf e hleaf =>
    refine (hleaves e ?_).rendered
    cases e <;> first | cases hleaf; done | simp [leaves]
  | @binop op l r _ _ hl hr ihl ihr =>
    obtain ⟨lt, x, hlt⟩ := ihl fun l hl => hleaves l (by simp [leaves, hl])
    obtain ⟨rt, y, hrt⟩ := ihr fun l hl => hleaves l (by simp [leaves, hl])
    have hleft := L.ofOperand (hlt.parenthesise hl)
    have hright := hrt.parenthesise hr
    have hproduct (hop : op.isAdditive = false) := L.joinProduct hop hleft hright
    refine ⟨_, _, by rw [renderExpr, hlt.text_eq, hrt.text_eq]; rfl, hmeans.binop hlt.means hrt.means,
      ?_, fun hadd => hproduct (by cases op <;> first | rfl | cases hadd), by rintro ⟨⟩⟩
    cases hop : op.isAdditive with
    | true => exact L.joinSum hop (L.ofProduct hleft) (L.ofOperand hright)
    | false => exact L.ofProduct (hproduct hop)
  | @term t _ ih =>
    obtain ⟨text, x, htext, hproduct, hx⟩ := exists_termText hmeans
      (ih fun l hl => hleaves l (by simp [leaves, hl])) (hleaves _ (by simp [leaves]))
    exact ⟨text, x, htext, hx, L.ofProduct hproduct, fun _ => hproduct, by rintro ⟨⟩⟩
  | @sum ts hne _ ih =>
    obtain ⟨texts, xs, htexts, hparts, hxs⟩ := exists_parts fun t ht =>
      exists_termText hmeans (ih t ht fun l hl => hleaves l (leaves_term_subset ht (by simp [leaves, hl])))
        (hleaves _ (leaves_term_subset ht (by simp [leaves])))
    obtain ⟨t, ts, rfl⟩ := List.exists_cons_of_ne_nil hne
    cases hxs with
    | cons hx hxs =>
      cases hparts with
      | cons hpart hparts =>
        refine ⟨_, _, ?_, hmeans.sum (.cons hx hxs), L.sum_intercalate (.cons hpart hparts),
          by rintro ⟨⟩, by rintro ⟨⟩⟩
        rw [renderExpr, renderTerms_eq, htexts]
        rfl
  | @scaled inner scale division _ _ ihi ihs =>
    obtain ⟨it, x, hit⟩ := ihi fun l hl => hleaves l (by simp [leaves, hl])
    obtain ⟨st, k, hst⟩ := ihs fun l hl => hleaves l (by simp [leaves, hl])
    have hproduct := L.scaled hit.sum hst.sum division
    exact ⟨_, _, by rw [renderExpr, hit.text_eq, hst.text_eq]; rfl, hmeans.scaled hit.means hst.means,
      L.ofProduct hproduct, fun _ => hproduct, by rintro ⟨⟩⟩
  | @average bs scale hne _ _ ihb ihs =>
    obtain ⟨texts, xs, htexts, hparts, hxs⟩ := exists_parts fun b (hb : b ∈ bs) => by
      obtain ⟨text, x, h⟩ := ihb b hb fun l hl => hleaves l (leaves_branch_subset hb hl)
      exact ⟨text, x, h.text_eq, h.sum, h.means⟩
    obtain ⟨st, k, hst⟩ := ihs fun l hl => hleaves l (by simp [leaves, hl])
    have hparts : List.Forall₂ L.product (texts.map (RecurrenceCompiler.parenthesise true)) xs := by
      rw [List.forall₂_map_left_iff]
      exact hparts.imp fun text x h => L.ofOperand (L.paren h)
    obtain ⟨b, bs, rfl⟩ := List.exists_cons_of_ne_nil hne
    cases hxs with
    | cons hx hxs =>
      have hproduct := L.scaled (L.sum_intercalate hparts) hst.sum false
      refine ⟨_, _, ?_, hmeans.average (.cons hx hxs) hst.means, L.ofProduct hproduct,
        fun _ => hproduct, by rintro ⟨⟩⟩
      rw [renderExpr, renderList_eq, htexts, hst.text_eq]
      simp [String.append_assoc]
      rfl

/-- Every text stands for the same. -/
def trivialReading : TextReading Unit where
  op _ _ _ := ()
  sum _ _ := True
  product _ _ := True
  operand _ _ := True
  ofProduct := id
  ofOperand := id
  paren := id
  joinSum _ _ _ := trivial
  joinProduct _ _ _ := trivial

/-- An expression is rendered if its leaves are. -/
theorem exists_text {e : Expr} (he : e.Regular)
    (hleaves : ∀ l ∈ e.leaves, ∃ text, renderExpr d callText l = .ok text) :
    ∃ text, renderExpr d callText e = .ok text := by
  have hmeans : Valuation trivialReading.op fun _ _ => True := by constructor <;> intros <;> trivial
  have hoperands : ∀ l ∈ e.leaves, LeafText d callText trivialReading (fun _ _ => True) l := by
    intro l hl
    obtain ⟨text, htext⟩ := hleaves l hl
    exact ⟨text, (), htext, trivial, trivial⟩
  obtain ⟨text, _, h⟩ := exists_rendered hmeans he hoperands
  exact ⟨text, h.text_eq⟩

end

end Expr

/-! ## The script of an expression -/

/-- The expression that a text is read as. -/
def Script.Expression.ofText (t : String) : Expression :=
  (Expression.parse? t).getD .undefined

/-- A sum from left to right. The empty sum is zero. -/
def Script.Expression.sumOf : List Expression → Expression
  | [] => .num 0.0
  | e :: es => es.foldl (.binary .add) e

/-- A coefficient times a factor. A coefficient that is one is left out. -/
def Script.Expression.scale (unit : Bool) (coeff factor : Expression) : Expression :=
  if unit then factor else .binary .mul coeff factor

namespace Expr

section
variable (call : Call → Expression)

/-- The script of a factor. -/
def factorScript : Factor → Expression
  | .call c => call c
  | .ref n => .name n

mutual

/-- The script of an expression, given those of its calls. -/
def toScript : Expr → Expression
  | .const (.number x) => .ofNumber x
  | .const (.raw t) => .ofText t
  | .var n => .ofText n
  | .index t => .ofText t
  | .lookup t i => .element (.name t) (.ofText i)
  | .ref n => .name n
  | .call c => call c
  | .binop op l r => .binary (.ofBinOp op) (toScript l) (toScript r)
  | .term t => .scale t.coeff.isUnit (toScript t.coeff) (factorScript call t.factor)
  | .sum ts => .sumOf (termScripts ts)
  | .scaled inner scale division =>
    .binary (if division then .div else .mul) (toScript inner) (toScript scale)
  | .average bs scale => .binary .mul (.sumOf (scripts bs)) (toScript scale)

/-- The scripts of terms. -/
def termScripts : List (Term Expr) → List Expression
  | [] => []
  | t :: ts =>
    .scale t.coeff.isUnit (toScript t.coeff) (factorScript call t.factor) :: termScripts ts

/-- The scripts of expressions. -/
def scripts : List Expr → List Expression
  | [] => []
  | e :: es => toScript e :: scripts es

end

variable {call}

theorem termScripts_eq (ts : List (Term Expr)) :
    termScripts call ts = ts.map fun t => toScript call (.term t) := by
  induction ts with
  | nil => rfl
  | cons t ts ih => rw [termScripts, ih, List.map_cons, toScript]

theorem scripts_eq (es : List Expr) : scripts call es = es.map (toScript call) := by
  induction es with
  | nil => rfl
  | cons e es ih => rw [scripts, ih, List.map_cons]

theorem toScript_factor (f : Factor) : f.expr.toScript call = factorScript call f := by
  cases f <;> rfl

end

end Expr

/-! ## Texts of scripts -/

/-- Operators of a level may stand where those of a lower one are read. -/
theorem Script.IsText.lower {level level' : Nat} {text : String} {e : Expression}
    (h : IsText (.binary level) text [e]) (hle : level' ≤ level) : IsText (.binary level') text [e] := by
  obtain ⟨ts, hts, hparse⟩ := h
  refine ⟨ts, hts, ?_⟩
  cases hparse with
  | ofUnary h => exact .ofUnary h
  | join hm hk hl hr => exact .join hm (hle.trans hk) hl hr

/-- The mark of an operation. -/
theorem tokens?_opText (op : BinOp) :
    tokens? op.text.toList = some [.mark (.op (Operator.ofBinOp op))] := by
  cases op <;> rfl

/-- Texts stand for the script expressions that they are read as. -/
def Script.textReading : TextReading Expression where
  op o := .binary (.ofBinOp o)
  sum text e := IsText (.binary 5) text [e]
  product text e := IsText (.binary 6) text [e]
  operand text e := IsText .operand text [e]
  ofProduct h := h.lower (by decide)
  ofOperand h := h.binary 6
  paren h := (h.lower (by decide)).cond.paren
  joinSum {o l r x y} ho hl hr := by
    have hlevel : (Operator.ofBinOp o).level = 5 := by cases o <;> first | rfl | cases ho
    exact IsText.join (m := .op (Operator.ofBinOp o)) rfl (tokens?_opText o) (Nat.le_of_eq hlevel.symm)
      (hlevel ▸ hl) (hlevel ▸ hr)
  joinProduct {o l r x y} ho hl hr := by
    have hlevel : (Operator.ofBinOp o).level = 6 := by cases o <;> first | rfl | cases ho
    exact IsText.join (m := .op (Operator.ofBinOp o)) rfl (tokens?_opText o) (Nat.le_of_eq hlevel.symm)
      (hlevel ▸ hl) (hr.binary _)

namespace Expr

variable {d : Dialect} {callText : CallText} {call : Call → Expression}

theorem toScript_eq_of_forall₂ {β : Type} {script : β → Expression} {xs : List β} {ys : List Expression}
    (h : List.Forall₂ (fun x y => script x = y) xs ys) : ys = xs.map script := by
  induction h with
  | nil => rfl
  | cons hx _ ih => rw [List.map_cons, hx, ih]

/-- The script of an expression performs its operations. -/
theorem valuation_toScript : Valuation textReading.op fun e s => e.toScript call = s where
  binop hx hy := by rw [toScript, hx, hy]; rfl
  term hf hk := by
    rw [toScript, Expression.scale, ← toScript_factor, hf, hk]
    rfl
  sum h := by
    rw [toScript, termScripts_eq, ← toScript_eq_of_forall₂ h]
    rfl
  scaled {_ _ division _ _} hx hk := by
    rw [toScript, hx, hk]
    cases division <;> rfl
  average h hk := by
    rw [toScript, scripts_eq, ← toScript_eq_of_forall₂ h, hk]
    rfl

/-- **A rendered expression is the text of its script**, if its leaves are. -/
theorem exists_script {e : Expr} (he : e.Regular) (hleaves : ∀ l ∈ e.leaves, ∃ text,
    renderExpr d callText l = .ok text ∧ IsText .operand text [l.toScript call]) :
    ∃ text, renderExpr d callText e = .ok text ∧ IsText (.binary 5) text [e.toScript call] := by
  have hoperands : ∀ l ∈ e.leaves, LeafText d callText textReading (fun e s => e.toScript call = s) l := by
    intro l hl
    obtain ⟨text, htext, hoperand⟩ := hleaves l hl
    exact ⟨text, _, htext, hoperand, rfl⟩
  obtain ⟨text, _, h⟩ := exists_rendered valuation_toScript he hoperands
  exact ⟨text, h.text_eq, h.means ▸ h.sum⟩

end Expr

/-! ## Values of expressions -/

namespace Expr

section
variable {α : Type} [Carrier α] {s : Scope α} {callValue : Call → Except Error α}
  {call : Call → Expression} {names : Expression.Names α} {functions : Expression.Functions α}

/-- The script of an expression has every value that the expression has. -/
def Kept (s : Scope α) (callValue : Call → Except Error α) (call : Call → Expression)
    (names : Expression.Names α) (functions : Expression.Functions α) (e : Expr) : Prop :=
  ∀ v, e.eval s callValue = .ok v → (e.toScript call).eval names functions = .ok (.num v)

/-- The value of a sum of numbers. -/
theorem eval_sumOf {es : List Expression} {vs : List α}
    (h : List.Forall₂ (fun e v => Expression.eval names functions e = .ok (.num v)) es vs) :
    (Expression.sumOf es).eval names functions = .ok (.num (total vs)) := by
  have hfold : ∀ {es : List Expression} {vs : List α} {e : Expression} {v : α},
      List.Forall₂ (fun e v => Expression.eval names functions e = .ok (.num v)) es vs →
      e.eval names functions = .ok (.num v) →
      (es.foldl (.binary .add) e).eval names functions = .ok (.num (vs.foldl Carrier.add v)) := by
    intro es vs e v h he
    induction h generalizing e v with
    | nil => exact he
    | cons hx _ ih =>
      refine ih ?_
      rw [Expression.eval, he, hx]
      rfl
  cases h with
  | nil => rfl
  | cons he hes => exact hfold hes he

/-- The values of the parts of a list. -/
theorem forall₂_eval_of_mapM {β : Type} {f : β → Except Error α} (script : β → Expression) {xs : List β}
    {vs : List α} (hxs : ∀ x ∈ xs, ∀ v, f x = .ok v → (script x).eval names functions = .ok (.num v))
    (h : xs.mapM f = .ok vs) :
    List.Forall₂ (fun e v => Expression.eval names functions e = .ok (.num v)) (xs.map script) vs := by
  induction xs generalizing vs with
  | nil =>
    cases h
    exact .nil
  | cons x xs ih =>
    rw [List.mapM_cons] at h
    obtain ⟨v, hv, h⟩ := Arith.bind_ok h
    obtain ⟨ws, hws, h⟩ := Arith.bind_ok h
    cases h
    exact .cons (hxs x (by simp) v hv) (ih (fun y hy => hxs y (by simp [hy])) hws)

theorem kept_factor {f : Factor} (h : Kept s callValue call names functions f.expr) {v : α}
    (hv : evalFactor s callValue f = .ok v) :
    (factorScript call f).eval names functions = .ok (.num v) := by
  rw [← toScript_factor]
  refine h v ?_
  cases f with
  | call c => exact hv
  | ref n =>
    rw [Factor.expr, eval]
    exact hv

theorem kept_term {t : Term Expr} (hcoeff : Kept s callValue call names functions t.coeff)
    (hfactor : Kept s callValue call names functions t.factor.expr) :
    Kept s callValue call names functions (.term t) := by
  intro v hv
  rw [eval] at hv
  obtain ⟨x, hx, hv⟩ := Arith.bind_ok hv
  have hx := kept_factor hfactor hx
  rw [toScript, Expression.scale]
  split at hv
  · next hunit =>
    cases hv
    rw [if_pos hunit, hx]
  · next hunit =>
    obtain ⟨k, hk, hv⟩ := Arith.bind_ok hv
    cases hv
    rw [if_neg hunit, Expression.eval, hcoeff k hk, hx]
    rfl

/-- **The script of an expression has its value, if the leaves have theirs.** -/
theorem kept_of_leaves (e : Expr) (h : ∀ l ∈ e.leaves, Kept s callValue call names functions l) :
    Kept s callValue call names functions e := by
  induction e using Expr.induction with
  | const | var | index | lookup | ref | call => exact h _ (by simp [leaves])
  | binop op l r ihl ihr =>
    intro v hv
    rw [eval] at hv
    obtain ⟨x, hx, hv⟩ := Arith.bind_ok hv
    obtain ⟨y, hy, hv⟩ := Arith.bind_ok hv
    cases hv
    rw [toScript, Expression.eval, ihl (fun l hl => h l (by simp [leaves, hl])) x hx,
      ihr (fun l hl => h l (by simp [leaves, hl])) y hy]
    exact congrArg Except.ok (ofBinOp_apply op x y)
  | term t ih =>
    exact kept_term (ih fun l hl => h l (by simp [leaves, hl])) (h _ (by simp [leaves]))
  | sum ts ih =>
    intro v hv
    rw [eval, Interpretation.evalTerms_eq] at hv
    obtain ⟨vs, hvs, hv⟩ := Arith.bind_ok hv
    cases hv
    have hterms := forall₂_eval_of_mapM (fun t => toScript call (.term t)) (fun t ht => kept_term
        (ih t ht fun l hl => h l (leaves_term_subset ht (by simp [leaves, hl])))
        (h _ (leaves_term_subset ht (by simp [leaves])))) hvs
    rw [toScript, termScripts_eq]
    exact eval_sumOf hterms
  | scaled inner scale division ihi ihs =>
    intro v hv
    rw [eval] at hv
    obtain ⟨x, hx, hv⟩ := Arith.bind_ok hv
    obtain ⟨k, hk, hv⟩ := Arith.bind_ok hv
    cases hv
    rw [toScript, Expression.eval, ihi (fun l hl => h l (by simp [leaves, hl])) x hx,
      ihs (fun l hl => h l (by simp [leaves, hl])) k hk]
    cases division <;> rfl
  | average bs scale ihb ihs =>
    intro v hv
    rw [eval, Interpretation.evalList_eq] at hv
    obtain ⟨vs, hvs, hv⟩ := Arith.bind_ok hv
    split at hv
    · cases hv
    · obtain ⟨k, hk, hv⟩ := Arith.bind_ok hv
      cases hv
      have hbranches := forall₂_eval_of_mapM (toScript call)
        (fun b hb => ihb b hb fun l hl => h l (leaves_branch_subset hb hl)) hvs
      rw [toScript, scripts_eq, Expression.eval, eval_sumOf hbranches,
        ihs (fun l hl => h l (by simp [leaves, hl])) k hk]
      rfl

end

end Expr

end RecurrenceCompiler
