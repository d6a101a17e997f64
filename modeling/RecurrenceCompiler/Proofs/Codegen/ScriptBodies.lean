import RecurrenceCompiler.Proofs.Codegen.Machines
import RecurrenceCompiler.Proofs.Codegen.RenderedTexts
import RecurrenceCompiler.Proofs.Codegen.SlotReads
import RecurrenceCompiler.Proofs.Script.Scopes

/-!
# Rule bodies in scripts

A running function is a machine for rule bodies: it reads texts as script expressions, and declarations
assign to names that are in scope (`Script.World.numbers`). So the statements of a body can be read and
run, and its result then has the value that the evaluator gives the expression (`Body.runs_render`).
-/

namespace RecurrenceCompiler

open Text Decimal Arith Script

/-! ## The evaluator and interpretations -/

namespace Interpretation

section
variable {α : Type} [Carrier α]

/-- The value of a computation, and zero where there is none. -/
def orZero (x : Except Error α) : α :=
  x.toOption.getD Carrier.zero

theorem orZero_ok {x : Except Error α} {v : α} (h : x = .ok v) : orZero x = v := by
  rw [h]
  rfl

/-- What the evaluator gives leaves in a scope, where calls have values. -/
def evaluator (s : Scope α) (calls : Option String → List Int → α) : Interpretation α where
  number := Carrier.ofFloat
  raw t := orZero (Arith.eval s.value t)
  var n := orZero (Arith.eval s.value n)
  index t := orZero (Arith.eval s.value t)
  lookup t i := orZero (Expr.evalLookup s t i)
  call := calls
  op := BinOp.apply

variable {s : Scope α} {calls : Option String → List Int → α} {call : Call → Except Error α}
  {shared : String → Option α}

/-- Where an expression has a value, an interpretation gives it the same. -/
def Follows (I : Interpretation α) (shared : String → Option α) (s : Scope α)
    (call : Call → Except Error α) (e : Expr) : Prop :=
  ∀ v, e.eval s call = .ok v → I.value shared e = some v

theorem mapM_of_follows {I : Interpretation α} {β : Type} {expr : β → Expr} {bs : List β} {vs : List α}
    (h : ∀ b ∈ bs, I.Follows shared s call (expr b))
    (heval : bs.mapM (fun b => (expr b).eval s call) = .ok vs) :
    bs.mapM (fun b => I.value shared (expr b)) = some vs := by
  induction bs generalizing vs with
  | nil =>
    cases heval
    rfl
  | cons b bs ih =>
    rw [List.forall_mem_cons] at h
    rw [List.mapM_cons] at heval
    obtain ⟨v, hv, heval⟩ := bind_ok heval
    obtain ⟨ws, hws, heval⟩ := bind_ok heval
    cases heval
    rw [List.mapM_cons, h.1 v hv, ih h.2 hws]
    rfl

theorem follows_factor {I : Interpretation α} {f : Factor} (h : I.Follows shared s call f.expr) {v : α}
    (heval : Expr.evalFactor s call f = .ok v) : I.factor shared f = some v := by
  cases f with
  | call c => exact h v heval
  | ref n => exact h v heval

theorem follows_term {I : Interpretation α} (hop : I.op = BinOp.apply) {t : Term Expr}
    (hcoeff : I.Follows shared s call t.coeff) (hfactor : I.Follows shared s call t.factor.expr) :
    I.Follows shared s call (.term t) := by
  intro v hv
  obtain ⟨x, hx, hv⟩ := bind_ok hv
  rw [value, follows_factor hfactor hx]
  split at hv
  · next hunit =>
    cases hv
    rw [Option.bind_eq_bind, Option.bind_some, if_pos hunit]
    rfl
  · next hunit =>
    obtain ⟨k, hk, hv⟩ := bind_ok hv
    cases hv
    rw [Option.bind_eq_bind, Option.bind_some, if_neg hunit, hcoeff k hk, hop]
    rfl

/-- **An interpretation gives an expression the value that it has, if it does so for the leaves.** -/
theorem follows_of_leaves {I : Interpretation α} (hop : I.op = BinOp.apply)
    (hzero : I.number 0.0 = Carrier.zero) (e : Expr)
    (h : ∀ l ∈ e.leaves, I.Follows shared s call l) : I.Follows shared s call e := by
  have htotal (vs : List α) : I.total vs = RecurrenceCompiler.total vs := by
    cases vs with
    | nil => exact hzero
    | cons v vs => rw [total, hop]; rfl
  induction e using Expr.induction with
  | const | var | index | lookup | ref | call => exact h _ (by simp [Expr.leaves])
  | binop op l r ihl ihr =>
    intro v hv
    obtain ⟨x, hx, hv⟩ := bind_ok hv
    obtain ⟨y, hy, hv⟩ := bind_ok hv
    cases hv
    rw [value, ihl (fun l hl => h l (by simp [Expr.leaves, hl])) x hx,
      ihr (fun l hl => h l (by simp [Expr.leaves, hl])) y hy, hop]
    rfl
  | term t ih =>
    exact follows_term hop (ih fun l hl => h l (by simp [Expr.leaves, hl]))
      (h _ (by simp [Expr.leaves]))
  | sum ts ih =>
    intro v hv
    rw [Expr.eval, evalTerms_eq] at hv
    obtain ⟨vs, hvs, hv⟩ := bind_ok hv
    cases hv
    have hterms : ts.mapM (fun t => I.value shared (.term t)) = some vs :=
      mapM_of_follows (fun t ht => follows_term hop
        (ih t ht fun l hl => h l (Expr.leaves_term_subset ht (by simp [Expr.leaves, hl])))
        (h _ (Expr.leaves_term_subset ht (by simp [Expr.leaves])))) hvs
    rw [value_sum, hterms]
    exact congrArg some (htotal vs)
  | scaled inner scale division ihi ihs =>
    intro v hv
    obtain ⟨x, hx, hv⟩ := bind_ok hv
    obtain ⟨k, hk, hv⟩ := bind_ok hv
    cases hv
    rw [value, ihi (fun l hl => h l (by simp [Expr.leaves, hl])) x hx,
      ihs (fun l hl => h l (by simp [Expr.leaves, hl])) k hk, hop]
    cases division <;> rfl
  | average bs scale ihb ihs =>
    intro v hv
    rw [Expr.eval, evalList_eq] at hv
    obtain ⟨vs, hvs, hv⟩ := bind_ok hv
    dsimp only at hv
    split at hv
    · cases hv
    · next hempty =>
      obtain ⟨k, hk, hv⟩ := bind_ok hv
      cases hv
      have hbranches : bs.mapM (I.value shared) = some vs := mapM_of_follows
        (fun b hb => ihb b hb fun l hl => h l (Expr.leaves_branch_subset hb hl)) hvs
      rw [value, values_eq, hbranches, Option.bind_eq_bind, Option.bind_some, if_neg hempty,
        ihs (fun l hl => h l (by simp [Expr.leaves, hl])) k hk, hop, htotal]
      rfl

/-- The interpretation by the evaluator follows it, where calls have the values that they are given. -/
theorem follows_evaluator {l : Expr} (hleaf : l.isLeaf) (href : ∀ n, l ≠ .ref n)
    (hcall : ∀ c v, l = .call c → call c = .ok v → calls c.target (c.shifts.map Whole.toInt) = v) :
    (evaluator s calls).Follows shared s call l := by
  intro v hv
  cases l with
  | const c =>
    cases c with
    | number x =>
      cases hv
      rfl
    | raw t =>
      rw [Expr.eval, orThrow_eq] at hv
      exact congrArg some (orZero_ok hv)
  | var t | index t | lookup t i =>
    rw [Expr.eval, orThrow_eq] at hv
    exact congrArg some (orZero_ok hv)
  | ref n => exact absurd rfl (href n)
  | call c => exact congrArg some (hcall c v rfl hv)
  | _ => cases hleaf

end

end Interpretation

/-! ## Statements that are read and run -/

namespace Script

theorem readStmts_append {ss ts : List (Stmt String)} {es fs : List (Stmt Expression)}
    (hs : readStmts ss = .ok es) (ht : readStmts ts = .ok fs) : readStmts (ss ++ ts) = .ok (es ++ fs) := by
  induction ss generalizing es with
  | nil =>
    cases hs
    exact ht
  | cons s ss ih =>
    obtain ⟨first, hfirst, hs⟩ := bind_ok hs
    obtain ⟨rest, hrest, hs⟩ := bind_ok hs
    cases hs
    rw [List.cons_append, readStmts, hfirst, ih hrest, List.append_assoc]
    rfl

section
variable {α : Type} [Carrier α] {limits : Limits} {w : World α} {s s' : Locals α}

/-- A declaration assigns the value to its name. -/
theorem runStmts_value {n : String} {e : Expression} {v : Value α} (h : w.eval s e = .ok v) :
    runStmts limits w s [.value n e] = .ok (s.assign n v, none) := by
  rw [runStmts, runStmt, h]
  rfl

end

end Script

/-! ## Bodies can be read -/

namespace BodyMachine

/-- Statements that a machine runs can be read if what is declared on it can. -/
theorem readStmts_of_runs {V : Type} {op : BinOp → V → V → V} {M : BodyMachine op}
    (hread : ∀ {s n t s'}, M.Declares s n t s' → ∃ e, readText t = .ok e) {s s' : M.State}
    {ss : List (Stmt String)} (h : M.Runs s ss s') (hlines : ∀ t, .comment t ∈ ss → isOneLine t) :
    ∃ es, readStmts ss = .ok es ∧ declared es = declared ss := by
  induction h with
  | nil => exact ⟨[], rfl, rfl⟩
  | @comment s s' t ss _ ih =>
    obtain ⟨es, hes, hdeclared⟩ := ih fun t' ht' => hlines t' (List.mem_cons_of_mem _ ht')
    refine ⟨.comment t :: es, ?_, hdeclared⟩
    rw [readStmts, Body.readStmt_comment (hlines t List.mem_cons_self), hes]
    rfl
  | @value s s' s'' n t ss hdeclares _ ih =>
    obtain ⟨e, he⟩ := hread hdeclares
    obtain ⟨es, hes, hdeclared⟩ := ih fun t' ht' => hlines t' (List.mem_cons_of_mem _ ht')
    refine ⟨.value n e :: es, ?_, congrArg (n :: ·) hdeclared⟩
    rw [readStmts, readStmt, he, hes]
    rfl

end BodyMachine

namespace Script

/-- Texts that can be read, whatever they stand for. -/
def readable : BodyMachine fun (_ : BinOp) (_ _ : Unit) => () where
  State := Unit
  sum _ t _ := ∃ e, IsText (.binary 5) t [e]
  product _ t _ := ∃ e, IsText (.binary 6) t [e]
  operand _ t _ := ∃ e, IsText .operand t [e]
  ofProduct h := h.imp fun _ => textReading.ofProduct
  ofOperand h := h.imp fun _ => textReading.ofOperand
  paren h := h.imp fun _ => textReading.paren
  joinSum ho hl hr := by
    obtain ⟨l, hl⟩ := hl
    obtain ⟨r, hr⟩ := hr
    exact ⟨_, textReading.joinSum ho hl hr⟩
  joinProduct ho hl hr := by
    obtain ⟨l, hl⟩ := hl
    obtain ⟨r, hr⟩ := hr
    exact ⟨_, textReading.joinProduct ho hl hr⟩
  Has _ _ _ := True
  CanDeclare _ n := isScriptName n ∧ n ∉ reservedWords
  Declares _ _ t _ := ∃ e, readText t = .ok e
  Off _ _ _ := True
  operand_name hn _ := ⟨_, isText_name hn.1 hn.2⟩
  exists_declares _ h := by
    obtain ⟨e, he⟩ := h
    exact ⟨(), ⟨e, (he.lower (by decide)).cond.readText⟩, trivial, trivial⟩
  off_refl _ _ := trivial
  off_trans _ _ := trivial
  off_mono _ _ := trivial
  has_off _ _ _ := trivial
  canDeclare_off _ h := h

section
variable {α : Type} [Carrier α]

/-- Texts that have numbers for values in a running function. -/
def World.numbers (w : World α) : BodyMachine (BinOp.apply : BinOp → α → α → α) where
  State := Locals α
  sum s t x := ∃ e, IsText (.binary 5) t [e] ∧ w.eval s e = .ok (.num x)
  product s t x := ∃ e, IsText (.binary 6) t [e] ∧ w.eval s e = .ok (.num x)
  operand s t x := ∃ e, IsText .operand t [e] ∧ w.eval s e = .ok (.num x)
  ofProduct h := h.imp fun _ => .imp_left textReading.ofProduct
  ofOperand h := h.imp fun _ => .imp_left textReading.ofOperand
  paren h := h.imp fun _ => .imp_left textReading.paren
  joinSum {s o l r x y} ho hl hr := by
    obtain ⟨el, hl, hx⟩ := hl
    obtain ⟨er, hr, hy⟩ := hr
    refine ⟨_, textReading.joinSum ho hl hr, ?_⟩
    exact (Expression.eval_binary hx hy).trans (congrArg Except.ok (ofBinOp_apply o x y))
  joinProduct {s o l r x y} ho hl hr := by
    obtain ⟨el, hl, hx⟩ := hl
    obtain ⟨er, hr, hy⟩ := hr
    refine ⟨_, textReading.joinProduct ho hl hr, ?_⟩
    exact (Expression.eval_binary hx hy).trans (congrArg Except.ok (ofBinOp_apply o x y))
  Has s n x := s.find? n = some ⟨n, some (.num x)⟩
  CanDeclare s n := n ∈ s.names ∧ isScriptName n ∧ n ∉ reservedWords
  Declares s n t s' := ∃ e x, readText t = .ok e ∧ w.eval s e = .ok (.num x) ∧ s' = s.assign n (.num x)
  Off ns s s' := s'.names = s.names ∧ ∀ n, n ∉ ns → s'.find? n = s.find? n
  operand_name {s n x} hn hx := by
    refine ⟨_, isText_name hn.2.1 hn.2.2, ?_⟩
    rw [World.eval, Expression.eval, Locals.read, hx]
  exists_declares {s n t x} hn h := by
    obtain ⟨e, he, hx⟩ := h
    refine ⟨s.assign n (.num x), ⟨e, x, (he.lower (by decide)).cond.readText, hx, rfl⟩,
      ⟨Locals.names_assign n _ s, fun m hm => ?_⟩, Locals.find?_assign_self hn.1⟩
    exact Locals.find?_assign_of_ne (by simpa using hm)
  off_refl _ _ := ⟨rfl, fun _ _ => rfl⟩
  off_trans h h' := ⟨h'.1.trans h.1, fun n hn => (h'.2 n hn).trans (h.2 n hn)⟩
  off_mono hsub h := ⟨h.1, fun n hn => h.2 n fun hmem => hn (hsub hmem)⟩
  has_off hn hoff hx := (hoff.2 _ hn).trans hx
  canDeclare_off hoff hn := ⟨hoff.1 ▸ hn.1, hn.2⟩

variable {w : World α}

/-- What the machine runs is run. -/
theorem runStmts_of_runs {s s' : w.numbers.State} {ss : List (Stmt String)} {es : List (Stmt Expression)}
    (h : w.numbers.Runs s ss s') (hlines : ∀ t, .comment t ∈ ss → isOneLine t)
    (hread : readStmts ss = .ok es) (limits : Limits) : runStmts limits w s es = .ok (s', none) := by
  induction h generalizing es with
  | nil =>
    cases hread
    rfl
  | @comment s s' t ss _ ih =>
    obtain ⟨first, hfirst, hread⟩ := bind_ok hread
    obtain ⟨rest, hrest, hread⟩ := bind_ok hread
    cases hread
    cases (Body.readStmt_comment (hlines t List.mem_cons_self)).symm.trans hfirst
    have hfirst : runStmts limits w s [.comment t] = .ok (s, none) := rfl
    exact (runStmts_append hfirst).trans (ih (fun t' ht' => hlines t' (List.mem_cons_of_mem _ ht')) hrest)
  | @value s s' s'' n t ss hdeclares _ ih =>
    obtain ⟨e, x, he, hx, rfl⟩ := hdeclares
    obtain ⟨first, hfirst, hread⟩ := bind_ok hread
    obtain ⟨rest, hrest, hread⟩ := bind_ok hread
    cases hread
    rw [readStmt, he] at hfirst
    cases hfirst
    exact (runStmts_append (runStmts_value hx)).trans (ih (fun t' ht' => hlines t' (List.mem_cons_of_mem _ ht')) hrest)

end

end Script

/-! ## Bodies -/

namespace Body

variable {d : Dialect} {call : CallText} {indices : List String} {optimization : Optimization}
  {threshold : Int} {e : Expr} {b : Body}

/-- The comments of a body are of one line. -/
theorem isOneLine_of_render (h : render d call indices optimization threshold e = .ok b) :
    ∀ t, .comment t ∈ b.statements → isOneLine t := by
  have htexts : ClosedTexts d fun _ => True :=
    ⟨trivial, trivial, fun _ => trivial, fun _ _ _ => trivial⟩
  intro t ht
  cases (texts_of_render htexts (fun _ _ => trivial) (fun _ _ _ _ => trivial) h).statements _ ht with
  | comment h => exact h

/-- A declared name can be declared in scripts. -/
theorem isScriptName_of_render (h : render d call indices optimization threshold e = .ok b) :
    ∀ n ∈ declared b.statements, isScriptName n ∧ n ∉ reservedWords := by
  intro n hn
  have hhead := underscore_of_render h n hn
  have hrun := (renders_of_render h).wellNamed.isNameRun n hn
  refine ⟨?_, fun hres => ?_⟩
  · rw [isScriptName]
    cases hcs : n.toList with
    | nil => simp [hcs] at hhead
    | cons c cs =>
      rw [hcs, List.head?_cons, Option.some.injEq] at hhead
      rw [hcs, isNameRun, Bool.and_eq_true] at hrun
      rw [Bool.and_eq_true]
      exact ⟨hhead ▸ by decide, hrun.2⟩
  · have hnone : ∀ n ∈ reservedWords, n.toList.head? ≠ some '_' := by decide
    exact hnone n hres hhead

/-- Every interpretation gives an expression a value, and its shared form the same one. -/
def SharesValues (indices : List String) (threshold : Int) (e : Expr) : Prop :=
  ∀ {V : Type} (I : Interpretation V), ∃ v, I.value (fun _ => none) e = some v ∧
    I.ofShared (e.share indices threshold) = some v

/-- A leaf other than a reference stands for something, whatever references are bound to. -/
theorem exists_always {V : Type} (I : Interpretation V) {l : Expr} (hleaf : l.isLeaf)
    (href : ∀ n, l ≠ .ref n) : ∃ v, I.Always l v := by
  cases l with
  | const c => cases c <;> exact ⟨_, fun _ => rfl⟩
  | var | index | lookup | call => exact ⟨_, fun _ => rfl⟩
  | ref n => exact absurd rfl (href n)
  | _ => cases hleaf

/-- **A rendered body can be read** if the leaves are rendered as operands. -/
theorem readStmts_of_render (h : render d call indices optimization threshold e = .ok b)
    (he : e.Regular) (hshared : SharesValues indices threshold e) (hrefs : ∀ n, .ref n ∉ e.leaves)
    (hleaves : ∀ l ∈ e.leaves, ∃ text x, renderExpr d call l = .ok text ∧ IsText .operand text [x]) :
    ∃ es x, readStmts b.statements = .ok es ∧ declared es = declared b.statements ∧
      IsText (.binary 5) b.result [x] := by
  let I : Interpretation Unit := ⟨fun _ => (), fun _ => (), fun _ => (), fun _ => (), fun _ _ => (),
    fun _ _ => (), fun _ _ _ => ()⟩
  obtain ⟨v, hv, hv'⟩ := hshared I
  have hread : ∀ l ∈ e.leaves, readable.ReadsLeaf I d call (declared b.statements) () l := by
    intro l hl
    obtain ⟨text, x, htext, hx⟩ := hleaves l hl
    obtain ⟨v, hv⟩ := exists_always I (Expr.isLeaf_of_mem_leaves hl) fun n hn => hrefs n (hn ▸ hl)
    exact ⟨text, v, htext, fun _ _ => ⟨x, hx⟩, hv⟩
  obtain ⟨s', hruns, -, x, hx⟩ := BodyMachine.computes_of_renders (M := readable)
    (renders_of_render h) he (isScriptName_of_render h) hread hv hv'
  obtain ⟨es, hes, hdeclared⟩ := BodyMachine.readStmts_of_runs (fun h => h) hruns (isOneLine_of_render h)
  exact ⟨es, x, hes, hdeclared, hx⟩

/-- **A rendered body that is read and run computes the value of its expression**, if its leaves are
rendered as operands that have the values of the leaves, whatever the names that the body declares stand
for. These names must be in scope. -/
theorem runStmts_of_render {α : Type} [Carrier α]
    (h : render d call indices optimization threshold e = .ok b) (he : e.Regular)
    (hshared : SharesValues indices threshold e) (hrefs : ∀ n, .ref n ∉ e.leaves) {w : World α}
    {s : Locals α} (hscope : declared b.statements ⊆ s.names) {scope : Scope α}
    {call' : Call → Except Error α}
    (hcall : ∀ c c' : Call, c.target = c'.target → c.shifts.map Whole.toInt = c'.shifts.map Whole.toInt →
      call' c = call' c')
    (hleaves : ∀ l ∈ e.leaves, ∃ text x, renderExpr d call l = .ok text ∧ IsText .operand text [x] ∧
      ∀ v, l.eval scope call' = .ok v → ∀ s', s'.names = s.names →
        (∀ n, n ∉ declared b.statements → s'.find? n = s.find? n) → w.eval s' x = .ok (.num v))
    {v : α} (hv : e.eval scope call' = .ok v) {es : List (Stmt Expression)}
    (hread : readStmts b.statements = .ok es) {x : Expression} (hx : IsText (.binary 5) b.result [x])
    (limits : Limits) :
    ∃ s', runStmts limits w s es = .ok (s', none) ∧ w.eval s' x = .ok (.num v) ∧ s'.names = s.names ∧
      ∀ n, n ∉ declared b.statements → s'.find? n = s.find? n := by
  let calls : Option String → List Int → α := fun target shifts =>
    Interpretation.orZero (call' ⟨shifts.map .ofInt, target⟩)
  have hcalls : ∀ c v, call' c = .ok v → calls c.target (c.shifts.map Whole.toInt) = v := by
    intro c v hc
    have hsame : call' ⟨(c.shifts.map Whole.toInt).map .ofInt, c.target⟩ = call' c :=
      hcall _ c rfl (by simp [Function.comp_def, Whole.toInt_ofInt])
    exact Interpretation.orZero_ok (hsame.trans hc)
  let I := Interpretation.evaluator scope calls
  have hfollows : ∀ l ∈ e.leaves, ∀ shared, I.Follows shared scope call' l := by
    intro l hl shared
    refine Interpretation.follows_evaluator (Expr.isLeaf_of_mem_leaves hl)
      (fun n hn => hrefs n (hn ▸ hl)) ?_
    rintro c v rfl hc
    exact hcalls c v hc
  have hvalue : I.value (fun _ => none) e = some v :=
    Interpretation.follows_of_leaves rfl rfl e (fun l hl => hfollows l hl _) v hv
  obtain ⟨v', hv', hshared⟩ := hshared I
  obtain rfl := Option.some.inj (hvalue.symm.trans hv')
  have hcan : ∀ n ∈ declared b.statements, w.numbers.CanDeclare s n := fun n hn =>
    ⟨hscope hn, isScriptName_of_render h n hn⟩
  have hreads : ∀ l ∈ e.leaves, w.numbers.ReadsLeaf I d call (declared b.statements) s l := by
    intro l hl
    obtain ⟨y, hy⟩ := Expr.needsLeaves e hv l hl
    obtain ⟨text, x, htext, hx, heval⟩ := hleaves l hl
    exact ⟨text, y, htext, fun s' hoff => ⟨x, hx, heval y hy s' hoff.1 hoff.2⟩,
      fun shared => hfollows l hl shared y hy⟩
  obtain ⟨s', hruns, hoff, x', hx', heval⟩ :=
    BodyMachine.computes_of_renders (renders_of_render h) he hcan hreads hvalue hshared
  have hparse {x : Expression} (hx : IsText (.binary 5) b.result [x]) :=
    (hx.lower (by decide : 1 ≤ 5)).cond.parse?
  obtain rfl := Option.some.inj ((hparse hx).symm.trans (hparse hx'))
  exact ⟨s', runStmts_of_runs hruns (isOneLine_of_render h) hread limits, heval, hoff.1, hoff.2⟩

end Body

end RecurrenceCompiler
