import RecurrenceCompiler.Proofs.Codegen.BaseCode
import RecurrenceCompiler.Proofs.Codegen.Buffers
import RecurrenceCompiler.Proofs.Codegen.CaseCode
import RecurrenceCompiler.Proofs.Codegen.InBounds

/-!
# Bodies at the slots of a layer

A function that computes a layer has the layer indices, the number of slots and the buffers of the layers that it
reads (`HasRuleLayer`), where calls find their values (`Finds`). Then the body of a rule writes the value of the
rule to the slot that the loop is at (`RunnableGroup.fillsSlot`), and the body with the auxiliary index fixed
writes it to slot zero (`RunnableGroup.fillsSlot_zero`).
-/

namespace RecurrenceCompiler

open Text Decimal Arith Script

/-! ## Rules with the auxiliary index fixed -/

/-- The brackets of a readable text close in order, and it has no colon. -/
theorem Script.Readable.legible {t : String} (h : Readable t) : Legible t := by
  refine ⟨RuleText.balanced_of_isSentence h.sentence, ?_⟩
  obtain ⟨ts, hts, -⟩ := h.sentence
  exact RuleText.not_mem_of_tokens? hts rfl rfl rfl

namespace Expr

variable {value : String → Option String} {rank : Nat} {e : Expr}

/-- A coefficient with names replaced is one if its index texts are legible. -/
theorem IsCoefficient.substitute (h : e.IsCoefficient)
    (hlegible : ∀ t, .index t ∈ (e.substitute value).leaves → Legible t) : (e.substitute value).IsCoefficient := by
  induction h with
  | number x => exact .number x
  | var ht => exact .var ht
  | index => exact .index (hlegible _ (List.mem_singleton_self _))
  | mul _ _ ihl ihr =>
    refine .mul (ihl fun t ht => ?_) (ihr fun t ht => ?_)
    · exact hlegible t (List.mem_append_left _ ht)
    · exact hlegible t (List.mem_append_right _ ht)

theorem IsBody.substitute (h : e.IsBody rank)
    (hlegible : ∀ t, .index t ∈ (e.substitute value).leaves → Legible t) : (e.substitute value).IsBody rank := by
  obtain ⟨ts, rfl, hts⟩ := h
  rw [Expr.substitute, leaves_sum] at hlegible
  rw [Expr.substitute]
  rw [substituteTerms_eq_map] at hlegible ⊢
  refine ⟨_, rfl, List.forall_mem_map.2 fun t ht => ⟨(hts t ht).1.substitute fun i hi => ?_, (hts t ht).2⟩⟩
  exact hlegible i (List.mem_flatMap.2 ⟨_, List.mem_map_of_mem ht, List.mem_append_left _ hi⟩)

/-- **A right-hand side with names replaced has the shape of one** if its index texts are legible. -/
theorem IsRule.substitute (h : e.IsRule rank)
    (hlegible : ∀ t, .index t ∈ (e.substitute value).leaves → Legible t) : (e.substitute value).IsRule rank := by
  cases h with
  | body hbody => exact .body (hbody.substitute hlegible)
  | scaled hbody hscale =>
    rw [Expr.substitute, leaves] at hlegible
    exact .scaled (hbody.substitute fun t ht => hlegible t (List.mem_append_left _ ht))
      (hscale.substitute fun t ht => hlegible t (List.mem_append_right _ ht))
  | @average bs scale hne hbodies hscale =>
    rw [Expr.substitute, leaves_average] at hlegible
    rw [Expr.substitute]
    rw [substituteList_eq_map] at hlegible ⊢
    refine .average (by simpa using hne) (List.forall_mem_map.2 fun b hb => ?_) ?_
    · refine (hbodies b hb).substitute fun t ht => hlegible t (List.mem_append_left _ ?_)
      exact List.mem_flatMap.2 ⟨_, List.mem_map_of_mem hb, ht⟩
    · exact hscale.substitute fun t ht => hlegible t (List.mem_append_right _ ht)

/-- Replacing names leaves constants alone. -/
theorem NoNegativeZero.substitute (h : e.NoNegativeZero) : (e.substitute value).NoNegativeZero := by
  intro x hx
  rw [leaves_substitute, List.mem_map] at hx
  obtain ⟨l, hl, heq⟩ := hx
  cases l with
  | const c =>
    cases heq
    exact h x hl
  | _ => cases heq

end Expr

namespace Recurrence

variable {r : Recurrence}

/-- **The right-hand side of a rule with the auxiliary index fixed** can be read and run where its texts can be
read. -/
theorem Scripted.writable_fixed (h : r.Scripted) {rule : Rule} (hrule : rule ∈ r.rules) {aux value : String}
    (hread : ∀ t ∈ (rule.expr.substitute (fixed aux value)).texts, Readable t) (threshold : Int) :
    r.Writable threshold (rule.expr.substitute (fixed aux value)) where
  regular := (h.writable_rule hrule threshold).regular.substitute
  leaves := by
    intro l' hl'
    have hleaf : ∀ t, l'.leafText? = some t → Readable t := fun t ht =>
      hread t (List.mem_filterMap.2 ⟨l', hl', ht⟩)
    rw [Expr.leaves_substitute, List.mem_map] at hl'
    obtain ⟨l, hl, rfl⟩ := hl'
    rcases h.isOperand_rule hrule hl with ⟨c, rfl⟩ | hoperand
    · exact .inl ⟨c, rfl⟩
    · refine .inr ?_
      cases hoperand with
      | number hx => exact .number hx
      | param hn => exact .param hn
      | name hid hn => exact .name hid hn
      | paren hbal ht => exact .paren hbal ht
      | index => exact .index (hleaf _ rfl)
      | lookup htable => exact .lookup htable (hleaf _ rfl)
  shared := by
    refine h.sharesValues ((h.balanced.rules rule hrule).1.substitute fun t ht => ?_)
      (h.constants _ (expr_mem_exprs hrule)).substitute threshold
    exact (hread t (List.mem_filterMap.2 ⟨_, ht, rfl⟩)).legible

/-! ## Slots of a layer -/

/-- The point of a slot of a layer. -/
def layerPoint (r : Recurrence) (aux : String) (layer : String → Int) (a : Int) : List Float :=
  r.indices.map fun i => ofInt (if i = aux then a else layer i)

section
variable {aux : String} {layer : String → Int} {a : Int} {vars : RuntimeVars Float}

/-- What an index is at in a slot. -/
theorem getElem?_layerPoint {i : Nat} {n : String} (hn : r.indices[i]? = some n) :
    (r.layerPoint aux layer a)[i]? = some (ofInt (if n = aux then a else layer n)) := by
  rw [layerPoint, List.getElem?_map, hn]
  rfl

theorem layerPoint_value {n : String} (hn : n ∈ r.indices) :
    (r.pointScope vars (r.layerPoint aux layer a)).value n = some (ofInt (if n = aux then a else layer n)) := by
  rw [pointScope]
  dsimp only
  rw [if_pos (List.contains_iff_mem.2 hn), getElem?_layerPoint (List.getElem?_idxOf hn)]

/-- The slots of a layer agree on its indices. -/
theorem layerEnvAt_layerPoint (a' : Int) :
    r.layerEnvAt aux (r.layerPoint aux layer a) = r.layerEnvAt aux (r.layerPoint aux layer a') := by
  funext n
  rw [layerEnvAt, layerEnvAt]
  split
  · rfl
  · next hne =>
    have hne : n ≠ aux := by simpa using hne
    rw [pointEnv, pointEnv]
    split
    · next hn =>
      have hn := List.getElem?_idxOf (List.contains_iff_mem.1 hn)
      rw [getElem?_layerPoint hn, getElem?_layerPoint hn, if_neg hne, if_neg hne]
    · rfl

/-- A slot of a layer can be passed to functions. -/
theorem passable_layerPoint (hvars : ∀ fn : MathFn, vars fn.name = none)
    (htables : ∀ v ∈ r.runtimeVars, ∀ xs, vars v = some (.table xs) → xs.length < 2 ^ 32) :
    r.Passable vars (r.layerPoint aux layer a) where
  rank := List.length_map ..
  point := List.forall_mem_map.2 fun _ _ => isNegativeZero_ofInt _
  elementary := hvars
  tables := htables

end

/-! ## What the code finds -/

/-- What a function has that computes a layer by rules: the layer indices, the number of slots and the runtime
variables. It has no name for the auxiliary index, none of the surroundings and none that bodies introduce. -/
structure HasRuleLayer (r : Recurrence) (plan : LayerPlan) (layer : String → Int) (size : Int)
    (vars : RuntimeVars Float) (w : World Float) (s : Locals Float) : Prop where
  index : ∀ i ∈ plan.layerIndices, s.find? i = some ⟨i, some (.num (ofInt (layer i)))⟩
  count : s.read w.names "N_VALUES" = .ok (.num (ofInt size))
  var : ∀ v ∈ r.runtimeVars, s.find? v = some ⟨v, some (vars.script v)⟩
  aux : plan.aux ∉ s.names
  free : ∀ n, IsElementary n ∨ Body.Introduced n → n ∉ s.names

/-- What a call reads at a slot: zero below slot zero, else the slot of its buffer. -/
inductive Finds (r : Recurrence) (plan : LayerPlan) (buffers : List Buffer) (s : Locals Float) (a : Int) (c : Call) :
    Float → Prop
  | below : a + c.shiftAt plan.auxSlot < 0 → Finds r plan buffers s a c 0.0
  | slot {b : Buffer} {length : Nat} {f : Nat → Value Float} {named : List (String × Value Float)} {v : Float} :
      buffers.find? (fun b => b.signature == r.layerSignature plan c) = some b →
      s.find? b.name = some ⟨b.name, some (Value.slots length f named)⟩ → length < 2 ^ 32 →
      0 ≤ a + c.shiftAt plan.auxSlot → a + c.shiftAt plan.auxSlot < length →
      f (a + c.shiftAt plan.auxSlot).toNat = .num v → Finds r plan buffers s a c v

section
variable {plan : LayerPlan} {layer : String → Int} {size a : Int} {vars : RuntimeVars Float} {w : World Float}
  {s t : Locals Float} {buffers : List Buffer} {c : Call} {v : Float}

/-- Calls find the same in functions that have the same buffers. -/
theorem Finds.congr (h : r.Finds plan buffers s a c v)
    (hsame : ∀ b ∈ buffers, b.name ∈ s.names → t.find? b.name = s.find? b.name) : r.Finds plan buffers t a c v := by
  cases h with
  | below hneg => exact .below hneg
  | slot hb hfind hlength hpos hlt hv =>
    have hmem := List.mem_of_find?_eq_some hb
    exact .slot hb ((hsame _ hmem (Locals.mem_names_of_find? hfind)).trans hfind) hlength hpos hlt hv

/-- Below slot zero a call finds zero. -/
theorem Finds.eq_zero (h : r.Finds plan buffers s a c v) (hneg : a + c.shiftAt plan.auxSlot < 0) : v = 0.0 := by
  cases h with
  | below => rfl
  | slot _ _ _ hpos => exact absurd hneg (not_lt.2 hpos)

/-- Elsewhere it finds the slot of the buffer that it reads. -/
theorem Finds.eval_element (h : r.Finds plan buffers s a c v) {b : Buffer}
    (hb : buffers.find? (fun b => b.signature == r.layerSignature plan c) = some b)
    (hpos : 0 ≤ a + c.shiftAt plan.auxSlot) {i : Expression}
    (hi : w.eval s i = .ok (.num (ofInt (a + c.shiftAt plan.auxSlot)))) :
    w.eval s (.element (.name b.name) i) = .ok (.num v) := by
  cases h with
  | below hneg => exact absurd hneg (not_lt.2 hpos)
  | @slot b' length f named v hb' hfind hlength _ hlt hv =>
    obtain rfl := Option.some.inj (hb.symm.trans hb')
    have helement : (Value.slots length f named).element (.num (ofInt (a + c.shiftAt plan.auxSlot))) =
        .ok (f (a + c.shiftAt plan.auxSlot).toNat) := Value.element_slots hpos hlt hlength
    rw [World.eval] at hi
    rw [World.eval, Expression.eval, Expression.eval, Locals.read_of_find? hfind, hi, ← hv]
    exact helement

/-- **A read of another layer has the value that the call finds**, at a slot that is known as at the loop's. -/
theorem Finds.eval_slotScript (h : r.Finds plan buffers s a c v) (hnumbers : KnowsNumbers (s.read w.names))
    {b : Buffer} (hb : buffers.find? (fun b => b.signature == r.layerSignature plan c) = some b)
    (hshift : (c.shiftAt plan.auxSlot).natAbs ≤ 2 ^ 52) (hpos : 0 ≤ a) (ha : a ≤ 2 ^ 52) {auxAt : Option Int}
    (hat : ∀ a' ∈ auxAt, a' = a)
    (haux : auxAt = none → s.find? plan.aux = some ⟨plan.aux, some (.num (ofInt a))⟩) :
    w.eval s (slotScript plan.aux (.num 0.0) auxAt b.name (c.shiftAt plan.auxSlot)) = .ok (.num v) := by
  cases auxAt with
  | some a' =>
    obtain rfl := hat a' rfl
    rw [slotScript]
    split
    · next hneg => exact h.eq_zero hneg ▸ rfl
    · next hge => exact h.eval_element hb (not_lt.1 hge) (eval_ofNumber hnumbers _ (isNegativeZero_ofInt _))
  | none =>
    have hindex : w.eval s (.shifted plan.aux (c.shiftAt plan.auxSlot)) =
        .ok (.num (ofInt (a + c.shiftAt plan.auxSlot))) := by
      rw [← ofInt_add (by omega) (by omega) (by omega)]
      exact eval_shifted hnumbers _ (Locals.read_of_find? (haux rfl)) (isNegativeZero_ofInt a) _
    have hzero : w.eval s (.num 0.0) = .ok (.num 0.0) := rfl
    have htest : w.test s (.binary .ge (.shifted plan.aux (c.shiftAt plan.auxSlot)) (.num 0.0)) =
        .ok (decide (0 ≤ a + c.shiftAt plan.auxSlot)) := by
      rw [World.test_binary hindex hzero]
      refine congrArg Except.ok (Bool.eq_iff_iff.2 ?_)
      rw [decide_eq_true_iff]
      exact indexArithmetic_double.le_iff isInt_zero (isInt_ofInt (by omega))
    rw [slotScript]
    split
    · exact h.eval_element hb (by omega) hindex
    · rw [World.eval_cond htest]
      split
      · next hge => exact h.eval_element hb (of_decide_eq_true hge) hindex
      · next hneg => exact h.eq_zero (by simpa using hneg) ▸ hzero

end

/-! ## Bodies -/

section
variable {o : CodegenOptions} {plan : LayerPlan} {buffers : List Buffer} {auxAt : Option Int} {e : Expr} {b : Body}
  {limits : Limits} {w : World Float} {t : Locals Float} {length k : Nat}

/-- A function has the same names but for what bodies introduce. -/
def SameNames (t u : Locals Float) : Prop :=
  ∀ n, ¬ Body.Introduced n → u.find? n = t.find? n

/-- **The body of a rule writes its value to the slot**, if its leaves have their values, whatever the names that
bodies introduce stand for. -/
theorem Writable.fillsSlot (he : r.Writable o.cseThreshold e) (hb : r.layerBody o plan buffers auxAt e = .ok b)
    {slot : String} {x : Expression} (hslot : readText slot = .ok x) {code : List (Stmt Expression)}
    (hcode : readStmts (writeSlot slot b) = .ok code) (hfree : ∀ n, Body.Introduced n → n ∉ t.names)
    (hx : ∀ u, SameNames t u → w.eval u x = .ok (.num (ofInt k))) (hk : k < length) (hlength : length < 2 ^ 32)
    {scope : Scope Float} {call : Call → Except Error Float} (hrespects : RespectsShifts call)
    (hleaves : ∀ l ∈ e.leaves, ∃ text y, renderExpr o.dialect (r.readCall o plan buffers auxAt) l = .ok text ∧
      IsText .operand text [y] ∧ ∀ v, l.eval scope call = .ok v → ∀ u, SameNames t u → w.eval u y = .ok (.num v))
    {v : Float} (hv : e.eval scope call = .ok v) : FillsSlot limits w length code t k (.num v) := by
  intro f named hfind
  have hintroduced := Body.introduced_of_render hb
  have hout : ¬ Body.Introduced "out" := fun h => absurd h.underscore (by decide)
  obtain ⟨es, y, hes, hdeclared, hy⟩ := Body.readStmts_of_render hb he.regular he.shared he.refs fun l hl => by
    obtain ⟨text, y, htext, hy, -⟩ := hleaves l hl
    exact ⟨text, y, htext, hy⟩
  have hwrite : readStmts [.write slot b.result] = .ok [.write x y] := by
    rw [readStmts, readStmt_write hslot (hy.lower (by decide : 1 ≤ 5)).cond.readText]
    rfl
  obtain rfl := Except.ok.inj (hcode.symm.trans (readStmts_append hes hwrite))
  have hnames : declared (es ++ [.write x y] : List (Stmt Expression)) = declared b.statements := by
    rw [declared_append, hdeclared]
    exact List.append_nil _
  have hentered : SameNames t (t.enter (declared b.statements)) := fun n hn =>
    Locals.find?_enter fun hmem => hn (hintroduced n hmem)
  obtain ⟨u, hrun, hvalue, hunames, hother⟩ := Body.runStmts_of_render (w := w) hb he.regular he.shared he.refs
    (s := t.enter (declared b.statements)) (by simp) hrespects (fun l hl => by
      obtain ⟨text, y, htext, hy, heval⟩ := hleaves l hl
      refine ⟨text, y, htext, hy, fun v hv u _ hother => heval v hv u fun n hn => ?_⟩
      rw [hother n fun hmem => hn (hintroduced n hmem), hentered n hn]) hv hes hy limits
  have hsame : SameNames t u := fun n hn =>
    (hother n fun hmem => hn (hintroduced n hmem)).trans (hentered n hn)
  have hrest := runStmt_write limits ((hsame "out" hout).trans hfind) (hx u hsame) hvalue (by omega) (by omega)
    hlength
  have hleft : (u.assign "out" (Value.slots length (Function.update f ((k : Int).toNat) (.num v)) named)).names =
      declared b.statements ++ t.names := by
    rw [Locals.names_assign, hunames, Locals.names_enter]
  refine ⟨_, ?_, Locals.names_leave hleft, fun n hn => ?_, named, ?_⟩
  · rw [hnames, runStmts_append hrun]
    exact runStmts_singleton hrest
  · by_cases hmem : n ∈ declared b.statements
    · rw [Locals.find?_eq_none (hfree n (hintroduced n hmem)), Locals.find?_eq_none]
      rw [Locals.names_leave hleft]
      exact hfree n (hintroduced n hmem)
    · rw [Locals.find?_leave hleft hmem, Locals.find?_assign_of_ne hn, hother n hmem, Locals.find?_enter hmem]
  · rw [Locals.find?_leave hleft fun hmem => hout (hintroduced _ hmem), Locals.find?_assign_self]
    · rfl
    · exact Locals.mem_names_of_find? ((hsame "out" hout).trans hfind)

end

/-! ## Groups that can be run -/

/-- A group whose code can be run. Scripts read the texts of the recurrence as they are, also where the auxiliary
index is fixed at slot zero. No parameter has a name that the code uses for something else, and the calls of the
rules find buffers and have shifts that slots can be added to. -/
structure RunnableGroup (r : Recurrence) (plan : LayerPlan) (g : LayerGroup) (buffers : List Buffer) : Prop where
  scripted : r.Scripted
  aux : plan.aux ∈ r.indices
  indices : plan.layerIndices = r.indices.filter (· != plan.aux)
  rules : ∀ lr ∈ g.rules, lr.rule ∈ r.rules
  params : ∀ n ∈ r.params, n ≠ "out" ∧ n ≠ "N_VALUES" ∧ ¬ Body.Introduced n
  names : ∀ b ∈ buffers, IsText .operand b.name [.name b.name] ∧ b.name ≠ "out" ∧ ¬ Body.Introduced b.name
  reads : ∀ lr ∈ g.rules, ∀ c ∈ lr.rule.expr.calls, ∃ b,
    buffers.find? (fun b => b.signature == r.layerSignature plan c) = some b
  shifts : ∀ lr ∈ g.rules, ∀ c ∈ lr.rule.expr.calls, (c.shiftAt plan.auxSlot).natAbs ≤ 2 ^ 52
  starts : ∀ lr ∈ g.rules, ∀ start, lr.role = .general start → 0 ≤ start
  zeros : ∀ lr ∈ g.rules, lr.role = .zero →
    ∀ t ∈ (lr.rule.expr.substitute (fixed plan.aux "0")).texts, Readable t
  slots : ∀ lr ∈ g.rules, ∀ expr, lr.role = .max expr → isOneLine expr ∧ Readable expr

/-- The one slot of a rule is named by a text of the recurrence. -/
theorem mem_texts_of_auxRole {rule : Rule} (hrule : rule ∈ r.rules) {aux e : String}
    (h : r.auxRole rule aux = .ok (.max e)) : e ∈ r.texts := by
  obtain ⟨c, hc, op, hon⟩ := auxRole_max h
  refine List.mem_append_right _ (List.mem_flatMap.2 ⟨rule, hrule, List.mem_append_left _ ?_⟩)
  refine List.mem_flatMap.2 ⟨c, hc, ?_⟩
  rw [Constraint.onAux?] at hon
  split at hon
  · cases hon
    exact List.mem_cons_of_mem _ (List.mem_singleton_self _)
  · split at hon
    · cases hon
      exact List.mem_cons_self
    · cases hon

/-- **The groups of a plan can be run.** What is asked for beside the names and texts of the recurrence is that the
text of a single slot stays on its line. -/
theorem Scripted.runnableGroup (h : r.Scripted) {padding : Amount} {plan : LayerPlan}
    (hplan : r.planLayers padding = .ok plan) {g : LayerGroup} (hg : g ∈ plan.groups) {buffers : List Buffer}
    (hbuffers : r.buffers plan g = .ok buffers)
    (hparams : ∀ n ∈ r.params, n ≠ "out" ∧ n ≠ "N_VALUES" ∧ ¬ Body.Introduced n)
    (hshifts : ∀ lr ∈ g.rules, ∀ c ∈ lr.rule.expr.calls, (c.shiftAt plan.auxSlot).natAbs ≤ 2 ^ 52)
    (hzeros : ∀ lr ∈ g.rules, lr.role = .zero →
      ∀ t ∈ (lr.rule.expr.substitute (fixed plan.aux "0")).texts, Readable t)
    (hlines : ∀ lr ∈ g.rules, ∀ expr, lr.role = .max expr → isOneLine expr) : r.RunnableGroup plan g buffers := by
  have hr := h.built.wellFormed
  have hplanned := planned_of_planLayersIn hplan
  have hmember := hplanned.gathered.member g hg
  have hrules : ∀ lr ∈ g.rules, lr.rule ∈ r.rules := fun lr hlr => (sortedRules_perm r).subset (hmember lr hlr).1
  have his : ∀ i ∈ plan.layerIndices, isIdentifier i := by
    rw [hplanned.layerIndices]
    exact fun i hi => hr.identifiers i (List.mem_of_mem_filter hi)
  have hnames : ∀ b ∈ buffers, b.name.toList.head? = some 'p' := by
    obtain ⟨signatures, -, hcollected, -⟩ := buffers_eq_ok hbuffers
    intro b hb
    obtain ⟨place, hplace⟩ := hcollected b hb
    rw [hplace.name, bufferName]
    split
    · rfl
    · rw [String.toList_append]
      rfl
  refine ⟨h, hr.aux _ hplanned.aux, hplanned.layerIndices, hrules, hparams, fun b hb => ⟨?_, ?_, ?_⟩,
    fun lr hlr c hc => ?_, hshifts, fun lr hlr start hrole => ?_, hzeros, fun lr hlr e hrole => ⟨?_, ?_⟩⟩
  · exact isText_bufferName hbuffers b hb
  · intro heq
    have hfirst := hnames b hb
    rw [heq] at hfirst
    cases hfirst
  · intro hintroduced
    cases (hnames b hb).symm.trans hintroduced.underscore
  · obtain ⟨b, hb, -⟩ := find?_signature his (hplanned.gathered.spelled_calls h.built hg) hbuffers
      (List.mem_flatMap.2 ⟨lr, hlr, hc⟩)
    exact ⟨b, hb⟩
  · exact auxRole_general (hrole ▸ (hmember lr hlr).2.1)
  · exact hlines lr hlr e hrole
  · exact h.readable (mem_texts_of_auxRole (hrules lr hlr) (hrole ▸ (hmember lr hlr).2.1))

section
variable {o : CodegenOptions} {plan : LayerPlan} {g : LayerGroup} {buffers : List Buffer} {layer : String → Int}
  {size : Int} {vars : RuntimeVars Float} {w : World Float} {s t u : Locals Float} {limits : Limits} {length : Nat}

theorem HasRuleLayer.wrote (hs : r.HasRuleLayer plan layer size vars w s) (h : r.RunnableGroup plan g buffers)
    {f : Nat → Value Float} (ht : Wrote s t length f) : r.HasRuleLayer plan layer size vars w t := by
  have hother {n : String} (hn : n ∈ r.params) : t.find? n = s.find? n := ht.others n (h.params n hn).1
  refine ⟨fun i hi => ?_, ?_, fun v hv => ?_, ?_, fun n hn => ?_⟩
  · rw [hother (List.mem_append_left _ (List.mem_of_mem_filter (h.indices ▸ hi)))]
    exact hs.index i hi
  · rw [Locals.read_congr (ht.others "N_VALUES" (by decide))]
    exact hs.count
  · rw [hother (List.mem_append_right _ hv)]
    exact hs.var v hv
  · rw [ht.names]
    exact hs.aux
  · rw [ht.names]
    exact hs.free n hn

/-- What a block finds at a slot is what the function had before: it may have written to its buffer, and the
auxiliary index may be in scope. -/
structure InBlock (plan : LayerPlan) (s t : Locals Float) : Prop where
  others : ∀ n, n ≠ "out" → n ≠ plan.aux → t.find? n = s.find? n
  names : ∀ n ∈ t.names, n = plan.aux ∨ n ∈ s.names

/-- A function that computes a layer has the names of the point of a slot. -/
theorem HasRuleLayer.hasNames (hs : r.HasRuleLayer plan layer size vars w s) (h : r.RunnableGroup plan g buffers)
    (ht : InBlock plan s t) {names : List String} {a : Int}
    (hat : plan.aux ∈ names → t.find? plan.aux = some ⟨plan.aux, some (.num (ofInt a))⟩) :
    r.HasNames vars (r.layerPoint plan.aux layer a) names t := by
  have hother {n : String} (hn : n ∈ r.params) (hne : n ≠ plan.aux) : t.find? n = s.find? n :=
    ht.others n (h.params n hn).1 hne
  refine ⟨fun i n x hn hmem hx => ?_, fun v hv => ?_, fun n hn => ?_⟩
  · rw [getElem?_layerPoint hn, Option.some.injEq] at hx
    have hindex := List.mem_of_getElem? hn
    by_cases hne : n = plan.aux
    · subst hne
      rw [← hx, if_pos rfl]
      exact hat hmem
    · rw [← hx, if_neg hne, hother (List.mem_append_left _ hindex) hne]
      refine hs.index n ?_
      rw [h.indices, List.mem_filter]
      exact ⟨hindex, by simpa using hne⟩
  · have hne : v ≠ plan.aux := by
      rintro rfl
      exact h.scripted.built.runtime_not_index hv h.aux
    rw [hother (List.mem_append_right _ hv) hne]
    exact hs.var v hv
  · have hout : n ≠ "out" := by
      rintro rfl
      exact absurd hn (by decide)
    have hne : n ≠ plan.aux := by
      rintro rfl
      exact h.scripted.notMem_of_isElementary hn (List.mem_append_left _ h.aux)
    rw [ht.others n hout hne]
    exact Locals.find?_eq_none (hs.free n (.inl hn))

theorem HasNames.congr {point : List Float} {names : List String} (ht : r.HasNames vars point names t)
    (hparams : ∀ n ∈ r.params, ¬ Body.Introduced n) (hsame : SameNames t u) : r.HasNames vars point names u where
  index i n x hn hmem hx := by
    rw [hsame n (hparams n (List.mem_append_left _ (List.mem_of_getElem? hn)))]
    exact ht.index i n x hn hmem hx
  var v hv := by
    rw [hsame v (hparams v (List.mem_append_right _ hv))]
    exact ht.var v hv
  free n hn := by
    rw [hsame n fun hintroduced => hintroduced.not_isElementary hn]
    exact ht.free n hn

/-- **A leaf of a body has its value at a slot**, whatever the names that bodies introduce stand for: an operand
reads the point of the slot, and a call the slot of its buffer. -/
theorem RunnableGroup.exists_leaf (h : r.RunnableGroup plan g buffers) (ho : o.target = .js) (hw : w.Elementary)
    {lr : LayerRule} (hlr : lr ∈ g.rules) {k : Nat} (hk : k ≤ 2 ^ 32)
    (hp : r.Passable vars (r.layerPoint plan.aux layer k)) {names : List String} (hnames : names ⊆ r.params)
    (ht : r.HasNames vars (r.layerPoint plan.aux layer k) names t) {auxAt : Option Int} (hat : ∀ a ∈ auxAt, a = k)
    (haux : auxAt = none → t.find? plan.aux = some ⟨plan.aux, some (.num (ofInt k))⟩)
    {call : Call → Except Error Float}
    (hfinds : ∀ c ∈ lr.rule.expr.calls, ∀ v, call c = .ok v → r.Finds plan buffers t k c v)
    {e l : Expr} (he : r.Writable o.cseThreshold e) (hcalls : e.calls = lr.rule.expr.calls) (hl : l ∈ e.leaves)
    {scope : Scope Float} (hcarry : Carries (l.eval scope call)
      (l.eval ((r.pointScope vars (r.layerPoint plan.aux layer k)).only names) call)) :
    ∃ text y, renderExpr o.dialect (r.readCall o plan buffers auxAt) l = .ok text ∧ IsText .operand text [y] ∧
      ∀ v, l.eval scope call = .ok v → ∀ u, SameNames t u → w.eval u y = .ok (.num v) := by
  have hprovides {u : Locals Float} (hu : SameNames t u) :=
    (ht.congr (fun n hn => (h.params n hn).2.2) hu).provides h.scripted hp hw hnames
  rcases he.leaves l hl with ⟨c, rfl⟩ | hoperand
  · have hc : c ∈ lr.rule.expr.calls := hcalls ▸ Expr.mem_calls.2 hl
    obtain ⟨b, hb⟩ := h.reads lr hlr c hc
    have hzero : IsText .operand o.dialect.zero [.num 0.0] := by
      have htext : o.dialect.zero = "0" := by simp [Dialect.zero, CodegenOptions.dialect, ho]
      exact htext ▸ ⟨_, rfl, .num⟩
    have hindex : IsText .operand plan.aux [.name plan.aux] :=
      h.scripted.isText_param (List.mem_append_left _ h.aux)
    obtain ⟨text, htext, hread⟩ : ∃ text, r.readCall o plan buffers auxAt c = .ok text ∧
        IsText .operand text [slotScript plan.aux (.num 0.0) auxAt b.name (c.shiftAt plan.auxSlot)] :=
      exists_readCall hzero (fun _ => hindex) hb (h.names b (List.mem_of_find?_eq_some hb)).1
    refine ⟨text, _, htext, hread, fun v hv u hu => ?_⟩
    have hfound : r.Finds plan buffers u k c v :=
      (hfinds c hc v hv).congr fun b hb _ => hu _ (h.names b hb).2.2
    refine hfound.eval_slotScript (hprovides hu).numbers hb (h.shifts lr hlr c hc) (by omega) (by omega) hat ?_
    intro hnone
    rw [hu plan.aux (h.params _ (List.mem_append_left _ h.aux)).2.2]
    exact haux hnone
  · obtain ⟨text, htext, hread⟩ := h.scripted.exists_operand (d := o.dialect) ho (r.readCall o plan buffers auxAt)
      (fun _ => .undefined) hoperand
    refine ⟨text, _, htext, hread, fun v hv u hu => ?_⟩
    exact h.scripted.kept_operand hoperand (hprovides hu) call _ v (hcarry v hv)

section
variable {call : Nat → Call → Except Error Float} {lr : LayerRule} {b : Body} {code : List (Stmt Expression)}
  {k : Nat} {v : Float}

variable (h : r.RunnableGroup plan g buffers) (ho : o.target = .js) (hw : w.Elementary)
  (hvars : ∀ fn : MathFn, vars fn.name = none)
  (htables : ∀ v ∈ r.runtimeVars, ∀ xs, vars v = some (.table xs) → xs.length < 2 ^ 32)
  (hsize : size ≤ length) (hlength : length < 2 ^ 32) (hrespects : ∀ k, RespectsShifts (call k))
  (hs : r.HasRuleLayer plan layer size vars w s)
  (hfinds : ∀ lr ∈ g.rules, ∀ c ∈ lr.rule.expr.calls, ∀ k : Nat, (k : Int) < size → ∀ v, call k c = .ok v →
    r.Finds plan buffers s k c v)
  (hlr : lr ∈ g.rules)

include h hs in
/-- Names that bodies introduce are not in scope. -/
theorem HasRuleLayer.introduced_notMem (ht : InBlock plan s t) : ∀ n, Body.Introduced n → n ∉ t.names := by
  intro n hn hmem
  rcases ht.names n hmem with rfl | hmem
  · exact (h.params _ (List.mem_append_left _ h.aux)).2.2 hn
  · exact hs.free n (.inr hn) hmem

include h hs hfinds hlr in
/-- Calls find in a block what they found before. -/
theorem HasRuleLayer.finds (hk : (k : Int) < size) (ht : InBlock plan s t) :
    ∀ c ∈ lr.rule.expr.calls, ∀ v, call k c = .ok v → r.Finds plan buffers t k c v := fun c hc v hv =>
  (hfinds lr hlr c hc k hk v hv).congr fun b hb hmem => ht.others b.name (h.names b hb).2.1 fun heq =>
    hs.aux (heq ▸ hmem)

include h ho hw hvars htables hsize hlength hrespects hs hfinds hlr in
/-- **The body of a rule at a slot of the loop** writes the value of the rule at the point of the slot. -/
theorem RunnableGroup.fillsSlot (hb : r.layerBody o plan buffers none lr.rule.expr = .ok b)
    (hcode : readStmts (writeSlot plan.aux b) = .ok code) (hk : (k : Int) < size) (ht : InBlock plan s t)
    (hindex : t.find? plan.aux = some ⟨plan.aux, some (.num (ofInt k))⟩)
    (hv : lr.rule.expr.eval (r.pointScope vars (r.layerPoint plan.aux layer k)) (call k) = .ok v) :
    FillsSlot limits w length code t k (.num v) := by
  have hmem := h.rules lr hlr
  have hparam : plan.aux ∈ r.params := List.mem_append_left _ h.aux
  have he := h.scripted.writable_rule hmem o.cseThreshold
  have hp : r.Passable vars (r.layerPoint plan.aux layer k) := passable_layerPoint hvars htables
  refine he.fillsSlot hb ((h.scripted.isText_param hparam).binary 1).cond.readText hcode
    (hs.introduced_notMem h ht) (fun u hu => ?_) (by omega) hlength (hrespects k) (fun l hl => ?_) hv
  · have hfind := (hu plan.aux (h.params _ hparam).2.2).trans hindex
    exact Locals.read_of_find? hfind
  · refine h.exists_leaf ho hw hlr (by omega) hp (List.Subset.refl _) (hs.hasNames h ht fun _ => hindex)
      (by simp) (fun _ => hindex) (hs.finds h hfinds hlr hk ht) he rfl hl ?_
    exact h.scripted.carries_only (h.scripted.value_elementary hvars _) (expr_mem_exprs hmem) hl _

include h ho hw hvars htables hsize hlength hrespects hs hfinds hlr in
/-- **The body of a rule at slot zero**, where the auxiliary index is fixed. -/
theorem RunnableGroup.fillsSlot_zero (hrole : lr.role = .zero)
    (hb : r.layerBody o plan buffers (some 0) (lr.rule.expr.substitute (fixed plan.aux "0")) = .ok b)
    (hcode : readStmts (writeSlot "0" b) = .ok code) (hpos : 0 < size)
    (hv : lr.rule.expr.eval (r.pointScope vars (r.layerPoint plan.aux layer 0)) (call 0) = .ok v) :
    FillsSlot limits w length code s 0 (.num v) := by
  have hmem := h.rules lr hlr
  have he := h.scripted.writable_fixed hmem (h.zeros lr hlr hrole) o.cseThreshold
  have hp : r.Passable vars (r.layerPoint plan.aux layer ((0 : Nat) : Int)) := passable_layerPoint hvars htables
  have ht : InBlock plan s s := ⟨fun _ _ _ => rfl, fun _ hn => .inr hn⟩
  have hat : (r.pointScope vars (r.layerPoint plan.aux layer 0)).value plan.aux = some (ofInt (0 : Whole).toInt) := by
    rw [layerPoint_value h.aux, if_pos rfl]
    rfl
  have hleaves : ∀ l ∈ lr.rule.expr.leaves, (∃ c, l = .call c) ∨ l.Fixable r.indices := fun l hl =>
    (h.scripted.isOperand_rule hmem hl).imp_right (h.scripted.fixable_leaf (expr_mem_exprs hmem) hl)
  have hfixed := h.scripted.carries_aux h.aux (w := 0) (by decide) hat hleaves (fun l hl =>
    h.scripted.carries_only (h.scripted.value_elementary hvars _) (expr_mem_exprs hmem) hl _) v hv
  refine he.fillsSlot hb readText_zero hcode (hs.introduced_notMem h ht) (fun u hu => rfl) (by omega) hlength
    (hrespects 0) (fun l hl => ?_) hfixed
  refine h.exists_leaf ho hw hlr (by omega) hp (fun n hn => List.mem_of_mem_filter hn)
    (hs.hasNames h ht fun hmem => ?_) (by simp) (by simp) (hs.finds h hfinds hlr hpos ht) he
    (Expr.calls_substitute _ _) hl (.refl _)
  simp at hmem

end

end

end Recurrence

end RecurrenceCompiler
