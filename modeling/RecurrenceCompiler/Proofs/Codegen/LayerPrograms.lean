import RecurrenceCompiler.Proofs.Codegen.BaseValues
import RecurrenceCompiler.Proofs.Codegen.RuleFills

/-!
# Programs for layers

The accessor of a recurrence makes a buffer of zeros with as many slots as the layer has, has it filled and reads one
slot of it (`runStmts_accessor`). A layer is filled from other layers, so a function that fills buffers calls itself
through its program. `Laid` is what it leaves in the end, and a program comes to that if calls may nest deep enough
and loops may run often enough (`computes_laid`).
-/

namespace RecurrenceCompiler

open Text Decimal Arith Script

namespace Script

/-- A family knows the number of slots of a layer and fills buffers of zeros with it. -/
structure Family.Lays (f : Family Expression) (limits : Limits) (w : World Float) (numbers vars : List (Value Float))
    (size : Int) (out : Nat → Float) : Prop where
  sized : f.sizeOf w numbers = .ok ⟨.num (ofInt size), numbers⟩
  filled : ∀ length : Nat, size ≤ length → length < 2 ^ 32 → ∃ named,
    f.fill limits w (numbers ++ [Value.slots length (fun _ => .num 0.0) []] ++ vars) =
      .ok ⟨.undefined, numbers ++ [Value.slots length (fun k => .num (out k)) named] ++ vars⟩

/-! ## Accessors -/

/-- What an accessor gives for a slot: zero if the layer has no such slot. -/
def slotIn (size : Int) (out : Nat → Float) (a : Int) : Float :=
  if 0 ≤ a ∧ a < size then out a.toNat else 0.0

/-- A name that an accessor is given. It is none of the two that the accessor declares. -/
structure Given (s : Locals Float) (n : String) (v : Value Float) : Prop where
  size : n ≠ "size"
  out : n ≠ "out"
  find : s.find? n = some ⟨n, some v⟩

/-- An accessor that is asked for a slot of a layer. -/
structure Family.Asked (f : Family Expression) (numbers vars : List (Value Float)) (a : Int) (s : Locals Float) :
    Prop where
  index : List.Forall₂ (Given s) f.layerIndices numbers
  aux : Given s f.aux (.num (ofInt a))
  vars : List.Forall₂ (Given s) f.vars vars
  declared : "size" ∈ s.names ∧ "out" ∈ s.names
  free : ∀ n ∈ ["Array", f.layer, f.sizeName], n ∉ s.names

section
variable {f : Family Expression} {w : World Float} {numbers vars : List (Value Float)} {size a : Int}
  {out : Nat → Float} {s t : Locals Float} {limits : Limits} {n : String} {v : Value Float}

/-- What is given stays as the accessor goes on. -/
theorem Given.assign (h : Given s n v) {m : String} (hm : m = "size" ∨ m = "out") (u : Value Float) :
    Given (s.assign m u) n v where
  size := h.size
  out := h.out
  find := by
    rw [Locals.find?_assign_of_ne, h.find]
    rcases hm with rfl | rfl
    · exact h.size
    · exact h.out

theorem Family.Asked.assign (h : f.Asked numbers vars a s) {m : String} (hm : m = "size" ∨ m = "out")
    (u : Value Float) : f.Asked numbers vars a (s.assign m u) where
  index := h.index.imp fun _ _ hn => hn.assign hm u
  aux := h.aux.assign hm u
  vars := h.vars.imp fun _ _ hn => hn.assign hm u
  declared := by
    rw [Locals.names_assign]
    exact h.declared
  free := by
    rw [Locals.names_assign]
    exact h.free

/-- The names of functions are those of the surroundings. -/
theorem Family.Asked.read_free (h : f.Asked numbers vars a s) (hn : n ∈ ["Array", f.layer, f.sizeName]) :
    s.read w.names n = w.names n := by
  rw [Locals.read, Locals.find?_eq_none (h.free n hn)]

/-- Names that are given are passed on. -/
theorem evalAll_given {ns : List String} {vs : List (Value Float)} (h : List.Forall₂ (Given s) ns vs) :
    List.Forall₂ (fun e v => e.eval (s.read w.names) w.value = .ok v) (ns.map Expression.name) vs := by
  rw [List.forall₂_map_left_iff]
  exact h.imp fun _ _ hn => Locals.read_of_find? hn.find

/-- An accessor asks for the number of slots first. -/
theorem Family.Asked.runStmt_size (h : f.Asked numbers vars a s)
    (hcomputes : w.Computes f.layer numbers vars size out) : runStmt limits w s
      (.value "size" (.call (.name f.sizeName) (f.layerIndices.map .name))) =
        .ok (s.assign "size" (.num (ofInt size)), none) := by
  obtain ⟨sized, hname, hvalue⟩ := hcomputes.sized
  have heval : w.eval s (.call (.name f.sizeName) (f.layerIndices.map .name)) = .ok (.num (ofInt size)) := by
    rw [World.eval, Expression.eval, Expression.eval, h.read_free (by simp), Family.sizeName, hname,
      Recurrence.evalAll_of_forall₂ (evalAll_given h.index)]
    exact hvalue
  rw [runStmt, heval]
  rfl

/-- It tests whether the layer has the slot. -/
theorem Family.Asked.test_outside (h : f.Asked numbers vars a s)
    (hsize : s.find? "size" = some ⟨"size", some (.num (ofInt size))⟩) (ha : a.natAbs ≤ 2 ^ 53)
    (hlimit : size.natAbs ≤ 2 ^ 53) :
    w.test s (.either (.binary .lt (.name f.aux) (.num 0.0)) (.binary .ge (.name f.aux) (.name "size"))) =
      .ok (!decide (0 ≤ a ∧ a < size)) := by
  have haux : w.eval s (.name f.aux) = .ok (.num (ofInt a)) := Locals.read_of_find? h.aux.find
  have hcount : w.eval s (.name "size") = .ok (.num (ofInt size)) := Locals.read_of_find? hsize
  have hbelow : w.test s (.binary .lt (.name f.aux) (.num 0.0)) = .ok (decide (a < 0)) := by
    rw [World.test_binary haux rfl]
    refine congrArg Except.ok ?_
    rw [Bool.eq_iff_iff, decide_eq_true_iff]
    exact indexArithmetic_double.lt_iff (isInt_ofInt ha) isInt_zero
  have habove : w.test s (.binary .ge (.name f.aux) (.name "size")) = .ok (decide (size ≤ a)) := by
    rw [World.test_binary haux hcount]
    refine congrArg Except.ok ?_
    rw [Bool.eq_iff_iff, decide_eq_true_iff]
    exact indexArithmetic_double.le_iff (isInt_ofInt hlimit) (isInt_ofInt ha)
  rw [World.test_either_of hbelow habove, ← Bool.decide_or, ← decide_not]
  exact congrArg Except.ok (decide_eq_decide.2 (by omega))

/-- It makes a table with a slot for each of the layer. -/
theorem Family.Asked.runStmt_zeros (h : f.Asked numbers vars a s) (limits : Limits) (hhost : w.MakesBuffers)
    (hsize : s.find? "size" = some ⟨"size", some (.num (ofInt size))⟩) (hpos : 0 ≤ size) (hlimit : size < 2 ^ 32) :
    runStmt limits w s (.value "out" (.zeros (.name "Array") (.name "size"))) =
      .ok (s.assign "out" (Value.slots size.toNat (fun _ => .num 0.0) []), none) := by
  have hcount : s.read w.names "size" = .ok (.num (ofInt size)) := Locals.read_of_find? hsize
  have hzeros := zeros_eq (isInt_ofInt (i := size) (by omega)) (by omega)
  rw [if_pos ⟨hpos, hlimit⟩, Value.ofItems_replicate] at hzeros
  have heval : w.eval s (.zeros (.name "Array") (.name "size")) =
      .ok (Value.slots size.toNat (fun _ => .num 0.0) []) := by
    rw [World.eval, Expression.eval, Expression.eval, h.read_free (by simp), hhost.array, Expression.eval, hcount]
    exact hzeros
  rw [runStmt, heval]
  rfl

/-- It has the table filled. -/
theorem Family.Asked.runStmt_fill (h : f.Asked numbers vars a s) (limits : Limits)
    (hcomputes : w.Computes f.layer numbers vars size out) (hpos : 0 ≤ size) (hlimit : size < 2 ^ 32)
    (hout : s.find? "out" = some ⟨"out", some (Value.slots size.toNat (fun _ => .num 0.0) [])⟩) : ∃ named,
    runStmt limits w s (.run (.call (.name f.layer) (f.layerIndices.map .name ++ [.name "out"] ++ f.vars.map .name))) =
      .ok (s.assign "out" (Value.slots size.toNat (fun k => .num (out k)) named), none) := by
  obtain ⟨fill, hname, hfill⟩ := hcomputes.filled
  obtain ⟨named, hcall⟩ := hfill size.toNat (by omega) (by omega)
  generalize hfilled : Value.slots size.toNat (fun k => .num (out k)) named = filled at hcall
  have hpassed : Expression.evalAll (s.read w.names) w.value
      (f.layerIndices.map .name ++ [.name "out"] ++ f.vars.map .name) =
        .ok (numbers ++ [Value.slots size.toNat (fun _ => .num 0.0) []] ++ vars) := by
    have hbuffer : (Expression.name "out").eval (s.read w.names) w.value =
        .ok (Value.slots size.toNat (fun _ => .num 0.0) []) := Locals.read_of_find? hout
    exact Recurrence.evalAll_of_forall₂ (List.rel_append (List.rel_append (evalAll_given h.index) (.cons hbuffer .nil))
      (evalAll_given h.vars))
  have hkept {u : Locals Float} {ns : List String} {vs : List (Value Float)} (hns : List.Forall₂ (Given u) ns vs) :
      List.Forall₂ (fun e v => ∀ n, e = .name n → u.find? n = some ⟨n, some v⟩) (ns.map Expression.name) vs := by
    rw [List.forall₂_map_left_iff]
    refine hns.imp fun _ _ hn m hm => ?_
    cases hm
    exact hn.find
  have hback : s.takeBack (f.layerIndices.map .name ++ [.name "out"] ++ f.vars.map .name)
      (numbers ++ [filled] ++ vars) = s.assign "out" filled := by
    have hrest := Locals.takeBack_append (hkept (h.assign (.inr rfl) filled).vars) [] []
    rw [List.append_nil, List.append_nil] at hrest
    rw [List.append_assoc, List.append_assoc, Locals.takeBack_append (hkept h.index), List.singleton_append,
      List.singleton_append, Locals.takeBack, hrest]
    rfl
  have hrun := World.run_call ((h.read_free (by simp)).trans hname) hpassed hcall
  rw [hback] at hrun
  refine ⟨named, ?_⟩
  rw [hfilled, runStmt, hrun]
  rfl

/-- **An accessor returns the slot of the layer that it is asked for**, and zero if the layer has no such slot. -/
theorem Family.Asked.runStmts_accessor (h : f.Asked numbers vars a s) (limits : Limits) (hhost : w.MakesBuffers)
    (hcomputes : w.Computes f.layer numbers vars size out) (hpos : 0 ≤ size) (hlimit : size < 2 ^ 32)
    (ha : a.natAbs ≤ 2 ^ 53) :
    ∃ t, runStmts limits w s f.accessorFunction.body = .ok (t, some (.num (slotIn size out a))) := by
  have hsized := h.assign (.inl rfl) (.num (ofInt size))
  have hsize : (s.assign "size" (.num (ofInt size))).find? "size" = some ⟨"size", some (.num (ofInt size))⟩ :=
    Locals.find?_assign_self h.declared.1
  have htest := hsized.test_outside (w := w) hsize ha (by omega)
  rw [Family.accessorFunction]
  dsimp only
  rw [runStmts, h.runStmt_size hcomputes]
  dsimp only [bind, Except.bind]
  rw [runStmts, runStmt, htest, slotIn]
  by_cases hslot : 0 ≤ a ∧ a < size
  · have hzeros := hsized.assign (.inr rfl) (Value.slots size.toNat (fun _ => .num 0.0) [])
    obtain ⟨named, hfill⟩ := hzeros.runStmt_fill limits hcomputes hpos hlimit
      (Locals.find?_assign_self hsized.declared.2)
    have hfilled := hzeros.assign (.inr rfl) (Value.slots size.toNat (fun k => .num (out k)) named)
    generalize htable : Value.slots size.toNat (fun k => .num (out k)) named = table at hfill hfilled
    rw [decide_eq_true hslot, if_pos hslot]
    dsimp only [bind, Except.bind]
    rw [if_neg (by decide)]
    dsimp only [pure, Except.pure]
    rw [runStmts, hsized.runStmt_zeros limits hhost hsize hpos hlimit]
    dsimp only [bind, Except.bind]
    rw [runStmts, hfill]
    dsimp only [bind, Except.bind]
    refine ⟨_, Recurrence.runStmts_ret ?_⟩
    rw [World.eval, Expression.eval, Expression.eval, Locals.read_assign_self hzeros.declared.2, Expression.eval,
      Locals.read_of_find? hfilled.aux.find, ← htable]
    exact Value.element_slots hslot.1 (by omega) (by omega)
  · rw [decide_eq_false hslot, if_neg hslot]
    exact ⟨_, rfl⟩

end

end Script

namespace Recurrence

variable {r : Recurrence} {o : CodegenOptions} {resolve : Resolver} {plan : LayerPlan} {g : LayerGroup}
  {l : BaseLayer} {layer : String → Int} {size a : Int} {vars : RuntimeVars Float} {padding : Amount}

/-! ## What layers hold -/

/-- What the base cases of a layer leave in a slot of a layer of zeros: the value of the one that is written last. -/
def baseSlot (r : Recurrence) (plan : LayerPlan) (l : BaseLayer) (vars : RuntimeVars Float) (k : Nat) : Float :=
  ((((l.bases.map (·.2)).filter fun b => isWritten plan l b k).getLast?).map fun b =>
    (b.value.eval (r.pointScope vars (r.slotPoint plan l k)) noCall).toOption.getD 0.0).getD 0.0

/-- A layer that base cases bind. -/
structure AtLayer (plan : LayerPlan) (l : BaseLayer) (layer : String → Int) : Prop where
  mem : l ∈ plan.baseLayers
  index : ∀ i ∈ plan.layerIndices, layer i = indexAt plan l 0 i

/-- A layer without a case. -/
structure EmptyLayer (r : Recurrence) (plan : LayerPlan) (layer : String → Int) : Prop where
  small : ∀ i ∈ plan.layerIndices, (layer i).natAbs ≤ 2 ^ 52
  bases : ∀ l ∈ plan.baseLayers, (BaseLayer.guard plan.layerIndices l).holds (r.layerValues plan layer) = .ok false
  groups : ∀ g ∈ plan.groups, (r.layerGuard plan g).holds (r.layerValues plan layer) = .ok false

/-- **What the code of a plan leaves in the slots of a layer.** The base cases of a layer are written one after the
other. Otherwise the layers that the group of the layer reads are computed first, and then the rules of the group
are written from them. -/
inductive Laid (r : Recurrence) (plan : LayerPlan) (vars : RuntimeVars Float) :
    (String → Int) → Int → (Nat → Float) → Prop
  | base {l : BaseLayer} {layer : String → Int} : AtLayer plan l layer → 0 ≤ l.size → l.size < 2 ^ 32 →
      (∀ b ∈ l.bases.map (·.2), ∀ a, isWritten plan l b a →
        ∃ x, b.value.eval (r.pointScope vars (r.slotPoint plan l a)) noCall = .ok x) →
      Laid r plan vars layer l.size (r.baseSlot plan l vars)
  | rules {g : LayerGroup} {layer : String → Int} {size : Int} {sizes : (String → Int) → Int}
      {outs : (String → Int) → Nat → Float} : r.RuleLayer plan g layer size →
      (∀ c ∈ g.calls, Laid r plan vars (r.layerOfCall plan layer c) (sizes (r.layerOfCall plan layer c))
        (outs (r.layerOfCall plan layer c))) →
      (∀ c ∈ g.calls, sizes (r.layerOfCall plan layer c) + extraSlots plan g < 2 ^ 32) →
      (∀ lr ∈ g.rules, ∀ k : Nat, (k : Int) < size →
        g.writes (r.layerValues plan layer) (ofInt size) (ofInt k) lr = true → ∃ x,
          lr.rule.expr.eval (r.pointScope vars (r.layerPoint plan.aux layer k)) (r.layerCall plan outs layer k) =
            .ok x) →
      Laid r plan vars layer size (r.ruleSlot plan g vars outs layer size)
  | empty {layer : String → Int} : r.EmptyLayer plan layer → Laid r plan vars layer 0 fun _ => 0.0

theorem Laid.range {out : Nat → Float} (h : r.Laid plan vars layer size out) : 0 ≤ size ∧ size < 2 ^ 32 := by
  cases h with
  | base _ hpos hlimit => exact ⟨hpos, hlimit⟩
  | @rules g _ _ _ _ hlayer =>
    have hlimit := hlayer.limit
    have hextra := extraSlots_nonneg plan g
    exact ⟨hlayer.nonneg, by omega⟩
  | empty => decide

/-! ## Families -/

section
variable {f : Family Expression} {bases groups : List (LayerCase Expression)} {w : World Float} {limits : Limits}
  {out : Nat → Float}

/-- The values of a base layer are what its indices are at. -/
theorem AtLayer.layerArgs_eq (h : AtLayer plan l layer) (hlayered : r.BaseLayered plan) :
    layerArgs l = layerNumbers plan layer := by
  have hvalues := congrArg (List.map fun i => Value.num (ofInt i)) (hlayered.values_eq h.mem 0)
  rw [List.map_map, List.map_map] at hvalues
  rw [layerArgs, layerNumbers]
  refine hvalues.trans (List.map_congr_left fun i hi => ?_)
  rw [h.index i hi]
  rfl

/-- The number of slots of a layer is that of its case. -/
theorem ReadsFamily.sizeOf_of_select (hf : r.ReadsFamily o resolve plan f bases groups) {c : LayerCase Expression}
    (hselect : Family.selectCase w (layerLocals plan layer) f.cases = .ok (some c))
    (hsized : w.eval (layerLocals plan layer) c.size = .ok (.num (ofInt size))) :
    f.sizeOf w (layerNumbers plan layer) = .ok ⟨.num (ofInt size), layerNumbers plan layer⟩ := by
  rw [Family.sizeOf, hf.layerIndices]
  change (Family.selectCase w (layerLocals plan layer) f.cases >>= _) = _
  rw [hselect]
  dsimp only [bind, Except.bind]
  change (w.eval (layerLocals plan layer) c.size >>= _) = _
  rw [hsized]
  rfl

/-- **A family lays a base layer.** -/
theorem ReadsFamily.lays_base (hf : r.ReadsFamily o resolve plan f bases groups) (h : r.LayerRunnable plan)
    (hplan : r.planLayers padding = .ok plan) (ho : o.target = .js) (hw : w.Elementary)
    (hvars : ∀ fn : MathFn, vars fn.name = none)
    (htables : ∀ v ∈ r.runtimeVars, ∀ xs, vars v = some (.table xs) → xs.length < 2 ^ 32)
    (hat : AtLayer plan l layer) (hpos : 0 ≤ l.size) (hlimit : l.size < 2 ^ 32)
    (hvalue : ∀ b ∈ l.bases.map (·.2), ∀ a, isWritten plan l b a →
      ∃ x, b.value.eval (r.pointScope vars (r.slotPoint plan l a)) noCall = .ok x)
    (hpasses : l.size < limits.passes) :
    f.Lays limits w (layerNumbers plan layer) (r.runtimeVars.map vars.script) l.size (r.baseSlot plan l vars) := by
  have hlayered := baseLayered_of_planLayersIn hplan
  have hargs := hat.layerArgs_eq hlayered
  have hfixed {n : String} (hn : n = "out" ∨ n = "N_VALUES") : n ∉ r.params := fun hmem =>
    h.names.fixed n hmem (by rcases hn with rfl | rfl <;> simp)
  let value (b : BaseCase) (a : Int) : Float :=
    (b.value.eval (r.pointScope vars (r.slotPoint plan l a)) noCall).toOption.getD 0.0
  have hvalue : ∀ b ∈ l.bases.map (·.2), ∀ a, isWritten plan l b a →
      b.value.eval (r.pointScope vars (r.slotPoint plan l a)) noCall = .ok (value b a) := by
    intro b hb a ha
    obtain ⟨x, hx⟩ := hvalue b hb a ha
    simp only [value, hx]
    rfl
  refine ⟨?_, fun length hsize hlength => ?_⟩
  · have hreads := h.scripted.reads_layer 0 vars hlayered hat.mem hw
    obtain ⟨c, hc, hselect⟩ := h.scripted.selectCase_baseLayer hlayered h.binds hat.mem groups hf.bases hreads
    rw [fillArgs, hargs, List.append_assoc, ofParams_layer] at hreads hselect
    exact hf.sizeOf_of_select (hf.cases ▸ hselect) (hc.eval_size hreads (by omega))
  · obtain ⟨named, hfill⟩ := h.scripted.fill_baseLayer hlayered h.binds hat.mem ho (hfixed (.inl rfl))
      (hfixed (.inr rfl)) hvars htables hw hpos hsize hlength hpasses (h.bases l hat.mem) hvalue hf
    refine ⟨named, ?_⟩
    rw [fillArgs, hargs, Value.ofItems_replicate] at hfill
    have hslots : (fun k => Value.num (r.baseSlot plan l vars k)) =
        (l.bases.map (·.2)).foldl (withBase plan l value) fun _ => .num 0.0 := by
      funext k
      rw [foldl_withBase, baseSlot]
      cases ((l.bases.map (·.2)).filter fun b => isWritten plan l b k).getLast? <;> rfl
    rw [hslots]
    exact hfill

/-- **A family lays a rule layer**, if the functions around it compute the layers that it reads. -/
theorem ReadsFamily.lays_rules (hf : r.ReadsFamily o resolve plan f bases groups) (h : r.LayerRunnable plan)
    (hplan : r.planLayers padding = .ok plan) (ho : o.target = .js) (hw : w.Elementary) (hhost : w.MakesBuffers)
    (hvars : ∀ fn : MathFn, vars fn.name = none)
    (htables : ∀ v ∈ r.runtimeVars, ∀ xs, vars v = some (.table xs) → xs.length < 2 ^ 32)
    (hlayer : r.RuleLayer plan g layer size) {sizes : (String → Int) → Int} {outs : (String → Int) → Nat → Float}
    (hreads : r.ComputesReads plan g layer size vars w sizes outs)
    (hvalue : ∀ lr ∈ g.rules, ∀ k : Nat, (k : Int) < size →
      g.writes (r.layerValues plan layer) (ofInt size) (ofInt k) lr = true → ∃ v,
        lr.rule.expr.eval (r.pointScope vars (r.layerPoint plan.aux layer k)) (r.layerCall plan outs layer k) = .ok v)
    (hpasses : size < limits.passes) : f.Lays limits w (layerNumbers plan layer) (r.runtimeVars.map vars.script) size
      (r.ruleSlot plan g vars outs layer size) where
  sized := by
    have hlayered := baseLayered_of_planLayersIn hplan
    have hgathered := (planned_of_planLayersIn hplan).gathered
    obtain ⟨c, hc, hselect⟩ := hf.selectCase_group h.scripted hlayered hgathered h.binds hw hlayer
    exact hf.sizeOf_of_select hselect (hc.eval_size h.scripted hlayered h.bound.2 hw hlayer)
  filled _ hsize hlength :=
    hlayer.fill_group h hplan ho hw hhost hvars htables hreads hvalue hpasses hsize hlength hf

/-- **A family leaves a layer without a case as it is**, which has no slots. -/
theorem ReadsFamily.lays_empty (hf : r.ReadsFamily o resolve plan f bases groups) (h : r.LayerRunnable plan)
    (hplan : r.planLayers padding = .ok plan) (hw : w.Elementary) (hempty : r.EmptyLayer plan layer) :
    f.Lays limits w (layerNumbers plan layer) (r.runtimeVars.map vars.script) 0 fun _ => 0.0 := by
  have hlayered := baseLayered_of_planLayersIn hplan
  have hgathered := (planned_of_planLayersIn hplan).gathered
  have hreads : w.Reads (layerLocals plan layer) (r.layerValues plan layer) :=
    h.scripted.reads_layerLocals hlayered.indices hw
  have hselect : Family.selectCase w (layerLocals plan layer) f.cases = .ok none := by
    rw [hf.cases]
    refine selectCase_eq_none (List.forall_mem_append.2 ⟨fun c hc => ?_, fun c hc => ?_⟩)
    · obtain ⟨l, hl, hc⟩ := exists_of_forall₂ hf.bases hc
      exact hc.test_guard h.scripted hlayered h.binds hl hreads (hempty.bases l hl)
    · obtain ⟨g, hg, hc⟩ := exists_of_forall₂ hf.groups hc
      exact hc.test_guard h.scripted hgathered hg hreads (hempty.groups g hg)
  refine ⟨?_, fun length _ _ => ⟨[], ?_⟩⟩
  · rw [Family.sizeOf, hf.layerIndices]
    change (Family.selectCase w (layerLocals plan layer) f.cases >>= _) = _
    rw [hselect]
    rfl
  · rw [Family.fill, hf.layerIndices, List.append_assoc, ofParams_layer, hselect]
    rfl

/-- **A function that is called with a point asks for the slot of the point.** -/
theorem ReadsFamily.asked (hf : r.ReadsFamily o resolve plan f bases groups) (h : r.LayerRunnable plan)
    (hlayered : r.BaseLayered plan) : f.Asked (layerNumbers plan layer) (r.runtimeVars.map vars.script) a
      ((Locals.ofParams r.params (pointArgs r.runtimeVars vars (r.layerPoint plan.aux layer a))).enter
        ["size", "out"]) := by
  have hpoint : r.HasPoint vars (r.layerPoint plan.aux layer a) ((Locals.ofParams r.params
      (pointArgs r.runtimeVars vars (r.layerPoint plan.aux layer a))).enter []) :=
    hasPoint_params h.scripted.built h.names.introduced (List.length_map ..) (List.forall_mem_nil _)
  have hgiven {n : String} {v : Value Float} (hn : n ∈ r.params)
      (hfind : (Locals.ofParams r.params (pointArgs r.runtimeVars vars (r.layerPoint plan.aux layer a))).find? n =
        some ⟨n, some v⟩) :
      Given ((Locals.ofParams r.params (pointArgs r.runtimeVars vars (r.layerPoint plan.aux layer a))).enter
        ["size", "out"]) n v := by
    have hsize : n ≠ "size" := fun heq => h.names.fixed n hn (by simp [heq])
    have hout : n ≠ "out" := fun heq => h.names.fixed n hn (by simp [heq])
    exact ⟨hsize, hout, (Locals.find?_enter (by simp [hsize, hout])).trans hfind⟩
  have hindex {n : String} (hn : n ∈ r.indices) := hgiven (List.mem_append_left _ hn)
    (hpoint.index _ n _ (List.getElem?_idxOf hn) (getElem?_layerPoint (List.getElem?_idxOf hn)))
  refine ⟨?_, ?_, ?_, by simp, fun n hn hmem => ?_⟩
  · rw [hf.layerIndices, layerNumbers, List.forall₂_map_right_iff, List.forall₂_same]
    intro i hi
    have hgivenIndex := hindex (hlayered.mem_indices hi)
    rwa [if_neg (hlayered.mem_layerIndices.1 hi).2] at hgivenIndex
  · have hgivenAux := hindex (List.mem_of_getElem? hlayered.aux)
    rw [if_pos rfl] at hgivenAux
    rw [hf.aux]
    exact hgivenAux
  · rw [hf.vars, List.forall₂_map_right_iff, List.forall₂_same]
    exact fun v hv => hgiven (List.mem_append_right _ hv) (hpoint.var v hv)
  · obtain ⟨hlayer, hsizeName⟩ := hf.names
    rw [hlayer, hsizeName] at hn
    rw [Locals.names_enter, Locals.names_ofParams, List.mem_append] at hmem
    rcases hmem with hmem | hmem
    · have hshort : ∀ m ∈ ["size", "out"], 'C' ∉ m.toList := by decide
      simp only [List.mem_cons, List.not_mem_nil, or_false] at hn
      rcases hn with rfl | rfl | rfl
      · exact absurd hmem (by decide)
      · exact hshort _ hmem (mem_layerName r.name)
      · exact hshort _ hmem (mem_sizeName r.name)
    · refine h.names.fixed n hmem ?_
      simp only [List.mem_cons, List.not_mem_nil, or_false] at hn ⊢
      rcases hn with rfl | rfl | rfl <;> simp

end

/-! ## Units -/

section
variable {p : Program} {i : Nat} {f : Family Expression} {bases groups : List (LayerCase Expression)}
  {imports : List (String × Nat)} {limits : Limits} {depth : Nat} {out : Nat → Float}

/-- **The functions of a unit for layers can make buffers.** -/
theorem LayerUnit.makesBuffers (h : LayerUnit p o resolve r plan i f bases groups imports) :
    (unitWorld p i limits (depth + 1) : World Float).MakesBuffers :=
  ⟨nameIn_of_host h.unit (h.foreign (by decide)) (by decide) rfl,
    nameIn_of_host h.unit (h.foreign (by decide)) (by decide) rfl, fun _ => rfl⟩

/-- The unit has the functions for layers. -/
theorem LayerUnit.nameIn_eq (h : LayerUnit p o resolve r plan i f bases groups imports) {n : String}
    (hn : n = layerName r.name ∨ n = layerName r.name ++ "Size") :
    (p.nameIn i n : Except Error (Value Float)) = .ok (.function (.inUnit i n)) := by
  obtain ⟨hlayer, hsize⟩ := h.reads.names
  have hdefines : (Content.family f).defines n = true := by
    rw [Content.defines, hlayer, hsize]
    rcases hn with rfl | rfl <;> simp
  rw [Program.nameIn, h.unit]
  dsimp only
  rw [hdefines, if_pos rfl]

/-- **The functions of a unit compute the layers that its family lays.** -/
theorem LayerUnit.computes (h : LayerUnit p o resolve r plan i f bases groups imports)
    (hlays : f.Lays limits (unitWorld p i limits depth) (layerNumbers plan layer) (r.runtimeVars.map vars.script) size
      out) :
    (unitWorld p i limits (depth + 1)).Computes (layerName r.name) (layerNumbers plan layer)
      (r.runtimeVars.map vars.script) size out where
  sized := by
    refine ⟨_, h.nameIn_eq (.inr rfl), ?_⟩
    rw [World.value, unitWorld]
    dsimp only
    rw [h.invoke_size, hlays.sized]
    rfl
  filled := by
    refine ⟨_, h.nameIn_eq (.inl rfl), fun length hle hlt => ?_⟩
    obtain ⟨named, hfill⟩ := hlays.filled length hle hlt
    refine ⟨named, ?_⟩
    rw [unitWorld]
    dsimp only
    rw [h.invoke_layer, hfill]

/-- **The functions of a unit compute the layers of its recurrence**, as long as calls may nest deep enough and loops
may run often enough. -/
theorem LayerUnit.computes_laid (h : LayerUnit p o resolve r plan i f bases groups imports) (hr : r.LayerRunnable plan)
    (hplan : r.planLayers padding = .ok plan) (ho : o.target = .js) (hvars : ∀ fn : MathFn, vars fn.name = none)
    (htables : ∀ v ∈ r.runtimeVars, ∀ xs, vars v = some (.table xs) → xs.length < 2 ^ 32) {out : Nat → Float}
    (hlaid : r.Laid plan vars layer size out) : ∃ depth passes : Nat, ∀ (limits : Limits) (fuel : Nat), depth ≤ fuel →
      passes ≤ limits.passes → (unitWorld p i limits fuel).Computes (layerName r.name) (layerNumbers plan layer)
        (r.runtimeVars.map vars.script) size out := by
  induction hlaid with
  | @base l layer hat hpos hlimit hvalue =>
    refine ⟨2, l.size.toNat + 1, fun limits fuel hfuel hpasses => ?_⟩
    obtain ⟨depth, rfl⟩ : ∃ depth, fuel = depth + 2 := ⟨fuel - 2, by omega⟩
    exact h.computes (h.reads.lays_base hr hplan ho h.elementary hvars htables hat hpos hlimit hvalue (by omega))
  | @rules g layer size sizes outs hlayer hreads hsizes hvalue ih =>
    choose! depth passes hcomputes using ih
    refine ⟨(g.calls.map depth).sum + 2, (g.calls.map passes).sum + size.toNat + 1, fun limits fuel hfuel hpasses => ?_⟩
    obtain ⟨k, rfl⟩ : ∃ k, fuel = k + 2 := ⟨fuel - 2, by omega⟩
    -- Each layer that the group reads is computed within these bounds, one call deeper.
    have hcalls : r.ComputesReads plan g layer size vars (unitWorld p i limits (k + 1)) sizes outs := by
      refine ⟨fun c hc => ?_, fun c hc => ?_⟩
      · have hlimit := hlayer.limit
        have hsize := hsizes c hc
        exact ⟨(hreads c hc).range.1, by omega⟩
      · have hdepth : depth c ≤ (g.calls.map depth).sum := List.single_le_sum (by simp) _ (List.mem_map_of_mem hc)
        have hrun : passes c ≤ (g.calls.map passes).sum := List.single_le_sum (by simp) _ (List.mem_map_of_mem hc)
        exact hcomputes c hc limits (k + 1) (by omega) (by omega)
    exact h.computes (h.reads.lays_rules hr hplan ho h.elementary h.makesBuffers hvars htables hlayer hcalls hvalue
      (by omega))
  | @empty layer hempty =>
    refine ⟨2, 0, fun limits fuel hfuel _ => ?_⟩
    obtain ⟨depth, rfl⟩ : ∃ depth, fuel = depth + 2 := ⟨fuel - 2, by omega⟩
    exact h.computes (h.reads.lays_empty hr hplan h.elementary hempty)

/-- **The accessor of a unit returns the slot of the layer that the functions of the unit compute.** -/
theorem LayerUnit.invoke_accessor (h : LayerUnit p o resolve r plan i f bases groups imports)
    (hr : r.LayerRunnable plan) (hlayered : r.BaseLayered plan)
    (hcomputes : (unitWorld p i limits (depth + 1)).Computes (layerName r.name) (layerNumbers plan layer)
      (r.runtimeVars.map vars.script) size out) (hpos : 0 ≤ size) (hlimit : size < 2 ^ 32) (ha : a.natAbs ≤ 2 ^ 53) :
    ∃ left, p.invoke limits (depth + 2) (.inUnit i (coeffName r.name))
      (pointArgs r.runtimeVars vars (r.layerPoint plan.aux layer a)) = .ok ⟨.num (slotIn size out a), left⟩ := by
  have hasked : f.Asked (layerNumbers plan layer) (r.runtimeVars.map vars.script) a ((Locals.ofParams r.params
      (pointArgs r.runtimeVars vars (r.layerPoint plan.aux layer a))).enter ["size", "out"]) :=
    h.reads.asked hr hlayered
  rw [← h.reads.names.1] at hcomputes
  obtain ⟨t, hrun⟩ := hasked.runStmts_accessor limits h.makesBuffers hcomputes hpos hlimit ha
  have hparams : f.accessorFunction.params = r.params := by
    rw [Family.accessorFunction, h.reads.indices, h.reads.vars, params]
  rw [h.invoke_eq, Content.run, h.reads.accessor, if_pos (beq_self_eq_true _)]
  refine exists_run_of_ret (s := t) ?_
  rw [hparams]
  exact hrun

end

end Recurrence

end RecurrenceCompiler
