import RecurrenceCompiler.Proofs.Codegen.LayerFamilies

/-!
# Filling base layers

A family of layers is asked for a layer by its indices. The guards of base layers tell them apart, so the
function that fills a buffer runs the code of the base layer with these values (`selectCase_baseLayer`). It
leaves a buffer of zeros with the base cases of the layer written one after the other (`fill_baseLayer`).
-/

namespace RecurrenceCompiler

open Text Decimal Arith Script

namespace Recurrence

variable {r : Recurrence} {o : CodegenOptions} {resolve : Resolver} {plan : LayerPlan} {l l' : BaseLayer}

/-! ## Guards of base layers -/

/-- The values of the indices of a layer. -/
def baseEnv (plan : LayerPlan) (l : BaseLayer) : Env Float :=
  fun n => if n ∈ plan.layerIndices then some (ofInt (indexAt plan l 0 n)) else none

/-- The guard of a base layer compares each layer index to what it is at in the layer. -/
theorem BaseLayered.guard_eq (h : r.BaseLayered plan) (hl : l ∈ plan.baseLayers) :
    BaseLayer.guard plan.layerIndices l =
      ⟨plan.layerIndices.map fun i => Constraint.equals i (indexAt plan l 0 i)⟩ := by
  have hzip : (plan.layerIndices.zip l.values).map (fun p => Constraint.equals p.1 p.2.toInt) =
      (plan.layerIndices.zip (l.values.map Whole.toInt)).map fun p => Constraint.equals p.1 p.2 := by
    rw [List.zip_map_right, List.map_map]
    rfl
  have hself : ∀ is : List String, (is.zip (is.map (indexAt plan l 0))).map (fun p => Constraint.equals p.1 p.2) =
      is.map fun i => Constraint.equals i (indexAt plan l 0 i) := by
    intro is
    induction is with
    | nil => rfl
    | cons i is ih => rw [List.map_cons, List.zip_cons_cons, List.map_cons, List.map_cons, ih]
  rw [BaseLayer.guard, hzip, h.values_eq hl 0, hself]

/-- The sides of the guard of a base layer are indices and integers. -/
theorem Scripted.isSide_baseLayer (h : r.Scripted) (hplan : r.BaseLayered plan) (hbinds : r.BindsExactly)
    (hl : l ∈ plan.baseLayers) : ∀ t ∈ (BaseLayer.guard plan.layerIndices l).sides, IsSide t := by
  intro t ht
  rw [hplan.guard_eq hl, Guard.sides, List.mem_flatMap] at ht
  obtain ⟨c, hc, ht⟩ := ht
  obtain ⟨i, hi, rfl⟩ := List.mem_map.1 hc
  rcases List.mem_cons.1 ht with rfl | ht
  · exact h.isSide_param (List.mem_append_left _ (hplan.mem_indices hi))
  · rw [List.mem_singleton.1 ht]
    exact isSide_intText (isInt_ofInt (hplan.natAbs_indexAt hbinds hl (by decide) (hplan.mem_indices hi))).finite

/-- The guard of a base layer is tested as it holds at the layer. -/
theorem ReadsBase.test_guard {c : LayerCase Expression} (hc : r.ReadsBase o plan l c) (h : r.Scripted)
    (hplan : r.BaseLayered plan) (hbinds : r.BindsExactly) (hl : l ∈ plan.baseLayers) {w : World Float}
    {s : Locals Float} {env : Env Float} (hreads : w.Reads s env) {b : Bool}
    (hb : (BaseLayer.guard plan.layerIndices l).holds env = .ok b) : w.test s c.guard = .ok b := by
  obtain ⟨x, hx, htest⟩ := (BaseLayer.guard plan.layerIndices l).exists_test (h.isSide_baseLayer hplan hbinds hl)
  obtain rfl := Except.ok.inj (hx.readText.symm.trans hc.guard)
  exact htest hreads b hb

/-- The number of slots of a base layer is written in its code. -/
theorem ReadsBase.eval_size {c : LayerCase Expression} (hc : r.ReadsBase o plan l c) {w : World Float}
    {s : Locals Float} {env : Env Float} (hreads : w.Reads s env) (hsize : l.size.natAbs ≤ 2 ^ 53) :
    w.eval s c.size = .ok (.num (ofInt l.size)) := by
  have hfinite := (isInt_ofInt hsize).finite
  obtain ⟨x, hx, hside⟩ := isSide_intText hfinite
  obtain rfl := Except.ok.inj ((hx.lower (by decide : 1 ≤ 5)).cond.readText.symm.trans hc.size)
  exact hside hreads _ (eval_eq_ok_iff.2 (hasValue_intText hfinite _).2)

/-- **The guard of a base layer holds in that layer alone.** -/
theorem BaseLayered.holds_guard (h : r.BaseLayered plan) (hr : r.WellFormed) (hbinds : r.BindsExactly)
    (hl : l ∈ plan.baseLayers) (hl' : l' ∈ plan.baseLayers) :
    (BaseLayer.guard plan.layerIndices l').holds (baseEnv plan l) =
      .ok (decide (l'.values.map Whole.toInt = l.values.map Whole.toInt)) := by
  have hfinite {i : String} (hi : i ∈ plan.layerIndices) : IsFinite (ofInt (indexAt plan l' 0 i)) :=
    (isInt_ofInt (h.natAbs_indexAt hbinds hl' (by decide) (h.mem_indices hi))).finite
  rw [h.guard_eq hl']
  have hequals : ∀ i ∈ plan.layerIndices, (Constraint.equals i (indexAt plan l' 0 i)).holds (baseEnv plan l) =
      .ok (decide (indexAt plan l' 0 i = indexAt plan l 0 i)) := by
    intro i hi
    have hmem := h.mem_indices hi
    have hname := hr.identifiers i hmem
    have hvalue : baseEnv plan l i = some (ofInt (indexAt plan l 0 i)) := if_pos hi
    refine Constraint.holds_eq_ok_iff.2
      ⟨_, _, (hasValue_identifier hname).2 hvalue, (hasValue_intText (hfinite hi) _).2, ?_⟩
    exact h.beq_indexAt hbinds hl hl' (by decide) hmem
  have hiff : l'.values.map Whole.toInt = l.values.map Whole.toInt ↔
      ∀ i ∈ plan.layerIndices, indexAt plan l' 0 i = indexAt plan l 0 i := by
    rw [h.values_eq hl' 0, h.values_eq hl 0, List.map_inj_left]
  by_cases hall : ∀ i ∈ plan.layerIndices, indexAt plan l' 0 i = indexAt plan l 0 i
  · rw [decide_eq_true (hiff.2 hall), Guard.holds_eq_true_iff, List.forall_mem_map]
    intro i hi
    rw [hequals i hi, decide_eq_true (hall i hi)]
  · rw [decide_eq_false (mt hiff.1 hall)]
    refine holds_eq_false_of_ne (List.forall_mem_map.2 fun i hi => ⟨_, hequals i hi⟩) ?_
    rw [Ne, Guard.holds_eq_true_iff, List.forall_mem_map]
    refine fun htrue => hall fun i hi => ?_
    have hholds := htrue i hi
    rw [hequals i hi] at hholds
    exact of_decide_eq_true (Except.ok.inj hholds)

/-- **The function that fills a buffer finds the base layer with its indices.** -/
theorem Scripted.selectCase_baseLayer (h : r.Scripted) (hplan : r.BaseLayered plan) (hbinds : r.BindsExactly)
    (hl : l ∈ plan.baseLayers) {bases : List (LayerCase Expression)} (groups : List (LayerCase Expression))
    (hbases : List.Forall₂ (r.ReadsBase o plan) plan.baseLayers bases) {w : World Float} {s : Locals Float}
    (hreads : w.Reads s (baseEnv plan l)) :
    ∃ c, r.ReadsBase o plan l c ∧ Family.selectCase w s (bases ++ groups) = .ok (some c) := by
  obtain ⟨front, back, hlayers⟩ := List.append_of_mem hl
  have hdistinct := hplan.layers.distinct
  rw [hlayers, List.map_append, List.nodup_append] at hdistinct
  have hbases' := hlayers ▸ hbases
  obtain ⟨before, c, after, rfl, hbefore, hc⟩ := forall₂_split hbases'
  refine ⟨c, hc, ?_⟩
  rw [List.append_assoc, List.cons_append]
  refine selectCase_of_first (fun c' hc' => ?_) ?_
  · obtain ⟨l', hl', hread⟩ := exists_of_forall₂ hbefore hc'
    have hne : l'.values.map Whole.toInt ≠ l.values.map Whole.toInt :=
      hdistinct.2.2 _ (List.mem_map_of_mem hl') _ List.mem_cons_self
    have hmem : l' ∈ plan.baseLayers := hlayers ▸ List.mem_append_left _ hl'
    have hholds := hplan.holds_guard h.built.wellFormed hbinds hl hmem
    rw [decide_eq_false hne] at hholds
    exact hread.test_guard h hplan hbinds hmem hreads hholds
  · have hholds := hplan.holds_guard h.built.wellFormed hbinds hl hl
    rw [decide_eq_true rfl] at hholds
    exact hc.test_guard h hplan hbinds hl hreads hholds

/-! ## Filling a buffer -/

/-- The values of the layer indices as arguments. -/
def layerArgs (l : BaseLayer) : List (Value Float) :=
  l.values.map fun v => .num (ofInt v.toInt)

/-- The arguments for a layer: the values of its indices, a buffer of zeros and the runtime variables. -/
def fillArgs (r : Recurrence) (l : BaseLayer) (length : Nat) (vars : RuntimeVars Float) : List (Value Float) :=
  layerArgs l ++ [.ofItems (List.replicate length (.num 0.0))] ++ r.runtimeVars.map vars.script

section
variable {length : Nat} {vars : RuntimeVars Float} {w : World Float} {limits : Limits}

variable (length vars) in
/-- A layer index has its value for argument. -/
theorem BaseLayered.getElem?_fillArgs (h : r.BaseLayered plan) (hl : l ∈ plan.baseLayers) {i : String}
    (hi : i ∈ plan.layerIndices) : ∃ j : Nat, plan.layerIndices[j]? = some i ∧
      (r.fillArgs l length vars)[j]? = some (.num (ofInt (indexAt plan l 0 i))) := by
  obtain ⟨j, hj⟩ := List.getElem?_of_mem hi
  refine ⟨j, hj, ?_⟩
  have hvalue : (l.values.map Whole.toInt)[j]? = some (indexAt plan l 0 i) := by
    rw [h.values_eq hl 0, List.getElem?_map, hj]
    rfl
  rw [List.getElem?_map, Option.map_eq_some_iff] at hvalue
  obtain ⟨v, hv, hat⟩ := hvalue
  have harg : (layerArgs l)[j]? = some (.num (ofInt (indexAt plan l 0 i))) := by
    rw [layerArgs, List.getElem?_map, hv, ← hat]
    rfl
  have hlt := (List.getElem?_eq_some_iff.1 harg).1
  rw [fillArgs, List.append_assoc, List.getElem?_append_left hlt, harg]

variable (length vars) in
/-- **The function that fills a buffer knows which layer it is asked for.** -/
theorem Scripted.reads_layer (h : r.Scripted) (hplan : r.BaseLayered plan) (hl : l ∈ plan.baseLayers)
    (hw : w.Elementary) :
    w.Reads (Locals.ofParams plan.layerIndices (r.fillArgs l length vars)) (baseEnv plan l) := by
  have hnodup : plan.layerIndices.Nodup := by
    rw [hplan.indices]
    exact h.built.wellFormed.distinct.filter _
  refine hw.reads (fun n v hv => ?_) fun n hn => Locals.find?_eq_none ?_
  · rw [baseEnv] at hv
    split at hv
    · next hmem =>
      cases hv
      obtain ⟨j, hj, harg⟩ := hplan.getElem?_fillArgs length vars hl hmem
      exact Locals.find?_ofParams hnodup hj harg
    · cases hv
  · rw [Locals.names_ofParams]
    exact fun hmem => h.notMem_of_isElementary hn (List.mem_append_left _ (hplan.mem_indices hmem))

/-- The names of a function that fills a buffer, before its statements run. -/
def fillLocals (r : Recurrence) (plan : LayerPlan) (l : BaseLayer) (length : Nat) (vars : RuntimeVars Float) :
    Locals Float :=
  ((Locals.ofParams (plan.layerIndices ++ ["out"] ++ r.runtimeVars) (r.fillArgs l length vars)).enter
    ["N_VALUES"]).assign "N_VALUES" (.num (ofInt l.size))

theorem names_fillLocals : (r.fillLocals plan l length vars).names =
    ["N_VALUES"] ++ (plan.layerIndices ++ ["out"] ++ r.runtimeVars) := by
  rw [fillLocals, Locals.names_assign, Locals.names_enter, Locals.names_ofParams]

/-- A parameter has its argument. -/
theorem find?_fillLocals (hnodup : (plan.layerIndices ++ ["out"] ++ r.runtimeVars).Nodup) {n : String}
    (hcount : n ≠ "N_VALUES") {i : Nat} {v : Value Float}
    (hn : (plan.layerIndices ++ ["out"] ++ r.runtimeVars)[i]? = some n)
    (hv : (r.fillArgs l length vars)[i]? = some v) :
    (r.fillLocals plan l length vars).find? n = some ⟨n, some v⟩ := by
  rw [fillLocals, Locals.find?_assign_of_ne hcount, Locals.find?_enter (by simpa using hcount)]
  exact Locals.find?_ofParams hnodup hn hv

theorem BaseLayered.length_layerArgs (h : r.BaseLayered plan) (hl : l ∈ plan.baseLayers) :
    (layerArgs l).length = plan.layerIndices.length := by
  have hlength := congrArg List.length (h.values_eq hl 0)
  rw [List.length_map, List.length_map] at hlength
  rw [layerArgs, List.length_map, hlength]

variable (length vars) in
/-- The buffer is one of zeros. -/
theorem BaseLayered.find?_out (h : r.BaseLayered plan) (hl : l ∈ plan.baseLayers)
    (hnodup : (plan.layerIndices ++ ["out"] ++ r.runtimeVars).Nodup) :
    (r.fillLocals plan l length vars).find? "out" =
      some ⟨"out", some (Value.slots length (fun _ => .num 0.0) [])⟩ := by
  refine find?_fillLocals hnodup (by decide) (i := plan.layerIndices.length) ?_ ?_
  · simp
  · rw [fillArgs, ← h.length_layerArgs hl, Value.ofItems_replicate]
    simp

variable (length vars) in
/-- A runtime variable has its value. -/
theorem BaseLayered.find?_var (h : r.BaseLayered plan) (hl : l ∈ plan.baseLayers)
    (hnodup : (plan.layerIndices ++ ["out"] ++ r.runtimeVars).Nodup) {v : String} (hv : v ∈ r.runtimeVars)
    (hcount : v ≠ "N_VALUES") :
    (r.fillLocals plan l length vars).find? v = some ⟨v, some (vars.script v)⟩ := by
  obtain ⟨j, hj⟩ := List.getElem?_of_mem hv
  refine find?_fillLocals hnodup hcount (i := plan.layerIndices.length + 1 + j) ?_ ?_
  · rw [List.getElem?_append_right (by simp)]
    simpa using hj
  · rw [fillArgs, ← h.length_layerArgs hl, List.getElem?_append_right (by simp)]
    simp [hj]

/-- **What fills a buffer has what computes the layer.** -/
theorem Scripted.hasLayer_fillLocals (h : r.Scripted) (hplan : r.BaseLayered plan) (hl : l ∈ plan.baseLayers)
    (hout : "out" ∉ r.params) (hcount : "N_VALUES" ∉ r.params)
    (hnodup : (plan.layerIndices ++ ["out"] ++ r.runtimeVars).Nodup)
    (htables : ∀ v ∈ r.runtimeVars, ∀ xs, vars v = some (.table xs) → xs.length < 2 ^ 32) :
    r.HasLayer plan l vars w (r.fillLocals plan l length vars) := by
  have hparam {n : String} (hn : n ∈ r.params) : n ≠ "N_VALUES" := fun heq => hcount (heq ▸ hn)
  have hvar {v : String} (hv : v ∈ r.runtimeVars) :=
    hplan.find?_var length vars hl hnodup hv (hparam (List.mem_append_right _ hv))
  have hnames : ∀ n, n ∈ (r.fillLocals plan l length vars).names →
      n = "N_VALUES" ∨ n ∈ plan.layerIndices ∨ n = "out" ∨ n ∈ r.runtimeVars := by
    intro n hn
    simpa [names_fillLocals, or_assoc] using hn
  refine ⟨fun i v hv => ?_, ?_, fun v hv x hx => ?_, fun v hv xs hxs => ⟨?_, htables v hv xs hxs⟩, ?_,
    fun n hn => ?_⟩
  · have hi := (Json.mem_of_getField?_zip hv).1
    obtain ⟨j, hj, harg⟩ := hplan.getElem?_fillArgs length vars hl hi
    have hat : indexAt plan l 0 i = v.toInt := by
      rw [indexAt, hv]
      rfl
    refine hat ▸ find?_fillLocals hnodup (hparam (List.mem_append_left _ (hplan.mem_indices hi))) (i := j) ?_ harg
    rw [List.append_assoc, List.getElem?_append_left (List.getElem?_eq_some_iff.1 hj).1, hj]
  · refine Locals.read_assign_self ?_
    rw [Locals.names_enter]
    exact List.mem_cons_self
  · rw [hvar hv, RuntimeVars.script, hx]
    rfl
  · rw [hvar hv, RuntimeVars.script, hxs]
    rfl
  · intro hmem
    have hindex := List.mem_of_getElem? hplan.aux
    have haux : plan.aux ∈ r.params := List.mem_append_left _ hindex
    rcases hnames _ hmem with heq | hi | heq | hv
    · exact hcount (heq ▸ haux)
    · rw [hplan.indices, List.mem_filter] at hi
      simp at hi
    · exact hout (heq ▸ haux)
    · exact h.built.runtime_not_index hv hindex
  · intro hmem
    rcases hnames _ hmem with rfl | hi | rfl | hv
    · exact absurd hn (by decide)
    · exact h.notMem_of_isElementary hn (List.mem_append_left _ (hplan.mem_indices hi))
    · exact absurd hn (by decide)
    · exact h.notMem_of_isElementary hn (List.mem_append_right _ hv)

/-- Statements that write base cases declare no names. -/
theorem declared_baseScripts (bases : List BaseCase) : declared (bases.flatMap (baseScript plan l)) = [] := by
  induction bases with
  | nil => rfl
  | cons b bases ih =>
    rw [List.flatMap_cons, declared_append, ih, List.append_nil, baseScript]
    split
    · rfl
    · split <;> rfl

variable {call : Call → Except Error Float} {value : BaseCase → Int → Float}

/-- **A buffer is filled with the base cases of its layer**, in the order of declaration. -/
theorem Scripted.fill_baseLayer (h : r.Scripted) (hplan : r.BaseLayered plan) (hbinds : r.BindsExactly)
    (hl : l ∈ plan.baseLayers) (ho : o.target = .js) (hout : "out" ∉ r.params) (hcount : "N_VALUES" ∉ r.params)
    (hvars : ∀ fn : MathFn, vars fn.name = none)
    (htables : ∀ v ∈ r.runtimeVars, ∀ xs, vars v = some (.table xs) → xs.length < 2 ^ 32)
    (hw : w.Elementary) (hpos : 0 ≤ l.size) (hsize : l.size ≤ length) (hlength : length < 2 ^ 32)
    (hpasses : l.size < limits.passes)
    (hread : ∀ b ∈ l.bases.map (·.2), ∀ t ∈ (written plan l b b.value).texts, Readable t)
    (hvalue : ∀ b ∈ l.bases.map (·.2), ∀ a, isWritten plan l b a →
      b.value.eval (r.pointScope vars (r.slotPoint plan l a)) call = .ok (value b a))
    {f : Family Expression} {bases groups : List (LayerCase Expression)}
    (hf : r.ReadsFamily o resolve plan f bases groups) :
    ∃ named, f.fill limits w (r.fillArgs l length vars) = .ok ⟨.undefined, layerArgs l ++
      [Value.slots length ((l.bases.map (·.2)).foldl (withBase plan l value) fun _ => .num 0.0) named] ++
        r.runtimeVars.map vars.script⟩ := by
  have hnodup := hf.fillParams_eq ▸ hf.params
  have hreads := h.reads_layer length vars hplan hl hw
  obtain ⟨c, hc, hselect⟩ := h.selectCase_baseLayer hplan hbinds hl groups hf.bases hreads
  obtain ⟨code, hcode, hbody⟩ := hc.body
  have hmem := hplan.mem_bases hl
  have hbody := h.readStmts_baseCode ho (List.mem_of_getElem? hplan.aux) hmem hread hcode hbody
  have hdeclared : declared c.body = [] := by rw [hbody, declared_baseScripts]
  have hlocals : f.caseLocals c (r.fillArgs l length vars) (ofInt l.size) = r.fillLocals plan l length vars := by
    rw [Family.caseLocals, hf.fillParams_eq, hdeclared, fillLocals]
  obtain ⟨t, hrun, hwrote⟩ := runStmts_baseScripts h hplan hbinds hl hout hcount hvars hw hpos hsize hlength hpasses
    hmem hread hvalue (h.hasLayer_fillLocals (w := w) hplan hl hout hcount hnodup htables)
    (hplan.find?_out length vars hl hnodup)
  rw [← hbody, ← hlocals] at hrun
  obtain ⟨named, hlast⟩ := hwrote.out
  refine ⟨named, ?_⟩
  rw [fillArgs] at hselect hreads hrun ⊢
  refine Family.fill_of_run hf.params ?_ ?_ ?_ ?_ ?_ hrun ?_ (fun n _ hne => ?_) hlast
  · rw [hf.layerIndices, hplan.length_layerArgs hl]
  · rw [List.length_map, hf.vars]
  · rw [hf.layerIndices, hf.cases]
    exact hselect
  · rw [hf.layerIndices]
    exact hc.eval_size hreads (by omega)
  · rw [hdeclared, List.forall_mem_singleton, hf.fillParams_eq]
    simp only [List.mem_append, List.mem_singleton]
    rintro ((hn | hn) | hn)
    · exact hcount (List.mem_append_left _ (hplan.mem_indices hn))
    · exact absurd hn (by decide)
    · exact hcount (List.mem_append_right _ hn)
  · exact hwrote.names.trans (congrArg Locals.names hlocals).symm
  · exact (hwrote.others n hne).trans (congrArg (·.find? n) hlocals).symm

end

end Recurrence

end RecurrenceCompiler
