import RecurrenceCompiler.Proofs.Codegen.LayerPrograms

/-!
# Layered programs and interpretation

Interpretation derives a value at a point by the case that is selected there. Layered code has one at a slot by the
case that is written last. Where these are the same case (`Owned`), a layer holds what is derived at the points of its
slots (`slotIn_eq`), by induction on the layers that it is computed from. So the accessor of a layered program returns
what interpretation returns (`generateLayered_returns`).

They are the same case where the layers of a plan have exactly the slots that the validity allows and the rules are
bounded by these (`SlotBounded`): outside of them no rule holds, and inside of them the layered code selects as
interpretation does.
-/

namespace RecurrenceCompiler

open Text Decimal Arith Script

namespace Recurrence

variable {r : Recurrence} {o : CodegenOptions} {resolve : Resolver} {padding : Amount} {plan : LayerPlan}
  {g : LayerGroup} {l : BaseLayer} {layer : String → Int} {size a : Int} {vars : RuntimeVars Float} {out : Nat → Float}

/-! ## Points of layers -/

/-- **A call goes to a slot of the layer that it reads.** -/
theorem BaseLayered.shiftPoint_layerPoint (h : r.BaseLayered plan) (hr : r.WellFormed)
    (hlayer : ∀ i ∈ plan.layerIndices, (layer i).natAbs ≤ 2 ^ 52) (ha : a.natAbs ≤ 2 ^ 52) {c : Call}
    (hshifts : ∀ i, (c.shiftAt i).natAbs ≤ 2 ^ 52) : shiftPoint (r.layerPoint plan.aux layer a) c =
      r.layerPoint plan.aux (r.layerOfCall plan layer c) (a + c.shiftAt plan.auxSlot) := by
  refine List.ext_getElem (by simp [layerPoint]) fun i hi hi' => ?_
  have hlt : i < r.indices.length := by simpa [layerPoint] using hi'
  have hshift : (c.shiftAt i).natAbs ≤ 2 ^ 52 := hshifts i
  simp only [shiftPoint, layerPoint, List.getElem_map, List.getElem_zipIdx, Nat.zero_add]
  refine (add_toFloat (isNegativeZero_ofInt _) _).trans ?_
  change ofInt _ + ofInt (c.shiftAt i) = _
  have hidx : r.indices.idxOf r.indices[i] = i := hr.distinct.idxOf_getElem i hlt
  by_cases haux : r.indices[i] = plan.aux
  · obtain ⟨hlt', haux'⟩ := List.getElem?_eq_some_iff.1 h.aux
    have hslot : i = plan.auxSlot := (List.Nodup.getElem_inj_iff hr.distinct).1 (haux.trans haux'.symm)
    rw [if_pos haux, if_pos haux, ofInt_add (by omega) (by omega) (by omega), hslot]
  · have hmem : r.indices[i] ∈ plan.layerIndices := h.mem_layerIndices.2 ⟨List.getElem_mem hlt, haux⟩
    have hsmall := hlayer _ hmem
    rw [if_neg haux, if_neg haux, ofInt_add (by omega) (by omega) (by omega), layerOfCall, if_pos hmem, hidx]

/-- In a layer of base cases the slots are at the points of the layer. -/
theorem AtLayer.layerPoint_eq (h : AtLayer plan l layer) (hlayered : r.BaseLayered plan) :
    r.layerPoint plan.aux layer a = r.slotPoint plan l a := by
  refine List.map_congr_left fun i hi => congrArg ofInt ?_
  split
  · next haux => rw [haux, hlayered.indexAt_aux]
  · next haux =>
    have hmem : i ∈ plan.layerIndices := hlayered.mem_layerIndices.2 ⟨hi, haux⟩
    obtain ⟨w, hw⟩ := hlayered.exists_value h.mem hmem
    rw [h.index i hmem, indexAt, indexAt, hw]
    rfl

/-- The auxiliary index is at the slot. -/
theorem pointEnv_layerPoint_aux (haux : plan.aux ∈ r.indices) :
    r.pointEnv (r.layerPoint plan.aux layer a) plan.aux = some (ofInt a) := by
  rw [pointEnv, if_pos (List.contains_iff_mem.2 haux), getElem?_layerPoint (List.getElem?_idxOf haux), if_pos rfl]

/-- The values of the layer indices are the same at all points of a layer. -/
theorem layerEnvAt_eq_layerValues :
    r.layerEnvAt plan.aux (r.layerPoint plan.aux layer a) = r.layerValues plan layer :=
  layerEnvAt_layerPoint 0

/-- The values of the layer indices depend on these alone. -/
theorem BaseLayered.layerValues_congr (h : r.BaseLayered plan) {layer' : String → Int}
    (hsame : ∀ i ∈ plan.layerIndices, layer i = layer' i) : r.layerValues plan layer = r.layerValues plan layer' := by
  have hpoint : r.layerPoint plan.aux layer 0 = r.layerPoint plan.aux layer' 0 := by
    refine List.map_congr_left fun i hi => congrArg ofInt ?_
    split
    · rfl
    · next haux => exact hsame i (h.mem_layerIndices.2 ⟨hi, haux⟩)
  rw [layerValues, layerValues, hpoint]

/-- A base layer whose guard holds at a point is the layer of the point. -/
theorem BaseLayered.holds_layerValues (h : r.BaseLayered plan) (hr : r.WellFormed) (hbinds : r.BindsExactly)
    (hl : l ∈ plan.baseLayers)
    (hholds : (BaseLayer.guard plan.layerIndices l).holds (r.pointEnv (r.layerPoint plan.aux layer a)) = .ok true) :
    (BaseLayer.guard plan.layerIndices l).holds (r.layerValues plan layer) = .ok true := by
  rw [h.guard_eq hl, Guard.holds_eq_true_iff, List.forall_mem_map] at hholds ⊢
  intro i hi
  obtain ⟨hmem, hne⟩ := h.mem_layerIndices.1 hi
  have hfinite := (isInt_ofInt (h.natAbs_indexAt hbinds hl (a := 0) (by decide) hmem)).finite
  obtain ⟨x, y, hx, hy, hop⟩ := Constraint.holds_eq_ok_iff.1 (hholds i hi)
  have hname := hr.identifiers i hmem
  refine Constraint.holds_eq_ok_iff.2 ⟨x, y, ?_, ?_, hop⟩
  · rw [← layerEnvAt_eq_layerValues (a := a)]
    refine (hasValue_identifier hname).2 ?_
    rw [layerEnvAt, if_neg (by simpa using hne)]
    exact (hasValue_identifier hname).1 hx
  · obtain rfl := hy.unique (hasValue_intText hfinite _).2
    exact (hasValue_intText hfinite _).2

/-- No base case covers a point of a layer that is none of theirs. -/
theorem BaseLayered.not_atBaseLayer (h : r.BaseLayered plan) (hr : r.WellFormed) (hbinds : r.BindsExactly)
    (hbases : ∀ l ∈ plan.baseLayers,
      (BaseLayer.guard plan.layerIndices l).holds (r.layerValues plan layer) = .ok false) :
    ¬ r.AtBaseLayer plan (r.layerPoint plan.aux layer a) := by
  rintro ⟨l, hl, hholds⟩
  have htrue := h.holds_layerValues hr hbinds hl hholds
  rw [hbases l hl] at htrue
  cases htrue

/-- Where a rule holds, its group holds at the layer. -/
theorem Planned.layerGuard_holds (hplan : r.Planned padding plan) (hr : r.WellFormed) (hg : g ∈ plan.groups)
    {lr : LayerRule} (hlr : lr ∈ g.rules)
    (hholds : (r.fullGuard lr.rule).holds (r.pointEnv (r.layerPoint plan.aux layer a)) = .ok true) :
    (r.layerGuard plan g).holds (r.layerValues plan layer) = .ok true := by
  rw [fullGuard, Guard.and_holds_iff] at hholds
  rw [layerGuard, Guard.and_holds_iff, ← layerEnvAt_eq_layerValues (a := a)]
  refine ⟨Guard.holds_eq_true_iff.2 fun c hc => ?_,
    onLayer_holds.2 fun c hc _ => Guard.holds_eq_true_iff.1 hholds.2 c hc⟩
  have hlayer := onLayer_holds.2 fun c hc (_ : c.mentions plan.aux = false) => Guard.holds_eq_true_iff.1 hholds.1 c hc
  exact Guard.holds_eq_true_iff.1 hlayer c ((hplan.perm_guard hr hg hlr).mem_iff.2 hc)

/-! ## What layers hold -/

/-- The slots behind a layer hold zero. -/
theorem Laid.zero_of_le (h : r.Laid plan vars layer size out) {k : Nat} (hk : size ≤ k) (hsmall : k < 2 ^ 53) :
    out k = 0.0 := by
  cases h with
  | @base l _ hat _ _ hvalue =>
    have hnone : (l.bases.map (·.2)).filter (fun b => isWritten plan l b k) = [] := by
      rw [List.filter_eq_nil_iff]
      intro b _ hwritten
      simp only [isWritten, Bool.and_eq_true, decide_eq_true_eq] at hwritten
      omega
    rw [baseSlot, hnone]
    rfl
  | @rules g _ _ sizes outs hlayer _ _ _ =>
    have hlimit := hlayer.limit
    have hextra := extraSlots_nonneg plan g
    have hnonneg := hlayer.nonneg
    have hnone : g.writer? (r.layerValues plan layer) (ofInt size) (ofInt k) = none := writer?_eq_none fun lr hlr => by
      rw [← Bool.not_eq_true]
      intro hwrites
      exact absurd (lt_of_writes (by omega) hsmall (hlayer.slots lr hlr) hwrites) (by omega)
    rw [ruleSlot]
    change ((g.writer? (r.layerValues plan layer) (ofInt size) (ofInt k)).map _).getD 0.0 = 0.0
    rw [hnone]
    rfl
  | empty => rfl

/-- What a buffer of a layer has at a slot is what an accessor of the layer gives. -/
theorem Laid.slotOf_eq (h : r.Laid plan vars layer size out) (ha : a < 2 ^ 53) : slotOf out a = slotIn size out a := by
  rw [slotOf, slotIn]
  by_cases hneg : a < 0
  · rw [if_pos hneg, if_neg (by omega)]
  · rw [if_neg hneg]
    split
    · rfl
    · exact h.zero_of_le (by omega) (by omega)

/-! ## Owners of slots -/

/-- **The code of each layer counts the case that is selected.** In a slot of a layer the case that is written last
is the selected one, and outside of the layer none is selected. -/
structure Owned (r : Recurrence) (plan : LayerPlan) : Prop where
  base {l : BaseLayer} {layer : String → Int} : AtLayer plan l layer → ∀ k : Nat, (k : Int) < l.size → ∀ chosen,
    r.select (r.pointEnv (r.layerPoint plan.aux layer k)) = .ok chosen →
      r.Settles (r.layerPoint plan.aux layer k) chosen
  rules {g : LayerGroup} {layer : String → Int} {size : Int} : r.RuleLayer plan g layer size → ∀ k : Nat,
    (k : Int) < size → ∀ chosen, r.select (r.pointEnv (r.layerPoint plan.aux layer k)) = .ok chosen →
      chosen = .ofRule? (g.writer? (r.layerValues plan layer) (ofInt size) (ofInt k))
  outside {vars : RuntimeVars Float} {layer : String → Int} {size : Int} {out : Nat → Float} :
    r.Laid plan vars layer size out → ∀ a : Int, a.natAbs < 2 ^ 53 → ¬ (0 ≤ a ∧ a < size) → ∀ chosen,
      r.select (r.pointEnv (r.layerPoint plan.aux layer a)) = .ok chosen → chosen = .primary

variable {x : Float}

/-- A slot of a base layer holds what is derived there. -/
theorem Owned.baseSlot_eq (h : r.Owned plan) (hr : r.LayerRunnable plan) (hlayered : r.BaseLayered plan)
    (hat : AtLayer plan l layer) (hlimit : l.size < 2 ^ 32)
    (hvalue : ∀ b ∈ l.bases.map (·.2), ∀ a, isWritten plan l b a →
      ∃ x, b.value.eval (r.pointScope vars (r.slotPoint plan l a)) noCall = .ok x) {k : Nat} (hk : (k : Int) < l.size)
    (hx : Derivable resolve vars r (r.layerPoint plan.aux layer k) x) : r.baseSlot plan l vars k = x := by
  obtain ⟨chosen, hselect, hchosen⟩ := hx.exists_selected
  have hsettles := h.base hat k hk chosen hselect
  rw [hat.layerPoint_eq hlayered] at hselect hchosen hsettles
  let value (b : BaseCase) (a : Int) : Float :=
    (b.value.eval (r.pointScope vars (r.slotPoint plan l a)) noCall).toOption.getD 0.0
  have hvalue : ∀ b ∈ l.bases.map (·.2), isWritten plan l b k →
      b.value.eval (r.pointScope vars (r.slotPoint plan l k)) noCall = .ok (value b k) := by
    intro b hb hwritten
    obtain ⟨x, hx⟩ := hvalue b hb k hwritten
    simp only [value, hx]
    rfl
  obtain ⟨y, hy, hholds⟩ := hlayered.exists_holdsLast hr.scripted.built.wellFormed hr.binds hat.mem hk (by omega) hvalue
  have hslot : r.baseSlot plan l vars k = y := by
    rw [foldl_withBase] at hy
    rw [baseSlot]
    cases hlast : ((l.bases.map (·.2)).filter fun b => isWritten plan l b k).getLast? with
    | none =>
      rw [hlast] at hy
      exact Value.num.inj hy
    | some b =>
      rw [hlast] at hy
      exact Value.num.inj hy
  have hcalls : ∀ c ∈ chosen.calls, derivedCall resolve vars r (r.slotPoint plan l k) c = noCall c := by
    intro c hc
    cases chosen with
    | base i b =>
      rw [Selection.calls, Expr.calls_of_isArithmetic (hr.scripted.built.readShaped.values b (mem_of_select hselect))]
        at hc
      cases hc
    | rule ρ => exact hsettles.elim
    | primary => cases hc
  have heval := hholds.evalSelection hr.scripted.built (by simp [slotPoint]) hselect hsettles
  rw [← evalSelection_congr hcalls, hchosen] at heval
  rw [hslot]
  exact (Except.ok.inj heval).symm

/-- A slot of a rule layer holds what is derived there, if the layers that the group reads hold what is derived. -/
theorem Owned.ruleSlot_eq (h : r.Owned plan) (hlayer : r.RuleLayer plan g layer size)
    {outs : (String → Int) → Nat → Float} {k : Nat} (hk : (k : Int) < size)
    (hcalls : ∀ c ∈ g.calls, ∀ v, derivedCall resolve vars r (r.layerPoint plan.aux layer k) c = .ok v →
      r.layerCall plan outs layer k c = .ok v)
    (hx : Derivable resolve vars r (r.layerPoint plan.aux layer k) x) :
    r.ruleSlot plan g vars outs layer size k = x := by
  obtain ⟨chosen, hselect, hchosen⟩ := hx.exists_selected
  have howner := h.rules hlayer k hk chosen hselect
  subst howner
  rw [ruleSlot]
  change ((g.writer? (r.layerValues plan layer) (ofInt size) (ofInt k)).map _).getD 0.0 = x
  cases hwriter : g.writer? (r.layerValues plan layer) (ofInt size) (ofInt k) with
  | none =>
    rw [hwriter] at hchosen
    exact Except.ok.inj hchosen
  | some ρ =>
    rw [hwriter] at hchosen
    have hchosen : ρ.expr.eval (r.pointScope vars (r.layerPoint plan.aux layer k))
        (derivedCall resolve vars r (r.layerPoint plan.aux layer k)) = .ok x := hchosen
    obtain ⟨lr, hlr, rfl⟩ : ∃ lr ∈ g.rules, lr.rule = ρ := by
      rw [LayerGroup.writer?, Option.map_eq_some_iff] at hwriter
      obtain ⟨lr, hlr, hrule⟩ := hwriter
      exact ⟨lr, LayerGroup.mem_of_mem_blocks (List.mem_of_mem_filter (List.mem_of_getLast? hlr)), hrule⟩
    have hsame : ∀ c ∈ lr.rule.expr.calls, r.layerCall plan outs layer k c =
        derivedCall resolve vars r (r.layerPoint plan.aux layer k) c := by
      intro c hc
      obtain ⟨v, hv⟩ := lr.rule.expr.needsCalls hchosen c hc
      rw [hv]
      exact hcalls c (List.mem_flatMap.2 ⟨lr, hlr, hc⟩) v hv
    rw [Option.map_some, Option.getD_some, Expr.eval_congr _ hsame, hchosen]
    rfl

/-- A call of a recurrence that calls only itself is derived at the shifted point. -/
theorem derivable_of_derivedCall (hresolve : resolve.Faithful r) {point : List Float} {c : Call}
    (hself : r.isSelf c = true) (h : derivedCall resolve vars r point c = .ok x) :
    Derivable resolve vars r (shiftPoint point c) x := by
  obtain ⟨target, htarget, hvalue⟩ := bind_ok h
  obtain rfl : target = r := by
    rw [callee] at htarget
    rw [Header.isSelf] at hself
    split at htarget
    · exact (Except.ok.inj htarget).symm
    · next t ht =>
      rw [ht] at hself
      obtain rfl := beq_iff_eq.1 hself
      split at htarget
      · next found hfound =>
        obtain rfl := Except.ok.inj htarget
        exact hresolve.root _ hfound
      · cases htarget
  exact derived_eq_ok_iff.1 hvalue

/-- **A layer holds what is derived at the points of its slots.** -/
theorem Laid.slotIn_eq (h : r.Laid plan vars layer size out) (hr : r.LayerRunnable plan)
    (hplan : r.planLayers padding = .ok plan) (howned : r.Owned plan) (hresolve : resolve.Faithful r)
    (ha : a.natAbs < 2 ^ 53) (hx : Derivable resolve vars r (r.layerPoint plan.aux layer a) x) :
    slotIn size out a = x := by
  have hlayered := baseLayered_of_planLayersIn hplan
  have houtside {layer : String → Int} {size a : Int} {out : Nat → Float} {x : Float}
      (h : r.Laid plan vars layer size out) (ha : a.natAbs < 2 ^ 53) (hslot : ¬ (0 ≤ a ∧ a < size))
      (hx : Derivable resolve vars r (r.layerPoint plan.aux layer a) x) : slotIn size out a = x := by
    obtain ⟨chosen, hselect, hchosen⟩ := hx.exists_selected
    obtain rfl := howned.outside h a ha hslot chosen hselect
    rw [slotIn, if_neg hslot]
    exact Except.ok.inj hchosen
  induction h generalizing a x with
  | @base l layer hat hpos hlimit hvalue =>
    by_cases hslot : 0 ≤ a ∧ a < l.size
    · lift a to Nat using hslot.1
      rw [slotIn, if_pos hslot]
      exact howned.baseSlot_eq hr hlayered hat hlimit hvalue hslot.2 hx
    · exact houtside (.base hat hpos hlimit hvalue) ha hslot hx
  | @rules g layer size sizes outs hlayer hreads hsizes hvalue ih =>
    by_cases hslot : 0 ≤ a ∧ a < size
    · have hlimit := hlayer.limit
      have hextra := extraSlots_nonneg plan g
      have hrules := (planned_of_planLayersIn hplan).gathered.mem_rules hlayer.mem_groups
      lift a to Nat using hslot.1
      rw [slotIn, if_pos hslot]
      refine howned.ruleSlot_eq hlayer hslot.2 (fun c hc v hv => ?_) hx
      obtain ⟨lr, hlr, hmem⟩ := List.mem_flatMap.1 hc
      have hshifts := hr.shifts _ (hrules lr hlr) c hmem
      have hshift := hshifts plan.auxSlot
      have hderived := derivable_of_derivedCall hresolve (hr.self _ (hrules lr hlr) c hmem) hv
      rw [hlayered.shiftPoint_layerPoint hr.scripted.built.wellFormed hlayer.small (by omega) hshifts] at hderived
      rw [layerCall, (hreads c hc).slotOf_eq (by omega), ih c hc (by omega) hderived]
    · exact houtside (.rules hlayer hreads hsizes hvalue) ha hslot hx
  | @empty layer hempty => exact houtside (.empty hempty) ha (by omega) hx

/-! ## Bounds on slots -/

/-- A slot that is within an integer limit is one of as many slots as the limit gives. -/
theorem lt_of_holds_limit {op : Comparison} (hop : op = .le ∨ op = .lt) {rhs : String} {env : Env Float} {x v : Float}
    (hx : HasValue env rhs.toList x) (hwhole : isWhole x = true) (hv : HasValue env (limitText (op, rhs)).toList v)
    (hint : IsInt v size) (ha : a.natAbs < 2 ^ 53) (hholds : op.holds (ofInt a) x = true) : a < size := by
  obtain ⟨hfinite, hintegral⟩ := isIntegral_of_isWhole hwhole
  have hslot := isInt_ofInt ha.le
  rw [Comparison.holds_iff op hslot.isIntegral hintegral, hslot.toInt_eq] at hholds
  rcases hop with rfl | rfl
  · have hle : a ≤ toInt x := hholds
    have hsum := hv.unique (hasValue_add_one hx)
    obtain ⟨hone, hvalue⟩ := toFloat_one
    have hround := rounds_add hfinite hone
    rw [hvalue, hintegral.doubleValue_eq, ← hsum] at hround
    have hnext := isInt_ofInt (i := a + 1) (by omega)
    have hvalues := hround.le _ hnext.finite.isNumber (by
      rw [hnext.value]
      exact_mod_cast Int.add_le_add_right hle 1)
    rw [hnext.value, hint.value] at hvalues
    exact Int.lt_of_add_one_le (by exact_mod_cast hvalues)
  · have htext : (limitText (.lt, rhs)).toList = '(' :: rhs.toList ++ [')'] := by simp [limitText]
    rw [htext] at hv
    have hlt : a < toInt x := hholds
    rwa [hx.paren.unique hv, hint.toInt_eq] at hlt

/-- A plan whose layers have exactly the slots that the validity allows: the auxiliary index is bounded by zero and by
an integer limit, base cases bind it to slots of their layers, and the code of base layers counts the base case that is
selected. -/
structure SlotBounded (r : Recurrence) (plan : LayerPlan) : Prop where
  low : ∃ c ∈ r.validity.constraints, c.onAux? plan.aux = some (.ge, "0")
  high : ∃ p, upperLimit? plan.aux r.validity.constraints = some p ∧ ∀ layer : String → Int,
    (∀ i ∈ plan.layerIndices, (layer i).natAbs ≤ 2 ^ 53) →
      ∃ x, Arith.eval (r.layerValues plan layer) p.2 = .ok x ∧ isWhole x = true
  sizes : ∀ l ∈ plan.baseLayers,
    ∃ v, Arith.eval (r.layerValues plan (indexAt plan l 0)) plan.bound.expr = .ok v ∧ IsInt v l.size
  bases : ∀ l ∈ plan.baseLayers, ∀ b ∈ l.bases.map (·.2),
    ∃ w, b.slots[plan.auxSlot]?.join = some w ∧ 0 ≤ w.toInt ∧ w.toInt < l.size
  settled : ∀ l ∈ plan.baseLayers, ∀ k : Nat, (k : Int) < l.size → ∀ chosen,
    r.select (r.pointEnv (r.slotPoint plan l k)) = .ok chosen → r.Settles (r.slotPoint plan l k) chosen

/-- Where the validity holds, the point is a slot of its layer. -/
theorem SlotBounded.lt_of_valid (h : r.SlotBounded plan) (hr : r.WellFormed) (hplan : r.Planned padding plan)
    (hlayer : ∀ i ∈ plan.layerIndices, (layer i).natAbs ≤ 2 ^ 53) {v : Float}
    (hv : Arith.eval (r.layerValues plan layer) plan.bound.expr = .ok v) (hint : IsInt v size) (ha : a.natAbs < 2 ^ 53)
    (hvalid : r.validity.holds (r.pointEnv (r.layerPoint plan.aux layer a)) = .ok true) : 0 ≤ a ∧ a < size := by
  have hid := hr.identifiers _ (hr.aux _ hplan.aux)
  have haux : r.pointEnv (r.layerPoint plan.aux layer a) plan.aux = some (ofInt a) :=
    pointEnv_layerPoint_aux (hr.aux _ hplan.aux)
  have hslot := isInt_ofInt ha.le
  rw [Guard.holds_eq_true_iff] at hvalid
  constructor
  · obtain ⟨c, hc, hon⟩ := h.low
    obtain ⟨y, hy, hge⟩ := (c.holds_onAux hid haux hon).1 (hvalid c hc)
    obtain ⟨z, hz, hintegral, hzero⟩ := @hasValue_integer (r.pointEnv (r.layerPoint plan.aux layer a)) "0".toList rfl
    obtain rfl := hy.unique hz
    rw [Comparison.holds_iff .ge hslot.isIntegral hintegral, hslot.toInt_eq, hzero] at hge
    exact hge
  · obtain ⟨⟨op, rhs⟩, hp, hwhole⟩ := h.high
    obtain ⟨hop, c, hc, hon⟩ := upperLimit?_mem hp
    obtain ⟨x, hx, hwhole⟩ := hwhole layer hlayer
    obtain ⟨y, hy, hholds⟩ := (c.holds_onAux hid haux hon).1 (hvalid c hc)
    have hx := eval_eq_ok_iff.1 hx
    have hv := eval_eq_ok_iff.1 hv
    rw [hplan.bound_expr hp] at hv
    have hmentions := c.not_mentions_of_onAux hon
    rw [← layerEnvAt_eq_layerValues (a := a), hasValue_layerEnvAt hmentions] at hx
    obtain rfl := hy.unique hx
    rw [← hasValue_layerEnvAt hmentions, layerEnvAt_eq_layerValues] at hy
    exact lt_of_holds_limit hop hy hwhole hv hint ha hholds

/-- The slots of a rule layer are slots of the plan. -/
theorem SlotBounded.atSlot (h : r.SlotBounded plan) (hlayered : r.BaseLayered plan)
    (hlayer : r.RuleLayer plan g layer size) {k : Nat} (hk : (k : Int) < size) :
    r.AtSlot plan (r.layerPoint plan.aux layer k) (ofInt size) (ofInt k) := by
  have hlimit := hlayer.limit
  have hextra := extraSlots_nonneg plan g
  have hsize := isInt_ofInt (i := size) (by omega)
  have hslot := isInt_ofInt (i := k) (by omega)
  refine ⟨List.forall_mem_map.2 fun i hi => ?_, fun p hp => ?_, ?_, hsize.isWhole (by omega), ?_,
    pointEnv_layerPoint_aux (List.mem_of_getElem? hlayered.aux), ?_, ?_⟩
  · have hsmall : (if i = plan.aux then (k : Int) else layer i).natAbs ≤ 2 ^ 53 := by
      split
      · omega
      · next hne =>
        have hsmall := hlayer.small i (hlayered.mem_layerIndices.2 ⟨hi, hne⟩)
        omega
    exact (isInt_ofInt hsmall).isWhole hsmall
  · obtain ⟨p', hp', hwhole⟩ := h.high
    obtain rfl := Option.some.inj (hp.symm.trans hp')
    rw [layerEnvAt_eq_layerValues]
    exact hwhole layer fun i hi => (hlayer.small i hi).trans (by decide)
  · rw [layerEnvAt_eq_layerValues]
    exact hlayer.sized
  · rw [hsize.toInt_eq, exactLimit]
    omega
  · rw [isInt_zero.isIntegral.le_iff hslot.isIntegral, isInt_zero.toInt_eq, hslot.toInt_eq]
    omega
  · rw [hslot.isIntegral.lt_iff hsize.isIntegral, hslot.toInt_eq, hsize.toInt_eq]
    exact hk

/-- The group of a rule layer is the one of its points. -/
theorem RuleLayer.groupAt?_eq (hlayer : r.RuleLayer plan g layer size) :
    plan.groupAt? r (r.layerValues plan layer) = some g := by
  obtain ⟨before, after, hgroups, hbefore, hg⟩ := hlayer.group
  refine groupAt?_eq_some.2 ⟨hg, before, after, hgroups, fun g' hg' htrue => ?_⟩
  rw [← layerGuard, hbefore g' hg'] at htrue
  cases htrue

/-- What the rules of a layer write is what is selected. -/
theorem SlotBounded.selected_writer (h : r.SlotBounded plan) (hr : r.LayerRunnable plan)
    (hplan : r.planLayers padding = .ok plan) (haux : r.AuxBounded plan) (hlayer : r.RuleLayer plan g layer size)
    {k : Nat} (hk : (k : Int) < size) {chosen : Selection}
    (hselect : r.select (r.pointEnv (r.layerPoint plan.aux layer k)) = .ok chosen) :
    chosen = .ofRule? (g.writer? (r.layerValues plan layer) (ofInt size) (ofInt k)) := by
  have hwell := hr.scripted.built.wellFormed
  have hplanned := planned_of_planLayersIn hplan
  have hlayered := baseLayered_of_planLayersIn hplan
  have hbase : ¬ r.AtBaseLayer plan (r.layerPoint plan.aux layer k) :=
    hlayered.not_atBaseLayer hwell hr.binds hlayer.bases
  obtain ⟨o, ho, rfl⟩ := hplanned.selected_rule hwell hbase hselect
  have hwriter := (h.atSlot hlayered hlayer hk).writer?_eq_selected hwell hplanned haux ho
  rw [layerEnvAt_eq_layerValues, LayerPlan.writer?, hlayer.groupAt?_eq, Option.bind_some] at hwriter
  rw [hwriter]

/-- Outside of a layer no base case is selected. -/
theorem SlotBounded.select_ne_base (h : r.SlotBounded plan) (hr : r.LayerRunnable plan)
    (hplan : r.planLayers padding = .ok plan) (hlaid : r.Laid plan vars layer size out) (ha : a.natAbs < 2 ^ 53)
    (hout : ¬ (0 ≤ a ∧ a < size)) {i : Nat} {b : BaseCase} :
    r.select (r.pointEnv (r.layerPoint plan.aux layer a)) ≠ .ok (.base i b) := by
  intro hselect
  have hwell := hr.scripted.built.wellFormed
  have hlayered := baseLayered_of_planLayersIn hplan
  have hrank : (r.layerPoint plan.aux layer a).length = r.indices.length := List.length_map ..
  obtain ⟨hi, hcovers, -⟩ := (select_base_iff_covers hr.scripted.built hrank).1 hselect
  have hb := List.mem_of_getElem? hi
  have hmatch : r.AtBaseLayer plan (r.layerPoint plan.aux layer a) := by
    obtain ⟨m, hm, hiff⟩ := matchesBase_pointEnv hr.scripted.built hb hrank
    exact (planned_of_planLayersIn hplan).baseLayer_of_matches hwell hb
      (hm.trans (congrArg Except.ok (hiff.2 hcovers)))
  cases hlaid with
  | @base l _ hat =>
    rw [hat.layerPoint_eq hlayered] at hcovers
    obtain ⟨hin, hslot⟩ := (hlayered.covers_iff hwell hr.binds hat.mem hb ha.le).1 hcovers
    have hmem : b ∈ l.bases.map (·.2) := by
      rw [hlayered.bases_eq hat.mem, List.mem_filter]
      exact ⟨hb, hin⟩
    obtain ⟨w, hw, hpos, hlt⟩ := h.bases l hat.mem b hmem
    rw [BaseCase.isAt, hw, Option.all_some, beq_iff_eq] at hslot
    exact hout ⟨hslot ▸ hpos, hslot ▸ hlt⟩
  | rules hlayer => exact hlayered.not_atBaseLayer hwell hr.binds hlayer.bases hmatch
  | empty hempty => exact hlayered.not_atBaseLayer hwell hr.binds hempty.bases hmatch

/-- Outside of a layer no rule is selected. -/
theorem SlotBounded.select_ne_rule (h : r.SlotBounded plan) (hr : r.LayerRunnable plan)
    (hplan : r.planLayers padding = .ok plan) (hlaid : r.Laid plan vars layer size out) (ha : a.natAbs < 2 ^ 53)
    (hout : ¬ (0 ≤ a ∧ a < size)) {ρ : Rule} :
    r.select (r.pointEnv (r.layerPoint plan.aux layer a)) ≠ .ok (.rule ρ) := by
  intro hselect
  have hwell := hr.scripted.built.wellFormed
  have hplanned := planned_of_planLayersIn hplan
  have hlayered := baseLayered_of_planLayersIn hplan
  obtain ⟨-, hrule⟩ := select_eq_rule_iff.1 hselect
  obtain ⟨before, after, hsorted, hholds, -⟩ := selectRule_eq_ok hrule
  have hvalid := (Guard.and_holds_iff.1 hholds).2
  cases hlaid with
  | @base l _ hat =>
    obtain ⟨v, hv, hint⟩ := h.sizes l hat.mem
    rw [← hlayered.layerValues_congr hat.index] at hv
    refine hout (h.lt_of_valid hwell hplanned (fun i hi => ?_) hv hint ha hvalid)
    rw [hat.index i hi]
    exact hlayered.natAbs_indexAt hr.binds hat.mem (by decide) (hlayered.mem_indices hi)
  | @rules g _ _ _ _ hlayer =>
    have hlimit := hlayer.limit
    have hextra := extraSlots_nonneg plan g
    have hnonneg := hlayer.nonneg
    have hint : IsInt (ofInt size) size := isInt_ofInt (by omega)
    exact hout (h.lt_of_valid hwell hplanned (fun i hi => (hlayer.small i hi).trans (by decide)) hlayer.sized hint ha
      hvalid)
  | empty hempty =>
    have hmem : ρ ∈ r.sortedRules := hsorted ▸ List.mem_append_right _ List.mem_cons_self
    obtain ⟨g, hg, lr, hlr, rfl⟩ := hplanned.gathered.covers ρ hmem
    have htrue := hplanned.layerGuard_holds hwell hg hlr hholds
    rw [hempty.groups g hg] at htrue
    cases htrue

/-- **The code of a plan whose layers have exactly the slots that the validity allows counts the case that is
selected.** -/
theorem SlotBounded.owned (h : r.SlotBounded plan) (hr : r.LayerRunnable plan)
    (hplan : r.planLayers padding = .ok plan) (haux : r.AuxBounded plan) : r.Owned plan where
  base := by
    intro l layer hat k hk chosen hselect
    rw [hat.layerPoint_eq (baseLayered_of_planLayersIn hplan)] at hselect ⊢
    exact h.settled l hat.mem k hk chosen hselect
  rules hlayer k hk chosen hselect := h.selected_writer hr hplan haux hlayer hk hselect
  outside := by
    intro vars layer size out hlaid a ha hout chosen hselect
    cases chosen with
    | primary => rfl
    | base i b => exact absurd hselect (h.select_ne_base hr hplan hlaid ha hout)
    | rule ρ => exact absurd hselect (h.select_ne_rule hr hplan hlaid ha hout)

/-! ## What accessors return -/

/-- **Layered code returns what interpretation returns.** A program ends with the unit for the layers of a recurrence,
whose code counts the selected case in each slot. Then its accessor returns the value of interpretation at each slot of
a layer that can be laid, as long as calls may nest deep enough and loops may run often enough. -/
theorem generateLayered_returns (h : r.LayerRunnable plan) (hplan : r.planLayers o.tablePadding = .ok plan)
    (howned : r.Owned plan) (hresolve : resolve.Faithful r) (ho : o.target = .js) {u : GeneratedUnit}
    (hu : r.generateLayered o resolve = .ok u) {before : List GeneratedUnit} {p : Program}
    (hload : Program.load (before ++ [u]) = .ok p) : ∃ callee,
      (p.exported? (coeffName r.name) : Option (Value Float)) = some (.function callee) ∧
      ∀ vars : RuntimeVars Float, (∀ fn : MathFn, vars fn.name = none) →
        (∀ v ∈ r.runtimeVars, ∀ xs, vars v = some (.table xs) → xs.length < 2 ^ 32) →
        ∀ layer size out, r.Laid plan vars layer size out → ∀ a : Int, a.natAbs < 2 ^ 53 → ∀ depth x,
          r.interpretTo depth resolve vars (r.layerPoint plan.aux layer a) = .ok x → ∃ needed passes : Nat,
            ∀ (limits : Limits) (fuel : Nat), needed ≤ fuel → passes ≤ limits.passes → ∃ left,
              p.invoke limits fuel callee (pointArgs r.runtimeVars vars (r.layerPoint plan.aux layer a)) =
                .ok ⟨.num x, left⟩ := by
  have hlayered := baseLayered_of_planLayersIn hplan
  obtain ⟨i, f, bases, groups, imports, hunit⟩ := exists_layerUnit_of_load ho hu hplan hload
  refine ⟨.inUnit i (coeffName r.name), by rw [Program.exported?, hunit.exported _ (by simp)], ?_⟩
  intro vars hvars htables layer size out hlaid a ha depth x hx
  have hpassable : r.Passable vars (r.layerPoint plan.aux layer a) := passable_layerPoint hvars htables
  have hderivable : Derivable resolve vars r (r.layerPoint plan.aux layer a) x :=
    (interpretTo_cases hpassable.rank (simulates_interpretWithin hresolve depth (.inl rfl) hpassable.point
      (by simp [PathLeads]))).1 x hx
  obtain ⟨needed, passes, hcomputes⟩ := hunit.computes_laid h hplan ho hvars htables hlaid
  obtain ⟨hpos, hlimit⟩ := hlaid.range
  refine ⟨needed + 2, passes, fun limits fuel hfuel hpasses => ?_⟩
  obtain ⟨k, rfl⟩ : ∃ k, fuel = k + 2 := ⟨fuel - 2, by omega⟩
  rw [← hlaid.slotIn_eq h hplan howned hresolve ha hderivable]
  exact hunit.invoke_accessor h hlayered (hcomputes limits (k + 1) (by omega) hpasses) hpos hlimit ha.le

/-! ## Pascal's triangle -/

/-- A check that the layers of a recurrence can be computed by its code. -/
def isLayerRunnable (r : Recurrence) (plan : LayerPlan) : Bool :=
  r.isScripted && decide r.BindsExactly &&
    r.params.all (fun n => decide (n ∉ ["out", "N_VALUES", "size", "Array", "Math", layerName r.name,
      layerName r.name ++ "Size"]) && n.toList.head? != some '_' && n.toList.take 4 != "prev".toList) &&
    r.rules.all (fun rule => rule.expr.calls.all fun c =>
      r.isSelf c && c.shifts.all fun w => decide (w.toInt.natAbs ≤ 2 ^ 52)) &&
    plan.bound.source != .default && isReadable plan.bound.expr &&
    plan.groups.all (fun g => g.rules.all fun lr => match lr.role with
      | .zero => (lr.rule.expr.substitute (fixed plan.aux "0")).texts.all isReadable
      | .general _ => true
      | .max e => isOneLine e) &&
    plan.baseLayers.all fun l => (l.bases.map (·.2)).all fun b => (written plan l b b.value).texts.all isReadable

theorem layerRunnable_of_isLayerRunnable (hbalanced : r.Balanced) (h : r.isLayerRunnable plan) :
    r.LayerRunnable plan := by
  simp only [isLayerRunnable, Bool.and_eq_true, List.all_eq_true, decide_eq_true_eq, bne_iff_ne] at h
  obtain ⟨⟨⟨⟨⟨⟨⟨hscripted, hbinds⟩, hparams⟩, hcalls⟩, hsource⟩, hbound⟩, hgroups⟩, hbases⟩ := h
  exact {
    scripted := scripted_of_isScripted hbalanced hscripted
    binds := hbinds
    names := ⟨fun n hn => (hparams n hn).1.1, fun n hn hintroduced => (hparams n hn).1.2 hintroduced.underscore,
      fun n hn => (hparams n hn).2⟩
    self := fun rule hrule c hc => (hcalls rule hrule c hc).1
    shifts := fun rule hrule c hc i => by
      rw [Call.shiftAt, Call.wholeShiftAt]
      cases hshift : c.shifts[i]? with
      | none => decide
      | some w => exact (hcalls rule hrule c hc).2 w (List.mem_of_getElem? hshift)
    bound := ⟨hsource, readable_of_isReadable hbound⟩
    zeros := fun g hg lr hlr hrole t ht => by
      have htexts := hgroups g hg lr hlr
      rw [hrole] at htexts
      exact readable_of_isReadable (List.all_eq_true.1 htexts t ht)
    lines := fun g hg lr hlr e hrole => by
      have hline := hgroups g hg lr hlr
      rwa [hrole] at hline
    bases := fun l hl b hb t ht => readable_of_isReadable (hbases l hl b hb t ht) }

/-- Whether a selection is none of a rule, nor of a base case with others after it. -/
def isLastBase (r : Recurrence) : Selection → Bool
  | .base i _ => decide (r.bases.length ≤ i + 1)
  | .rule _ => false
  | .primary => true

theorem settles_of_isLastBase {point : List Float} {chosen : Selection} (h : r.isLastBase chosen) :
    r.Settles point chosen := by
  cases chosen with
  | base i b =>
    intro j b' hj hb'
    have hlast := of_decide_eq_true h
    exact absurd (List.getElem?_eq_some_iff.1 hb').1 (by omega)
  | rule ρ => cases h
  | primary => trivial

/-- A check that layers have exactly the slots that the validity allows, where the limit is a layer index. -/
def isSlotBounded (r : Recurrence) (plan : LayerPlan) : Bool :=
  r.validity.constraints.any (fun c => c.onAux? plan.aux == some (.ge, "0")) &&
    (upperLimit? plan.aux r.validity.constraints).any (fun p => plan.layerIndices.contains p.2) &&
    plan.baseLayers.all fun l =>
      decide ((Arith.eval (r.layerValues plan (indexAt plan l 0)) plan.bound.expr).toOption = some (ofInt l.size)) &&
      decide (l.size.natAbs ≤ 2 ^ 53) &&
      (l.bases.map (·.2)).all (fun b => b.slots[plan.auxSlot]?.join.any fun w =>
        decide (0 ≤ w.toInt ∧ w.toInt < l.size)) &&
      (List.range l.size.toNat).all fun k =>
        (r.select (r.pointEnv (r.slotPoint plan l k))).toOption.all r.isLastBase

theorem slotBounded_of_isSlotBounded (hr : r.WellFormed) (hlayered : r.BaseLayered plan) (h : r.isSlotBounded plan) :
    r.SlotBounded plan := by
  simp only [isSlotBounded, Bool.and_eq_true, List.any_eq_true, List.all_eq_true, Option.any_eq_true, beq_iff_eq,
    decide_eq_true_eq, List.contains_eq_mem, List.mem_range] at h
  obtain ⟨⟨hlow, p, hp, hlimit⟩, hlayers⟩ := h
  refine ⟨hlow, ⟨p, hp, fun layer hlayer => ⟨ofInt (layer p.2), ?_, ?_⟩⟩, fun l hl => ?_, fun l hl => ?_,
    fun l hl k hk => ?_⟩
  · obtain ⟨hmem, hne⟩ := hlayered.mem_layerIndices.1 hlimit
    refine eval_eq_ok_iff.2 ((hasValue_identifier (hr.identifiers _ hmem)).2 ?_)
    rw [layerValues, layerEnvAt, if_neg (by simpa using hne), pointEnv, if_pos (List.contains_iff_mem.2 hmem),
      getElem?_layerPoint (List.getElem?_idxOf hmem), if_neg hne]
  · exact (isInt_ofInt (hlayer _ hlimit)).isWhole (hlayer _ hlimit)
  · obtain ⟨⟨⟨hsize, hsmall⟩, -⟩, -⟩ := hlayers l hl
    exact ⟨_, toOption_eq_some_iff.1 hsize, isInt_ofInt hsmall⟩
  · exact (hlayers l hl).1.2
  · intro chosen hselect
    have hlast := (hlayers l hl).2 k (by omega)
    rw [hselect] at hlast
    exact settles_of_isLastBase hlast

/-- Layer one. -/
def layerOne : String → Int := fun _ => 1

/-- A check that a group computes the two slots of layer one from a base layer. -/
def isFirstLayer (r : Recurrence) (plan : LayerPlan) (g : LayerGroup) (l : BaseLayer) : Bool :=
  plan.baseLayers.all (fun l =>
      ((BaseLayer.guard plan.layerIndices l).holds (r.layerValues plan layerOne)).toOption == some false) &&
    ((r.layerGuard plan g).holds (r.layerValues plan layerOne)).toOption == some true &&
    decide ((Arith.eval (r.layerValues plan layerOne) plan.bound.expr).toOption = some (ofInt 2)) &&
    decide (extraSlots plan g < 2 ^ 31) &&
    g.calls.all (fun c => plan.layerIndices.all fun i => r.layerOfCall plan layerOne c i == indexAt plan l 0 i) &&
    g.rules.all fun lr => (lr.role matches .zero | .general _) && (List.range 2).all fun k =>
      (lr.rule.expr.eval (r.pointScope noVars (r.layerPoint plan.aux layerOne k))
        (r.layerCall plan (fun _ => r.baseSlot plan l noVars) layerOne k)).toOption.isSome

/-- **The layer after a base layer is laid.** -/
theorem exists_laid_of_isFirstLayer {g : LayerGroup} {l : BaseLayer} (hl : l ∈ plan.baseLayers)
    (hfill : r.isFillable plan l) (hpos : 0 ≤ l.size) (hlimit : l.size < 2 ^ 31) (hg : plan.groups.head? = some g)
    (h : r.isFirstLayer plan g l) : ∃ out, r.Laid plan noVars layerOne 2 out := by
  simp only [isFirstLayer, Bool.and_eq_true, List.all_eq_true, beq_iff_eq, decide_eq_true_eq, List.mem_range,
    toOption_eq_some_iff] at h
  obtain ⟨⟨⟨⟨⟨hbases, hguard⟩, hsized⟩, hextra⟩, hcalls⟩, hrules⟩ := h
  rw [isFillable, List.all_eq_true] at hfill
  simp only [Bool.and_eq_true, List.all_eq_true, List.mem_range] at hfill
  obtain ⟨rest, hgroups⟩ : ∃ rest, plan.groups = g :: rest := List.head?_eq_some_iff.1 hg
  have hlayer : r.RuleLayer plan g layerOne 2 := by
    refine ⟨fun i _ => (by decide : (1 : Int).natAbs ≤ 2 ^ 52), hbases, ⟨[], rest, hgroups, by simp, hguard⟩, hsized,
      by decide, by omega, ?_⟩
    intro lr hlr e hrole
    have hmatches := (hrules lr hlr).1
    rw [hrole] at hmatches
    cases hmatches
  have hread : ∀ c ∈ g.calls, r.Laid plan noVars (r.layerOfCall plan layerOne c) l.size (r.baseSlot plan l noVars) :=
    fun c hc => .base ⟨hl, hcalls c hc⟩ hpos (by omega) fun b hb =>
      exists_value_of_forall (hfill b hb).1.2 fun w hw => (Option.all_eq_true _ _).1 (hfill b hb).2 w hw
  refine ⟨_, @Laid.rules r plan noVars g layerOne 2 (fun _ => l.size) (fun _ => r.baseSlot plan l noVars) hlayer hread
    (fun c _ => by omega) fun lr hlr k hk _ => ?_⟩
  have hsome := (hrules lr hlr).2 k (by omega)
  cases hvalue : lr.rule.expr.eval (r.pointScope noVars (r.layerPoint plan.aux layerOne k))
      (r.layerCall plan (fun _ => r.baseSlot plan l noVars) layerOne k) with
  | error e =>
    rw [hvalue] at hsome
    cases hsome
  | ok v => exact ⟨v, rfl⟩

/-- The sums of neighbours, from a single one. -/
def pascalSteps : List Step :=
  [.validity ["n >= 0", "t >= 0", "t <= n"], .base [("n", 0), ("t", 0)] (.number 1),
    .rule "n > 0" "E[n-1, t] + E[n-1, t-1]" none none]

/-- The accessor of the loaded program returns one in slot one of layer one, which is laid. -/
theorem generateLayered_returns_pascal : ∃ r plan u p callee out x, planOf pascalSteps = .ok (r, plan) ∧
    r.generateLayered { target := .js } (fun _ => none) = .ok u ∧ Program.load ([] ++ [u]) = .ok p ∧
    (p.exported? (coeffName r.name) : Option (Value Float)) = some (.function callee) ∧
    r.Laid plan noVars layerOne 2 out ∧ (x == 1) = true ∧
    (∃ depth, r.interpretTo depth (fun _ => none) noVars (r.layerPoint plan.aux layerOne 1) = .ok x) ∧
    ∃ needed passes : Nat, ∀ (limits : Limits) (fuel : Nat), needed ≤ fuel → passes ≤ limits.passes → ∃ left,
      p.invoke limits fuel callee (pointArgs r.runtimeVars noVars (r.layerPoint plan.aux layerOne 1)) =
        .ok ⟨.num x, left⟩ := by
  have hcheck : ((planOf pascalSteps).toOption.any fun q => q.1.isLayerRunnable q.2 && decide (q.1.AuxBounded q.2) &&
      q.1.isSlotBounded q.2 && (q.2.baseLayers.any fun l => q.1.isFillable q.2 l && decide (0 ≤ l.size) &&
        decide (l.size < 2 ^ 31) && q.2.groups.head?.any fun g => q.1.isFirstLayer q.2 g l) &&
      (recurse (fun _ => none) noVars 4 q.1 (q.1.layerPoint q.2.aux layerOne 1)).toOption.any (· == 1) &&
      (q.1.generateLayered { target := .js } fun _ => none).toOption.any fun u =>
        (Program.load ([] ++ [u])).toOption.any fun _ => true) = true := by
    decide +kernel
  obtain ⟨⟨r, plan⟩, hrun, hcheck⟩ := exists_ok_of_any hcheck
  simp only [Bool.and_eq_true, decide_eq_true_eq] at hcheck
  obtain ⟨⟨⟨⟨⟨hrunnable, haux⟩, hbounded⟩, hlayer⟩, hvalue⟩, hprogram⟩ := hcheck
  obtain ⟨l, hl, hlayer⟩ := List.any_eq_true.1 hlayer
  simp only [Bool.and_eq_true, decide_eq_true_eq, Option.any_eq_true] at hlayer
  obtain ⟨⟨⟨hfill, hpos⟩, hlimit⟩, g, hg, hfirst⟩ := hlayer
  obtain ⟨x, hx, hone⟩ := exists_ok_of_any hvalue
  obtain ⟨u, hu, hprogram⟩ := exists_ok_of_any hprogram
  obtain ⟨p, hload, -⟩ := exists_ok_of_any hprogram
  obtain ⟨hbuilt, hplan⟩ := planOf_eq_ok hrun
  have hplan : r.planLayers ({ target := .js } : CodegenOptions).tablePadding = .ok plan := hplan
  have h : r.LayerRunnable plan := layerRunnable_of_isLayerRunnable (balanced_of_planOf (by decide) hrun) hrunnable
  have howned : r.Owned plan := (slotBounded_of_isSlotBounded hbuilt.wellFormed (baseLayered_of_planLayersIn hplan)
    hbounded).owned h hplan haux
  have hresolve : Resolver.Faithful (fun _ => none) r := ⟨fun _ _ hr => (by cases hr), fun _ hr => (by cases hr)⟩
  obtain ⟨out, hlaid⟩ := exists_laid_of_isFirstLayer hl hfill hpos hlimit hg hfirst
  have hrank : (r.layerPoint plan.aux layerOne 1).length = r.indices.length := List.length_map ..
  have hpoint : NoNegativeZero (r.layerPoint plan.aux layerOne 1) :=
    List.forall_mem_map.2 fun _ _ => isNegativeZero_ofInt _
  obtain ⟨depth, hinterpret⟩ := (Derivable.of_recurse hx).interpretTo_eq_ok hresolve hrank hpoint
  obtain ⟨callee, hcallee, hreturns⟩ := generateLayered_returns h hplan howned hresolve rfl hu hload
  exact ⟨r, plan, u, p, callee, out, x, hrun, hu, hload, hcallee, hlaid, hone, ⟨depth, hinterpret⟩,
    hreturns noVars (fun _ => rfl) (fun _ _ _ hv => by cases hv) layerOne 2 out hlaid 1 (by decide) depth x hinterpret⟩

end Recurrence

end RecurrenceCompiler
