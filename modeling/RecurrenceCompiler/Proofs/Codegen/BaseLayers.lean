import RecurrenceCompiler.Proofs.Codegen.LayerGroups
import RecurrenceCompiler.Proofs.Codegen.Specializations

/-!
# What base layers hold

Planning puts each base case into the one layer with its values, in the order of declaration
(`baseLayered_of_planLayersIn`). So a base case covers a slot of a layer exactly if it is one of the layer
and leaves the auxiliary index open or binds it to the slot (`BaseLayered.covers_iff`).
-/

namespace RecurrenceCompiler

open Text Decimal Arith

/-- Whether a base case is written to a slot of its layer: it leaves the auxiliary index open or binds it to
the slot. -/
def BaseCase.isAt (b : BaseCase) (auxSlot : Nat) (a : Int) : Bool :=
  (b.slots[auxSlot]?.join).all fun w => w.toInt == a

namespace Recurrence

variable {r : Recurrence} {layerIndices : List String}

/-! ## Plans -/

/-- The base layers of a plan, and the auxiliary index among the indices. -/
structure BaseLayered (r : Recurrence) (plan : LayerPlan) : Prop where
  aux : r.indices[plan.auxSlot]? = some plan.aux
  indices : plan.layerIndices = r.indices.filter (· != plan.aux)
  layers : r.HoldsBases plan.layerIndices r.placedBases plan.baseLayers
  sizes : plan.bound.source ≠ .default → ∀ l ∈ plan.baseLayers, 0 ≤ l.size

/-- A bound that is an expression gives a number of slots. -/
theorem nonneg_baseLayerSize {α : Type} [Carrier α] {bound : LayerBound} {auxSlot : Nat} {l : BaseLayer} {n : Int}
    (hbound : bound.source ≠ .default) (h : r.baseLayerSize α bound auxSlot layerIndices l = .ok n) : 0 ≤ n := by
  rw [baseLayerSize] at h
  split at h
  · next hdefault => exact absurd hdefault hbound
  · split at h
    · cases h
      exact Int.natCast_nonneg _
    · cases h

/-- **A plan has a base layer for each list of values.** -/
theorem baseLayered_of_planLayersIn {α : Type} [Carrier α] {padding : Amount} {plan : LayerPlan}
    (h : r.planLayersIn α padding = .ok plan) : r.BaseLayered plan := by
  unfold planLayersIn at h
  split at h
  · cases h
  · obtain ⟨auxSlot, hslot, h⟩ := bind_ok h
    dsimp only at h
    split at h
    · cases h
    · obtain ⟨bound, -, h⟩ := bind_ok h
      obtain ⟨unsized, hunsized, h⟩ := bind_ok h
      obtain ⟨baseLayers, hbases, h⟩ := bind_ok h
      obtain ⟨groups, -, h⟩ := bind_ok h
      obtain ⟨⟨⟩, -, h⟩ := bind_ok h
      cases h
      refine ⟨?_, rfl, (holdsBases_nil.gatherLayers hunsized).sized hbases, fun hbound l' hl' => ?_⟩
      · rw [Header.slotOf] at hslot
        split at hslot
        · next hmem =>
          cases hslot
          exact List.getElem?_idxOf (List.contains_iff_mem.1 hmem)
        · cases hslot
      · obtain ⟨l, -, hl⟩ := exists_of_forall₂ (forall₂_of_mapM hbases) hl'
        obtain ⟨size, hsize, hl⟩ := bind_ok hl
        cases hl
        exact nonneg_baseLayerSize hbound hsize

/-! ## Slots of base layers -/

/-- What a base case binds an index to. -/
def boundAt (r : Recurrence) (b : BaseCase) (i : String) : Option Whole :=
  b.slots[r.indices.idxOf i]?.join

theorem mem_slots_of_boundAt {b : BaseCase} {i : String} {w : Whole} (h : r.boundAt b i = some w) :
    some w ∈ b.slots :=
  List.mem_of_getElem? (Option.join_eq_some_iff.1 h)

/-- The values of a base case's layer are what it binds the layer indices to. -/
theorem forall₂_of_layerOf {b : BaseCase} {values : List Whole} (h : r.layerOf b layerIndices = .ok values) :
    List.Forall₂ (fun i w => r.boundAt b i = some w) layerIndices values := by
  induction layerIndices generalizing values with
  | nil =>
    cases h
    exact .nil
  | cons i is ih =>
    rw [layerOf] at h
    split at h
    · cases h
    · next w hw =>
      obtain ⟨ws, hws, h⟩ := bind_ok h
      cases h
      exact .cons hw (ih hws)

theorem getField?_zip {g : String → Option Whole} {is : List String} {ws : List Whole}
    (h : List.Forall₂ (fun i w => g i = some w) is ws) {i : String} (hi : i ∈ is) :
    Json.getField? (is.zip ws) i = g i := by
  induction h with
  | nil => cases hi
  | @cons j w is ws hj _ ih =>
    rw [List.zip_cons_cons, Json.getField?, List.find?_cons]
    by_cases heq : j = i
    · rw [beq_iff_eq.2 heq, ← heq, hj]
      rfl
    · rw [beq_eq_false_iff_ne.2 heq]
      exact ih ((List.mem_cons.1 hi).resolve_left (Ne.symm heq))

/-- The integer that an index is at in a slot of a layer: the slot, if it is no layer index. -/
def indexAt (plan : LayerPlan) (l : BaseLayer) (a : Int) (i : String) : Int :=
  ((Json.getField? (plan.layerIndices.zip l.values) i).map Whole.toInt).getD a

/-- The point of a slot. -/
def slotPoint (r : Recurrence) (plan : LayerPlan) (l : BaseLayer) (a : Int) : List Float :=
  r.indices.map fun i => ofInt (indexAt plan l a i)

section
variable {plan : LayerPlan} {l l' : BaseLayer} {a : Int} {b : BaseCase}

/-- Base cases bind indices to integers below those up to which doubles count. -/
def BindsExactly (r : Recurrence) : Prop :=
  ∀ b ∈ r.bases, ∀ w, some w ∈ b.slots → w.toInt.natAbs < 2 ^ 53

instance (r : Recurrence) : Decidable r.BindsExactly :=
  decidable_of_iff (∀ b ∈ r.bases, ∀ s ∈ b.slots, ∀ w ∈ s, w.toInt.natAbs < 2 ^ 53)
    ⟨fun h b hb w hw => h b hb _ hw w rfl, fun h b hb _ hs w hw => h b hb w (hw ▸ hs)⟩

/-- The layer indices are the indices other than the auxiliary one. -/
theorem BaseLayered.mem_layerIndices (h : r.BaseLayered plan) {i : String} :
    i ∈ plan.layerIndices ↔ i ∈ r.indices ∧ i ≠ plan.aux := by
  rw [h.indices, List.mem_filter, bne_iff_ne]

theorem BaseLayered.mem_indices (h : r.BaseLayered plan) {i : String} (hi : i ∈ plan.layerIndices) :
    i ∈ r.indices :=
  (h.mem_layerIndices.1 hi).1

/-- The base cases of a layer are base cases of the recurrence. -/
theorem BaseLayered.mem_bases (h : r.BaseLayered plan) (hl : l ∈ plan.baseLayers) :
    ∀ b ∈ l.bases.map (·.2), b ∈ r.bases := by
  rw [h.layers.gathered l hl, List.forall_mem_map]
  exact fun p hp => List.mem_of_getElem? (mem_placedBases.1 (List.mem_of_mem_filter hp))

/-- Each layer index has a value in a layer. -/
theorem BaseLayered.exists_value (h : r.BaseLayered plan) (hl : l ∈ plan.baseLayers) {i : String}
    (hi : i ∈ plan.layerIndices) : ∃ w, Json.getField? (plan.layerIndices.zip l.values) i = some w := by
  obtain ⟨b, -, hvalues⟩ := h.layers.values l hl
  rw [← Option.isSome_iff_exists, Json.getField?_isSome,
    List.map_fst_zip (forall₂_of_layerOf hvalues).length_eq.le]
  exact hi

/-- The values of layers are integers below those up to which doubles count. -/
theorem BaseLayered.natAbs_values (h : r.BaseLayered plan) (hbinds : r.BindsExactly)
    (hl : l ∈ plan.baseLayers) : ∀ w ∈ l.values, w.toInt.natAbs < 2 ^ 53 := by
  intro w hw
  obtain ⟨⟨k, b⟩, hb, hvalues⟩ := h.layers.values l hl
  obtain ⟨i, -, hi⟩ := exists_of_forall₂ (forall₂_of_layerOf hvalues) hw
  exact hbinds b (List.mem_of_getElem? (mem_placedBases.1 hb)) w (mem_slots_of_boundAt hi)

/-- In a slot, the auxiliary index is at the slot. -/
theorem BaseLayered.indexAt_aux (h : r.BaseLayered plan) : indexAt plan l a plan.aux = a := by
  have hnone : Json.getField? (plan.layerIndices.zip l.values) plan.aux = none := by
    rw [Json.getField?, Option.map_eq_none_iff, List.find?_eq_none]
    rintro ⟨i, w⟩ hmem hi
    have hmem := (List.of_mem_zip hmem).1
    rw [h.indices, List.mem_filter] at hmem
    exact absurd (beq_iff_eq.1 hi) (by simpa using hmem.2)
  rw [indexAt, hnone]
  rfl

/-- In a slot, the layer indices are at what some base case binds them to. -/
theorem BaseLayered.exists_indexAt (h : r.BaseLayered plan) (hl : l ∈ plan.baseLayers) :
    ∃ b ∈ r.bases, List.Forall₂ (fun i w => r.boundAt b i = some w ∧ indexAt plan l a i = w.toInt)
      plan.layerIndices l.values := by
  obtain ⟨⟨k, b⟩, hb, hvalues⟩ := h.layers.values l hl
  have hforall := forall₂_of_layerOf hvalues
  refine ⟨b, List.mem_of_getElem? (mem_placedBases.1 hb), ?_⟩
  rw [List.forall₂_iff_get] at hforall ⊢
  refine ⟨hforall.1, fun j hi hj => ⟨hforall.2 j hi hj, ?_⟩⟩
  rw [indexAt, getField?_zip (forall₂_of_layerOf hvalues) (List.get_mem _ _), hforall.2 j hi hj]
  rfl

/-- The values of a layer are what its indices are at in each slot. -/
theorem BaseLayered.values_eq (h : r.BaseLayered plan) (hl : l ∈ plan.baseLayers) (a : Int) :
    l.values.map Whole.toInt = plan.layerIndices.map (indexAt plan l a) := by
  obtain ⟨b, -, hat⟩ := h.exists_indexAt hl (a := a)
  rw [← List.forall₂_eq_eq_eq, List.forall₂_map_left_iff, List.forall₂_map_right_iff]
  exact hat.flip.imp fun w i hw => hw.2.symm

/-- **A slot is at integers that doubles count up to.** -/
theorem BaseLayered.natAbs_indexAt (h : r.BaseLayered plan) (hbinds : r.BindsExactly)
    (hl : l ∈ plan.baseLayers) (ha : a.natAbs ≤ 2 ^ 53) {i : String} (hi : i ∈ r.indices) :
    (indexAt plan l a i).natAbs ≤ 2 ^ 53 := by
  by_cases haux : i = plan.aux
  · rwa [haux, h.indexAt_aux]
  · obtain ⟨b, hb, hforall⟩ := h.exists_indexAt hl (a := a)
    have hmem : i ∈ plan.layerIndices := by
      rw [h.indices, List.mem_filter]
      exact ⟨hi, by simpa using haux⟩
    obtain ⟨w, -, hw, heq⟩ := exists_of_forall₂ hforall.flip hmem
    rw [heq]
    exact (hbinds b hb w (mem_slots_of_boundAt hw)).le

/-- Whether two layers have an index at the same place. -/
theorem BaseLayered.beq_indexAt (h : r.BaseLayered plan) (hbinds : r.BindsExactly)
    (hl : l ∈ plan.baseLayers) (hl' : l' ∈ plan.baseLayers) (ha : a.natAbs ≤ 2 ^ 53) {i : String}
    (hi : i ∈ r.indices) : (ofInt (indexAt plan l a i) == ofInt (indexAt plan l' a i)) =
      decide (indexAt plan l' a i = indexAt plan l a i) := by
  have hat := isInt_ofInt (h.natAbs_indexAt hbinds hl ha hi)
  have hat' := isInt_ofInt (h.natAbs_indexAt hbinds hl' ha hi)
  rw [Bool.eq_iff_iff, hat.isIntegral.beq_iff hat'.isIntegral, hat.toInt_eq, hat'.toInt_eq, decide_eq_true_iff,
    eq_comm]

/-- A base case covers a slot if it binds no index to anything but the integer that the index is at. -/
theorem BaseLayered.covers_iff_bound (h : r.BaseLayered plan) (hr : r.WellFormed) (hbinds : r.BindsExactly)
    (hl : l ∈ plan.baseLayers) (hb : b ∈ r.bases) (ha : a.natAbs ≤ 2 ^ 53) :
    b.Covers (r.slotPoint plan l a) ↔
      ∀ i ∈ r.indices, ∀ w, r.boundAt b i = some w → w.toInt = indexAt plan l a i := by
  have hequal : ∀ i ∈ r.indices, ∀ w, some w ∈ b.slots →
      ((ofInt (indexAt plan l a i) == ofInt w.toInt) = true ↔ w.toInt = indexAt plan l a i) := by
    intro i hi w hw
    have hindex := isInt_ofInt (h.natAbs_indexAt hbinds hl ha hi)
    have hbound := isInt_ofInt (hbinds b hb w hw).le
    rw [hindex.isIntegral.beq_iff hbound.isIntegral, hindex.toInt_eq, hbound.toInt_eq, eq_comm]
  constructor
  · intro hcovers i hi w hw
    have hslot : r.indices[r.indices.idxOf i]? = some i := List.getElem?_idxOf hi
    refine (hequal i hi w (mem_slots_of_boundAt hw)).1
      (hcovers _ w _ (Option.join_eq_some_iff.1 hw) ?_)
    rw [slotPoint, List.getElem?_map, hslot]
    rfl
  · intro hbound k w x hw hx
    rw [slotPoint, List.getElem?_map, Option.map_eq_some_iff] at hx
    obtain ⟨i, hi, rfl⟩ := hx
    obtain ⟨hk, rfl⟩ := List.getElem?_eq_some_iff.1 hi
    have hmem := List.getElem_mem hk
    refine (hequal _ hmem w (List.mem_of_getElem? hw)).2 (hbound _ hmem w ?_)
    rw [boundAt, hr.distinct.idxOf_getElem, hw]
    rfl

/-- A base case belongs to a layer if it binds the layer indices to what they are at. -/
theorem BaseLayered.inLayer_iff (h : r.BaseLayered plan) (hl : l ∈ plan.baseLayers) (hb : b ∈ r.bases) :
    r.inLayer plan.layerIndices l.values b = true ↔
      ∀ i ∈ plan.layerIndices, ∀ w, r.boundAt b i = some w → w.toInt = indexAt plan l a i := by
  obtain ⟨k, hk⟩ := List.getElem?_of_mem hb
  obtain ⟨vs, hvs, -⟩ := h.layers.covers (k, b) (mem_placedBases.2 hk)
  have hbound := forall₂_of_layerOf hvs
  have hmap : (vs.map Whole.toInt).map some =
      plan.layerIndices.map fun i => (r.boundAt b i).map Whole.toInt := by
    rw [List.map_map, ← List.forall₂_eq_eq_eq, List.forall₂_map_left_iff, List.forall₂_map_right_iff]
    refine hbound.flip.imp fun w i hw => ?_
    rw [hw]
    rfl
  rw [inLayer_eq hvs, beq_iff_eq, h.values_eq hl a,
    ← (List.map_injective_iff.2 (Option.some_injective Int)).eq_iff, hmap, List.map_map, List.map_inj_left]
  refine forall₂_congr fun i hi => ?_
  obtain ⟨w, -, hw⟩ := exists_of_forall₂ hbound.flip hi
  simp [hw]

/-- **A base case covers a slot of a layer where it belongs to the layer and is written to the slot.** -/
theorem BaseLayered.covers_iff (h : r.BaseLayered plan) (hr : r.WellFormed) (hbinds : r.BindsExactly)
    (hl : l ∈ plan.baseLayers) (hb : b ∈ r.bases) (ha : a.natAbs ≤ 2 ^ 53) :
    b.Covers (r.slotPoint plan l a) ↔
      r.inLayer plan.layerIndices l.values b = true ∧ b.isAt plan.auxSlot a = true := by
  have hslot : r.boundAt b plan.aux = b.slots[plan.auxSlot]?.join := by
    obtain ⟨hlt, haux⟩ := List.getElem?_eq_some_iff.1 h.aux
    rw [boundAt, ← haux, hr.distinct.idxOf_getElem]
  have hat : b.isAt plan.auxSlot a = true ↔
      ∀ w, r.boundAt b plan.aux = some w → w.toInt = indexAt plan l a plan.aux := by
    rw [BaseCase.isAt, hslot, h.indexAt_aux, Option.all_eq_true]
    simp only [beq_iff_eq]
  have hall : ∀ i ∈ r.indices, i ∈ plan.layerIndices ∨ i = plan.aux := by
    intro i hi
    exact (em (i = plan.aux)).symm.imp_left fun hne => h.mem_layerIndices.2 ⟨hi, hne⟩
  rw [h.covers_iff_bound hr hbinds hl hb ha, h.inLayer_iff hl hb, hat]
  constructor
  · exact fun hbound => ⟨fun i hi => hbound i (h.mem_indices hi), hbound _ (List.mem_of_getElem? h.aux)⟩
  · rintro ⟨hlayer, haux⟩ i hi
    rcases hall i hi with hi | rfl
    · exact hlayer i hi
    · exact haux

end

end Recurrence

end RecurrenceCompiler
