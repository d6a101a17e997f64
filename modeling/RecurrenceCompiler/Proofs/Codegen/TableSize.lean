import RecurrenceCompiler.Proofs.Arith.IntegerTexts
import RecurrenceCompiler.Proofs.Codegen.LayerChoice
import RecurrenceCompiler.Proofs.Decimal.Operations

/-!
# Layers that a table feeds

A table has as many values as it has, so layers that it feeds are sized by their depth: the corner of
the largest index values has the slots that are asked for, and each step away from it adds the growth,
the least number with which every call that goes up in the auxiliary index lands inside the layer that
it reads. Sizes are a linear function of the depth, and so a call lands inside exactly if its rise is
at most the growth times its descent (`self_call_lands_iff`). Calls that go up in the layers have to go
down in the auxiliary index, which is not checked.
-/

namespace RecurrenceCompiler

open Text Decimal Arith

namespace Recurrence

section
variable (r : Recurrence)

/-- How far up a call reads in the auxiliary index. -/
def rise (aux : String) (c : Call) : Int :=
  c.shiftAt (r.indices.idxOf aux)

/-- How far down a call reads in the layers. -/
def descent (layerIndices : List String) (c : Call) : Int :=
  -(r.layerShifts layerIndices c).sum

/-- The largest value of an index. -/
def topOf (i : String) : Int :=
  (r.maxOf? i).getD 0

/-- The largest values of the layer indices together. -/
def depthOf (layerIndices : List String) : Int :=
  (layerIndices.map r.topOf).sum

/-- The number of slots of the deepest layer. -/
def topSlots (plan : LayerPlan) (padding : Int) : Int :=
  r.topOf plan.aux + 1 + padding

/-- The shifts of a call, up to which doubles count. -/
structure CountableShifts (aux : String) (layerIndices : List String) (c : Call) : Prop where
  aux : (r.rise aux c).natAbs ≤ exactLimit
  layers : ((r.layerShifts layerIndices c).map Int.natAbs).sum ≤ exactLimit

/-- Doubles count up to the shifts of the calls and the number of slots of the largest layer. -/
structure CountableSizes (plan : LayerPlan) (padding : Int) : Prop where
  shifts : ∀ rule ∈ r.rules, ∀ c ∈ rule.expr.calls, r.CountableShifts plan.aux plan.layerIndices c
  size : ∀ g, r.auxGrowth plan.aux plan.layerIndices = .ok (.whole g) →
    r.depthOf plan.layerIndices * g + r.topSlots plan padding ≤ exactLimit

instance (r : Recurrence) (aux : String) (layerIndices : List String) (c : Call) :
    Decidable (r.CountableShifts aux layerIndices c) :=
  decidable_of_iff ((r.rise aux c).natAbs ≤ exactLimit ∧
      ((r.layerShifts layerIndices c).map Int.natAbs).sum ≤ exactLimit)
    ⟨fun ⟨ha, hl⟩ => ⟨ha, hl⟩, fun h => ⟨h.aux, h.layers⟩⟩

instance (r : Recurrence) (plan : LayerPlan) (padding : Int) :
    Decidable (r.CountableSizes plan padding) :=
  if hs : ∀ rule ∈ r.rules, ∀ c ∈ rule.expr.calls,
      r.CountableShifts plan.aux plan.layerIndices c then
    match hg : r.auxGrowth plan.aux plan.layerIndices with
    | .ok (.whole g) =>
      decidable_of_iff (r.depthOf plan.layerIndices * g + r.topSlots plan padding ≤ exactLimit)
        ⟨fun h => ⟨hs, fun _ h' => by cases hg.symm.trans h'; exact h⟩, fun h => h.size g hg⟩
    | .ok (.real _) | .ok (.joined _) | .error _ =>
      isTrue ⟨hs, fun _ h' => by cases hg.symm.trans h'⟩
  else isFalse fun h => hs h.shifts

/-- A tuple of values of the layer indices, none beyond the largest. -/
def WithinMaxima (layerIndices : List String) (v : List Whole) : Prop :=
  List.Forall₂ (fun i w => 0 ≤ w.toInt ∧ w.toInt ≤ r.topOf i) layerIndices v

end

/-- Every slot of a layer of `n` slots, moved by `s`, is below the `n'` slots of another one. -/
def LandsInside (n n' : Float) (s : Int) : Prop :=
  ∀ a, 0 ≤ a → a < toInt n → a + s < toInt n'

variable {r : Recurrence} {plan : LayerPlan} {padding g : Int} {v v' : List Whole} {aux : String}
  {layerIndices : List String}

/-! ## Growth -/

/-- What the growth over some calls is: the least number that is enough for each call that goes up,
where it is taken over those before; and each such call goes down in the layers. -/
def IsGrowth (r : Recurrence) (aux : String) (layerIndices : List String) (g k : Int)
    (calls : List (Nat × Call)) : Prop :=
  (∀ p ∈ calls, r.isSelf p.2 = true → 0 < r.rise aux p.2 → 0 < r.descent layerIndices p.2) ∧
  ∀ k', k ≤ k' ↔ g ≤ k' ∧ ∀ p ∈ calls, r.isSelf p.2 = true → 0 < r.rise aux p.2 →
    r.rise aux p.2 ≤ k' * r.descent layerIndices p.2

theorem growthOver_spec {calls : List (Nat × Call)} {a : Amount}
    (hcount : ∀ p ∈ calls, r.CountableShifts aux layerIndices p.2)
    (h : r.growthOver aux layerIndices (.whole g) calls = .ok a) :
    ∃ k, a = .whole k ∧ r.IsGrowth aux layerIndices g k calls := by
  induction calls generalizing g with
  | nil =>
    cases h
    exact ⟨g, rfl, by simp, by simp⟩
  | cons p calls ih =>
    obtain ⟨rule, c⟩ := p
    rw [List.forall_mem_cons] at hcount
    have hup : c.shiftAt (r.indices.idxOf aux) = r.rise aux c := rfl
    simp only [growthOver, hup] at h
    split at h
    · next hskip =>
      -- Calls that do not go up are left out.
      obtain ⟨k, hk, hdrop, hleast⟩ := ih hcount.2 h
      have hno : r.isSelf c = true → ¬ 0 < r.rise aux c := by
        simpa [← Bool.not_eq_true, or_iff_not_imp_left] using hskip
      refine ⟨k, hk, ?_, fun k' => (hleast k').trans ?_⟩
      · rw [List.forall_mem_cons]
        exact ⟨fun hself hpos => absurd hpos (hno hself), hdrop⟩
      · rw [List.forall_mem_cons]
        exact and_congr_right fun _ =>
          ⟨fun hrest => ⟨fun hself hpos => absurd hpos (hno hself), hrest⟩, And.right⟩
    · next hraises =>
      obtain ⟨hself, hpos⟩ : r.isSelf c = true ∧ 0 < r.rise aux c := by simpa using hraises
      have hsum : ((Amount.sum ((r.layerShifts layerIndices c).map .ofInt)).negate) =
          .whole (r.descent layerIndices c) := by
        rw [Amount.sum_map_ofInt hcount.1.layers]
        rfl
      simp only [hsum, Amount.isNonpositive, decide_eq_true_eq] at h
      split at h
      · cases h
      · next hdescent =>
        have hdescent : 0 < r.descent layerIndices c := not_le.1 hdescent
        have hexact : (r.descent layerIndices c).natAbs ≤ exactLimit := by
          rw [descent, Int.natAbs_neg]
          exact (Amount.natAbs_sum_le _).trans hcount.1.layers
        have hquotient : Amount.ceilQuotient (.ofInt (r.rise aux c)) (.whole (r.descent layerIndices c)) =
            .whole (Amount.ceilDiv (r.rise aux c) (r.descent layerIndices c)) := by
          rw [Amount.ofInt_eq_whole hcount.1.aux]
          simp [Amount.ceilQuotient, Amount.isExact, hcount.1.aux, hexact]
        rw [hquotient, Amount.max_whole] at h
        obtain ⟨k, hk, hdrop, hleast⟩ := ih hcount.2 h
        refine ⟨k, hk, ?_, fun k' => (hleast k').trans ?_⟩
        · rw [List.forall_mem_cons]
          exact ⟨fun _ _ => hdescent, hdrop⟩
        · rw [List.forall_mem_cons, max_le_iff, Amount.ceilDiv_le_iff hdescent, and_assoc]
          exact and_congr_right fun _ => and_congr_left fun _ =>
            ⟨fun hle _ _ => hle, fun hle => hle hself hpos⟩

/-! ## Sizes -/

/-- What a bound that a table gives is. -/
theorem Planned.tabulated (h : r.Planned (.whole padding) plan)
    (htable : plan.bound.source = .tabulated) :
    ∃ growth, r.auxGrowth plan.aux plan.layerIndices = .ok growth ∧
      plan.bound.expr =
        if growth.isZero then (((r.maxAmount plan.aux).add (.whole 1)).add (.whole padding)).text
        else "(" ++ (Amount.sum (plan.layerIndices.map r.maxAmount)).text ++ " - (" ++
          " + ".intercalate plan.layerIndices ++ ")) * " ++ growth.text ++ " + " ++
            (((r.maxAmount plan.aux).add (.whole 1)).add (.whole padding)).text := by
  have hbound := h.bound
  rw [layerBound] at hbound
  split at hbound
  · rw [← Except.ok.inj hbound] at htable
    cases htable
  · split at hbound
    · obtain ⟨growth, hgrowth, hbound⟩ := bind_ok hbound
      exact ⟨growth, hgrowth, by rw [← Except.ok.inj hbound]⟩
    · rw [← Except.ok.inj hbound] at htable
      cases htable

/-- In the environment of a layer every layer index has its value. -/
theorem namesInt_layerEnv (hnodup : layerIndices.Nodup) (hids : ∀ i ∈ layerIndices, isIdentifier i)
    (hlength : layerIndices.length = v.length) (hsmall : ∀ w ∈ v, w.toInt.natAbs ≤ 2 ^ 53) :
    List.Forall₂ (NamesInt (layerEnv layerIndices v)) layerIndices (v.map Whole.toInt) := by
  rw [List.forall₂_map_right_iff, List.forall₂_iff_zip]
  refine ⟨hlength, fun {i w} hiw => ⟨hids i (List.of_mem_zip hiw).1, w.toFloat, ?_,
    Whole.isInt_toFloat (hsmall w (List.of_mem_zip hiw).2)⟩⟩
  have hkeys : ((layerIndices.zip v).map (·.1)).Nodup := by
    rwa [List.map_fst_zip hlength.le]
  rw [layerEnv, Json.getField?_of_mem hkeys hiw]
  rfl

theorem WithinMaxima.sum_le (hv : r.WithinMaxima layerIndices v) :
    0 ≤ (v.map Whole.toInt).sum ∧ (v.map Whole.toInt).sum ≤ r.depthOf layerIndices ∧
      ∀ w ∈ v, 0 ≤ w.toInt ∧ w.toInt ≤ (v.map Whole.toInt).sum := by
  rw [WithinMaxima] at hv
  rw [depthOf]
  induction hv with
  | nil => simp
  | @cons i w is v hw _ ih =>
    obtain ⟨hpos, hle, hall⟩ := ih
    simp only [List.map_cons, List.sum_cons, List.forall_mem_cons]
    refine ⟨by omega, by omega, by omega, fun w' hw' => ⟨(hall w' hw').1, ?_⟩⟩
    have := (hall w' hw').2
    omega

/-- The largest values of the indices are natural numbers. -/
theorem maxAmount_eq (hr : r.Built) (hproto : "__proto__" ∉ r.indices) {i : String}
    (hi : i ∈ r.indices) : 0 ≤ r.topOf i ∧ r.maxAmount i = .ofInt (r.topOf i) := by
  obtain ⟨m, hm, hpos⟩ := hr.exists_maxOf hi fun heq => hproto (heq ▸ hi)
  rw [topOf, Header.maxAmount, hm]
  exact ⟨hpos, rfl⟩

/-- The largest values of some indices, added up. -/
theorem sum_maxAmount (hr : r.Built) (hproto : "__proto__" ∉ r.indices)
    (hmem : ∀ i ∈ layerIndices, i ∈ r.indices) : 0 ≤ r.depthOf layerIndices ∧
      (r.depthOf layerIndices ≤ exactLimit →
        Amount.sum (layerIndices.map r.maxAmount) = .whole (r.depthOf layerIndices)) := by
  have htops : ∀ m ∈ layerIndices.map r.topOf, 0 ≤ m := fun m hm => by
    obtain ⟨i, hi, rfl⟩ := List.mem_map.1 hm
    exact (maxAmount_eq hr hproto (hmem i hi)).1
  have hamounts : layerIndices.map r.maxAmount = (layerIndices.map r.topOf).map .ofInt := by
    rw [List.map_map]
    refine List.map_congr_left fun i hi => ?_
    rw [Function.comp_apply, (maxAmount_eq hr hproto (hmem i hi)).2]
  rw [hamounts, depthOf]
  exact ⟨List.sum_nonneg htops, Amount.sum_map_ofInt_of_nonneg htops⟩

/-- The text of the number of slots of the deepest layer. -/
theorem top_text (hr : r.Built) (hproto : "__proto__" ∉ r.indices) (haux : plan.aux ∈ r.indices)
    (hpad : 0 ≤ padding) (hsmall : r.topSlots plan padding ≤ exactLimit) :
    (((r.maxAmount plan.aux).add (.whole 1)).add (.whole padding)).text =
      intText (r.topSlots plan padding) := by
  obtain ⟨hpos, hmax⟩ := maxAmount_eq hr hproto haux
  rw [topSlots] at hsmall ⊢
  rw [hmax, Amount.ofInt_eq_whole (by omega), Amount.add_whole (by omega) (by decide) (by omega),
    Amount.add_whole (by omega) (by omega) (by omega)]
  rfl

/-- The value of the text of a linear function of the depth. -/
theorem hasInt_tableSize {d k t : Nat} {s : Int} {names : List String} {env : Env Float} (hk : 0 < k)
    (hexact : k ≤ exactLimit) (hd : d * k + t ≤ exactLimit) (hs : 0 ≤ s) (hsd : s ≤ d)
    (hsum : HasInt .expr env (" + ".intercalate names).toList s) :
    HasInt .expr env ("(" ++ intText d ++ " - (" ++ " + ".intercalate names ++ ")) * " ++ intText k ++
      " + " ++ intText t).toList ((d - s) * k + t) := by
  have hlimit : exactLimit ≤ 2 ^ 53 := by decide
  have hdepth : d ≤ d * k := Nat.le_mul_of_pos_right d hk
  have hless : (d - s) * k ≤ ((d * k : Nat) : Int) := by
    rw [Nat.cast_mul]
    exact mul_le_mul_of_nonneg_right (by omega) (by omega)
  have hnonneg : 0 ≤ (d - s) * k := mul_nonneg (by omega) (by omega)
  have hdeepest : HasInt .primary env (intText d).toList d := hasInt_natural (by omega)
  have hgrowth : HasInt .primary env (intText k).toList k := hasInt_natural hexact
  have htop : HasInt .primary env (intText t).toList t := hasInt_natural (by omega)
  have hinside := (hdeepest.term.expr.sub hsum.paren.term (by omega) (by omega)).paren
  have hproduct := hinside.term.mul hgrowth.unary (by omega)
  simpa using hproduct.expr.add htop.term (by omega)

/-- What a growth is over small shifts is small. -/
theorem IsGrowth.le_exactLimit {k : Int} {calls : List (Nat × Call)}
    (h : r.IsGrowth aux layerIndices 0 k calls)
    (hcount : ∀ p ∈ calls, r.CountableShifts aux layerIndices p.2) : 0 ≤ k ∧ k ≤ exactLimit := by
  refine ⟨((h.2 k).1 le_rfl).1, (h.2 exactLimit).2 ⟨by decide, fun p hp hself hpos => ?_⟩⟩
  have hrise := (hcount p hp).aux
  have hone : (exactLimit : Int) ≤ exactLimit * r.descent layerIndices p.2 :=
    le_mul_of_one_le_right (by decide) (h.1 p hp hself hpos)
  omega

/-- The number of slots of a layer that a table feeds, at a tuple of layer indices. -/
def tableSlots (r : Recurrence) (plan : LayerPlan) (padding growth : Int) (v : List Whole) : Int :=
  (r.depthOf plan.layerIndices - (v.map Whole.toInt).sum) * growth + r.topSlots plan padding

/-- The number of slots is positive, and no layer has more than the one at the origin. -/
theorem tableSlots_bounds (hg : 0 ≤ g) (htop : 0 < r.topSlots plan padding)
    (hv : r.WithinMaxima plan.layerIndices v) : 0 < r.tableSlots plan padding g v ∧
      r.tableSlots plan padding g v ≤ r.depthOf plan.layerIndices * g + r.topSlots plan padding := by
  obtain ⟨hsum, hle, -⟩ := hv.sum_le
  have hnonneg : 0 ≤ (r.depthOf plan.layerIndices - (v.map Whole.toInt).sum) * g :=
    mul_nonneg (by omega) hg
  have hless : (r.depthOf plan.layerIndices - (v.map Whole.toInt).sum) * g ≤
      r.depthOf plan.layerIndices * g := mul_le_mul_of_nonneg_right (by omega) hg
  rw [tableSlots]
  omega

/-- The bound of a layer that a table feeds has the number of slots as its value. -/
theorem Planned.hasInt_bound (hr : r.Built) (hplan : r.Planned (.whole padding) plan)
    (hpad : 0 ≤ padding) (htable : plan.bound.source = .tabulated) (hproto : "__proto__" ∉ r.indices)
    (hgrowth : r.auxGrowth plan.aux plan.layerIndices = .ok (.whole g)) (hg : 0 ≤ g)
    (hexact : g ≤ exactLimit)
    (hsize : r.depthOf plan.layerIndices * g + r.topSlots plan padding ≤ exactLimit)
    (hv : r.WithinMaxima plan.layerIndices v) :
    0 < r.tableSlots plan padding g v ∧ r.tableSlots plan padding g v ≤ exactLimit ∧
      HasInt .expr (layerEnv plan.layerIndices v) plan.bound.expr.toList
        (r.tableSlots plan padding g v) := by
  have hwf := hr.wellFormed
  have hlimit : exactLimit ≤ 2 ^ 53 := by decide
  have hmem : ∀ i ∈ plan.layerIndices, i ∈ r.indices := fun i hi => by
    rw [hplan.layerIndices] at hi
    exact List.mem_of_mem_filter hi
  have haux := hwf.aux _ hplan.aux
  have htop : 0 < r.topSlots plan padding := by
    have := (maxAmount_eq hr hproto haux).1
    rw [topSlots]
    omega
  obtain ⟨hdepth, hsum⟩ := sum_maxAmount hr hproto hmem
  have hproduct : 0 ≤ r.depthOf plan.layerIndices * g := mul_nonneg hdepth hg
  obtain ⟨hpos, hle⟩ := tableSlots_bounds hg htop hv
  refine ⟨hpos, hle.trans hsize, ?_⟩
  obtain ⟨growth, hgrowth', hexpr⟩ := hplan.tabulated htable
  obtain rfl : growth = .whole g := Except.ok.inj (hgrowth'.symm.trans hgrowth)
  rw [top_text hr hproto haux hpad (by omega)] at hexpr
  rw [hexpr, tableSlots]
  obtain ⟨t, ht⟩ := Int.eq_ofNat_of_zero_le htop.le
  rw [ht] at hsize ⊢
  split
  · next hzero =>
    rw [show g = 0 by simpa [Amount.isZero] using hzero, mul_zero, zero_add]
    exact (hasInt_natural (by omega)).term.expr
  · next hzero =>
    have hgpos : 0 < g := lt_of_le_of_ne hg fun heq => hzero (by rw [← heq]; rfl)
    have hdepthg : r.depthOf plan.layerIndices ≤ r.depthOf plan.layerIndices * g :=
      le_mul_of_one_le_right hdepth hgpos
    obtain ⟨hvsum, hvle, hall⟩ := hv.sum_le
    have hnames := namesInt_layerEnv (v := v)
      (by rw [hplan.layerIndices]; exact hwf.distinct.filter _)
      (fun i hi => hwf.identifiers i (hmem i hi)) hv.length_eq
      (fun w hw => by have := hall w hw; omega)
    have hnonneg : ∀ m ∈ v.map Whole.toInt, 0 ≤ m := fun m hm => by
      obtain ⟨w, hw, rfl⟩ := List.mem_map.1 hm
      exact (hall w hw).1
    rw [hsum (by omega)]
    obtain ⟨d, hd⟩ := Int.eq_ofNat_of_zero_le hdepth
    obtain ⟨k, rfl⟩ := Int.eq_ofNat_of_zero_le hg
    rw [hd] at hsize hvle hdepthg ⊢
    exact hasInt_tableSize (by omega) (by omega) (by exact_mod_cast hsize) hvsum hvle
      (hasInt_sum hplan.layers hnames hnonneg (by omega))

/-- **The size of a layer that a table feeds is linear in its depth.** -/
theorem exists_tableSlots (hr : r.Built) (hplan : r.planLayers (.whole padding) = .ok plan)
    (hpad : 0 ≤ padding) (htable : plan.bound.source = .tabulated) (hproto : "__proto__" ∉ r.indices)
    (hcount : r.CountableSizes plan padding) :
    ∃ g, r.auxGrowth plan.aux plan.layerIndices = .ok (.whole g) ∧
      r.IsGrowth plan.aux plan.layerIndices 0 g
        (r.rules.flatMap fun rule => rule.expr.calls.map fun c => (rule.index, c)) ∧
      ∀ v, r.WithinMaxima plan.layerIndices v → 0 < r.tableSlots plan padding g v ∧
        ∃ n, eval (layerEnv plan.layerIndices v) plan.bound.expr = .ok n ∧ isWhole n = true ∧
          toInt n = r.tableSlots plan padding g v := by
  have hplan := planned_of_planLayersIn hplan
  obtain ⟨growth, hgrowth, -⟩ := hplan.tabulated htable
  have hshifts : ∀ p ∈ r.rules.flatMap fun rule => rule.expr.calls.map fun c => (rule.index, c),
      r.CountableShifts plan.aux plan.layerIndices p.2 := by
    intro p hp
    obtain ⟨rule, hrule, hp⟩ := List.mem_flatMap.1 hp
    obtain ⟨c, hc, rfl⟩ := List.mem_map.1 hp
    exact hcount.shifts rule hrule c hc
  obtain ⟨g, rfl, hspec⟩ := growthOver_spec hshifts hgrowth
  obtain ⟨hg, hexact⟩ := hspec.le_exactLimit hshifts
  refine ⟨g, hgrowth, hspec, fun v hv => ?_⟩
  obtain ⟨hpos, hle, hvalue⟩ := hplan.hasInt_bound hr hpad htable hproto hgrowth hg hexact
    (hcount.size g hgrowth) hv
  obtain ⟨n, hn, hint⟩ := hvalue.hasValue
  have hlimit : exactLimit ≤ 2 ^ 53 := by decide
  exact ⟨hpos, n, eval_eq_ok_iff.2 hn, hint.isWhole (by omega), hint.toInt_eq⟩

/-- **Exactly the calls whose rise is at most the growth times their descent land inside**: in layers
that a table feeds, within the largest index values. Those that go up in the auxiliary index and those
that do not go up in the layers do. -/
theorem self_call_lands_iff (hr : r.Built) (hplan : r.planLayers (.whole padding) = .ok plan)
    (hpad : 0 ≤ padding) (htable : plan.bound.source = .tabulated) (hproto : "__proto__" ∉ r.indices)
    (hcount : r.CountableSizes plan padding) {rule : Rule} (hrule : rule ∈ r.rules) {c : Call}
    (hc : c ∈ rule.expr.calls) (hself : r.isSelf c = true)
    (hv : r.WithinMaxima plan.layerIndices v) (hv' : r.WithinMaxima plan.layerIndices v')
    (hread : v'.map Whole.toInt =
      List.zipWith (· + ·) (v.map Whole.toInt) (r.layerShifts plan.layerIndices c)) :
    ∃ g n n', r.auxGrowth plan.aux plan.layerIndices = .ok (.whole g) ∧
      eval (layerEnv plan.layerIndices v) plan.bound.expr = .ok n ∧ isWhole n = true ∧
      eval (layerEnv plan.layerIndices v') plan.bound.expr = .ok n' ∧ isWhole n' = true ∧
      (LandsInside n n' (r.rise plan.aux c) ↔
        r.rise plan.aux c ≤ g * r.descent plan.layerIndices c) ∧
      (0 < r.rise plan.aux c ∨ 0 ≤ r.descent plan.layerIndices c →
        LandsInside n n' (r.rise plan.aux c)) := by
  obtain ⟨g, hgrowth, ⟨hdrop, hleast⟩, hsize⟩ := exists_tableSlots hr hplan hpad htable hproto hcount
  obtain ⟨hpos, n, hn, hwhole, hslots⟩ := hsize v hv
  obtain ⟨-, n', hn', hwhole', hslots'⟩ := hsize v' hv'
  obtain ⟨hg, henough⟩ := (hleast g).1 le_rfl
  -- The sizes differ by the growth for each step down.
  have hsum : (v'.map Whole.toInt).sum =
      (v.map Whole.toInt).sum - r.descent plan.layerIndices c := by
    have hlength : (v.map Whole.toInt).length = (r.layerShifts plan.layerIndices c).length := by
      simpa [layerShifts] using hv.length_eq.symm
    rw [hread, descent, ← List.sum_add_sum_eq_sum_zipWith_of_length_eq _ _ hlength]
    ring
  have hdifference : toInt n' = toInt n + g * r.descent plan.layerIndices c := by
    rw [hslots, hslots', tableSlots, tableSlots, hsum]
    ring
  have hiff : LandsInside n n' (r.rise plan.aux c) ↔
      r.rise plan.aux c ≤ g * r.descent plan.layerIndices c := by
    constructor
    · intro hall
      have hlast := hall (toInt n - 1) (by omega) (by omega)
      omega
    · intro hle a _ ha
      omega
  refine ⟨g, n, n', hgrowth, hn, hwhole, hn', hwhole', hiff, fun h => hiff.2 ?_⟩
  by_cases hup : 0 < r.rise plan.aux c
  · have hmem : (rule.index, c) ∈
        r.rules.flatMap fun rule => rule.expr.calls.map fun c => (rule.index, c) :=
      List.mem_flatMap.2 ⟨rule, hrule, List.mem_map.2 ⟨c, hc, rfl⟩⟩
    exact henough _ hmem hself hup
  · have hnonneg : 0 ≤ g * r.descent plan.layerIndices c := mul_nonneg hg (h.resolve_left hup)
    omega

/-! ## A steep table, and a call that goes up in the layers -/

/-- A recurrence that a table feeds, and its plan. -/
def tablePlanOf (indices : List String) (aux : String) (maxima : List (String × Float))
    (steps : List Step) : Except Error (Recurrence × LayerPlan) := do
  let r ← create "Fed" indices ["T"] { auxIndex := some aux, arrayVars := ["T"], maxIndices := maxima }
  let r ← r.build steps
  let plan ← r.planLayers (.whole 0)
  return (r, plan)

theorem tablePlanOf_eq_ok {indices : List String} {aux : String} {maxima : List (String × Float)}
    {steps : List Step} {p : Recurrence × LayerPlan}
    (h : tablePlanOf indices aux maxima steps = .ok p) :
    p.1.Built ∧ p.1.planLayers (.whole 0) = .ok p.2 := by
  obtain ⟨r, hr, h⟩ := bind_ok h
  obtain ⟨r', hr', h⟩ := bind_ok h
  obtain ⟨plan, hplan, h⟩ := bind_ok h
  cases h
  exact ⟨(Built.create hr).build hr', hplan⟩

/-- Each step down reads two slots further up. -/
def steepPlan : Except Error (Recurrence × LayerPlan) :=
  tablePlanOf ["n", "m"] "m" [("n", 4), ("m", 3)]
    [.base [("n", 0)] (.raw "T[m]"), .rule "n > 0" "E[n-1, m+2] + E[n-2, m+1]" none none]

/-- The call two slots up in the steep table lands inside the layer that layer one reads. -/
theorem self_call_lands_iff_steep : ∃ r plan n n', steepPlan = .ok (r, plan) ∧
    (∃ rule ∈ r.rules, ∃ c ∈ rule.expr.calls, r.rise plan.aux c = 2) ∧
    eval (layerEnv plan.layerIndices [1]) plan.bound.expr = .ok n ∧
    eval (layerEnv plan.layerIndices [0]) plan.bound.expr = .ok n' ∧ LandsInside n n' 2 := by
  have hcheck : (steepPlan.toOption.any fun p =>
      p.2.bound.source == .tabulated && decide ("__proto__" ∉ p.1.indices) &&
      decide (p.1.CountableSizes p.2 0) && p.2.layerIndices == ["n"] && p.1.topOf "n" == 4 &&
      p.1.rules.any fun rule => rule.expr.calls.any fun c =>
        p.1.isSelf c && p.1.layerShifts p.2.layerIndices c == [-1] && p.1.rise p.2.aux c == 2) =
      true := by
    decide +kernel
  obtain ⟨⟨r, plan⟩, hrun, hcheck⟩ := exists_ok_of_any hcheck
  obtain ⟨hbuilt, hplan⟩ := tablePlanOf_eq_ok hrun
  simp only [Bool.and_eq_true, decide_eq_true_eq, beq_iff_eq, List.any_eq_true] at hcheck
  obtain ⟨⟨⟨⟨⟨htable, hproto⟩, hcount⟩, hindices⟩, htop⟩, rule, hrule, c, hc, ⟨hself, hshifts⟩, hrise⟩ :=
    hcheck
  have hwithin {w : Whole} (h : 0 ≤ w.toInt ∧ w.toInt ≤ 4) : r.WithinMaxima plan.layerIndices [w] := by
    rw [hindices]
    exact .cons (by rw [htop]; exact h) .nil
  obtain ⟨g, n, n', -, hn, -, hn', -, -, hlands⟩ := self_call_lands_iff hbuilt hplan le_rfl htable hproto
    hcount hrule hc hself (hwithin (w := 1) (by decide)) (hwithin (w := 0) (by decide))
    (by rw [hshifts]; rfl)
  rw [hrise] at hlands
  exact ⟨r, plan, n, n', hrun, ⟨rule, hrule, c, hc, hrise⟩, hn, hn', hlands (.inl (by decide))⟩

/-- A recurrence on two layer indices, one rule of which goes up in the layers. -/
def climbingPlan : Except Error (Recurrence × LayerPlan) :=
  tablePlanOf ["i", "j", "N"] "N" [("i", 1), ("j", 2), ("N", 0)]
    [.base [("i", 0), ("j", 0)] (.raw "T[N]"), .rule "j >= 2" "E[i, j-2, N+2]" none none,
      .rule "i > 0 && j < 2" "E[i-1, j+2, N]" none none]

/-- The values of the table. -/
def sevenValues : RuntimeVars Float := fun v =>
  if v == "T" then some (.table [1, 2, 3, 4, 5, 6, 7]) else none

/-- **A call that goes up in the layers reads past the end of its layer**, where layered code finds a
zero: the planned recurrence `climbingPlan` has three slots in the layer `(1, 0)` and two in the layer
`(0, 2)`, which a call without a rise reads. -/
theorem climbing_call_misses : ∃ r plan rule call n n' c x y, climbingPlan = .ok (r, plan) ∧
    plan.bound.source = .tabulated ∧ rule ∈ r.rules ∧ call ∈ rule.expr.calls ∧
    r.isSelf call = true ∧ r.layerShifts plan.layerIndices call = [-1, 2] ∧
    r.WithinMaxima plan.layerIndices [1, 0] ∧ r.WithinMaxima plan.layerIndices [0, 2] ∧
    eval (layerEnv plan.layerIndices [1, 0]) plan.bound.expr = .ok n ∧
    eval (layerEnv plan.layerIndices [0, 2]) plan.bound.expr = .ok n' ∧
    ¬ LandsInside n n' (r.rise plan.aux call) ∧
    ({} : Catalog).register r userModule = .ok c ∧
    c.evaluate r.name [(1 : Float), 2, 0] sevenValues true = .ok x ∧ x == 0 ∧
    Derivable (fun _ => none) sevenValues r [1, 2, 0] y ∧ y == 5 := by
  have hcheck : (climbingPlan.toOption.any fun p =>
      (({} : Catalog).register p.1 userModule).toOption.any fun c =>
        p.2.bound.source == .tabulated && p.2.layerIndices == ["i", "j"] && p.1.topOf "i" == 1 &&
        p.1.topOf "j" == 2 &&
        (c.evaluate p.1.name [(1 : Float), 2, 0] sevenValues true).toOption.any (· == 0) &&
        (recurse (fun _ => none) sevenValues 4 p.1 [(1 : Float), 2, 0]).toOption.any (· == 5) &&
        (eval (layerEnv p.2.layerIndices [1, 0]) p.2.bound.expr).toOption.any (fun n => toInt n == 3) &&
        (eval (layerEnv p.2.layerIndices [0, 2]) p.2.bound.expr).toOption.any (fun n => toInt n == 2) &&
        p.1.rules.any fun rule => rule.expr.calls.any fun call =>
          p.1.isSelf call && p.1.layerShifts p.2.layerIndices call == [-1, 2] &&
            p.1.rise p.2.aux call == 0) = true := by
    decide +kernel
  obtain ⟨⟨r, plan⟩, hrun, hcheck⟩ := exists_ok_of_any hcheck
  obtain ⟨c, hc, hcheck⟩ := exists_ok_of_any hcheck
  simp only [Bool.and_eq_true, beq_iff_eq, List.any_eq_true] at hcheck
  obtain ⟨⟨⟨⟨⟨⟨⟨⟨htable, hindices⟩, htopi⟩, htopj⟩, hlayered⟩, hrecurse⟩, hn⟩, hn'⟩, rule, hrule, call,
    hcall, ⟨hself, hshifts⟩, hrise⟩ := hcheck
  obtain ⟨x, hx, hzero⟩ := exists_ok_of_any hlayered
  obtain ⟨y, hy, hfive⟩ := exists_ok_of_any hrecurse
  obtain ⟨n, hn, hthree⟩ := exists_ok_of_any hn
  obtain ⟨n', hn', htwo⟩ := exists_ok_of_any hn'
  have hwithin {v w : Whole} (hv : 0 ≤ v.toInt ∧ v.toInt ≤ 1) (hw : 0 ≤ w.toInt ∧ w.toInt ≤ 2) :
      r.WithinMaxima plan.layerIndices [v, w] := by
    rw [hindices]
    exact .cons (by rw [htopi]; exact hv) (.cons (by rw [htopj]; exact hw) .nil)
  refine ⟨r, plan, rule, call, n, n', c, x, y, hrun, htable, hrule, hcall, hself, hshifts,
    hwithin (by decide) (by decide), hwithin (by decide) (by decide), hn, hn', fun hlands => ?_, hc, hx,
    hzero, Derivable.of_recurse hy, hfive⟩
  have hlast := hlands 2 (by decide) (by rw [beq_iff_eq.1 hthree]; decide)
  rw [hrise, beq_iff_eq.1 htwo] at hlast
  exact absurd hlast (by decide)

end Recurrence

end RecurrenceCompiler
