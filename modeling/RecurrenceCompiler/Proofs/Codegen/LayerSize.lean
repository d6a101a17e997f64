import RecurrenceCompiler.Proofs.Codegen.LayerChoice

/-!
# What the size of a layer implies

The slots of a layer run from zero to its size, which one upper bound on the auxiliary index gives. That
bound holds at every slot. The other constraints on the auxiliary index, those of the validity and the
upper bounds of rules, are dropped from the guards of the layer as well; such a constraint holds at every
slot exactly if the size and the value it compares with allow it (`dropped_holds_iff`).
-/

namespace RecurrenceCompiler

open Text Decimal Arith

/-- What it takes for a comparison with `y` to hold at each of `n` slots. -/
def Comparison.Spans (n y : Int) : Comparison → Prop
  | .le => n ≤ y + 1
  | .lt => n ≤ y
  | .ge => y ≤ 0
  | .gt => y < 0
  | .eq => n = 1 ∧ y = 0
  | .ne => y < 0 ∨ n ≤ y

/-- A comparison holds at each of some slots exactly if it holds at the first and at the last; that it is
not an equality with one of them, if it asks for that. -/
theorem Comparison.spans_iff (op : Comparison) {n y : Int} (hn : 0 < n) :
    op.Spans n y ↔ ∀ k, 0 ≤ k → k < n → op.onInts k y := by
  constructor
  · intro h k hk hlt
    cases op <;> simp only [Spans, onInts] at h ⊢ <;> omega
  · intro h
    have hfirst := h 0 le_rfl hn
    have hlast := h (n - 1) (by omega) (by omega)
    cases op with
    | ne =>
      by_contra hno
      simp only [Spans, not_or, not_lt, not_le] at hno
      exact h y hno.1 hno.2 rfl
    | eq | lt | le | gt | ge =>
      simp only [Spans, onInts] at hfirst hlast ⊢
      omega

namespace Recurrence

/-- A point, moved to another slot of its layer. -/
def toSlot (r : Recurrence) (aux : String) (point : List Float) (a : Float) : List Float :=
  point.set (r.indices.idxOf aux) a

section
variable {r : Recurrence} {plan : LayerPlan} {padding : Amount} {point : List Float} {size a b : Float}

/-- The auxiliary index is a place of the points that have a value for it. -/
theorem idxOf_lt_of_pointEnv {aux : String} (h : r.pointEnv point aux = some a) :
    aux ∈ r.indices ∧ r.indices.idxOf aux < point.length := by
  rw [pointEnv] at h
  split at h
  · next hmem =>
    obtain ⟨hlt, -⟩ := List.getElem?_eq_some_iff.1 h
    exact ⟨by simpa using hmem, hlt⟩
  · cases h

/-- A point moved to a slot has the slot's value, if it had one. -/
theorem pointEnv_toSlot {aux : String} (h : r.pointEnv point aux = some a) :
    r.pointEnv (r.toSlot aux point b) aux = some b := by
  obtain ⟨hmem, hlt⟩ := idxOf_lt_of_pointEnv h
  simp [pointEnv, toSlot, hmem, hlt]

/-- Moving a point to another slot leaves it in its layer. -/
theorem layerEnvAt_toSlot {aux : String} (hmem : aux ∈ r.indices) :
    r.layerEnvAt aux (r.toSlot aux point b) = r.layerEnvAt aux point := by
  funext n
  rw [layerEnvAt, layerEnvAt]
  split
  · rfl
  · next hne =>
    have hne : n ≠ aux := by simpa using hne
    have hidx : r.indices.idxOf aux ≠ r.indices.idxOf n := fun heq =>
      hne ((List.idxOf_inj hmem).1 heq).symm
    simp [pointEnv, toSlot, List.getElem?_set_ne hidx]

/-- **Every natural number below the size of a layer is one of its slots.** -/
theorem AtSlot.toSlot (h : r.AtSlot plan point size a) {k : Int} (hk : 0 ≤ k) (hlt : k < toInt size) :
    ∃ b, toInt b = k ∧ r.AtSlot plan (r.toSlot plan.aux point b) size b := by
  have hcount : k.natAbs < 2 ^ 53 := by
    have := h.countable
    rw [exactLimit] at this
    omega
  have hround := rounds_ofInt k
  have hvalue : toInt (ofInt k) = k := hround.toInt_eq hcount.le
  have henv : r.layerEnvAt plan.aux (r.toSlot plan.aux point (ofInt k)) = r.layerEnvAt plan.aux point :=
    layerEnvAt_toSlot (idxOf_lt_of_pointEnv h.aux).1
  have hzero : IsIntegral 0.0 ∧ toInt 0.0 = 0 := toFloat_natural 0
  have hsize := (isIntegral_of_isWhole h.wholeSize).2
  refine ⟨ofInt k, hvalue, {
    whole := fun x hx => ?_
    limit := fun p hp => by rw [henv]; exact h.limit p hp
    sized := by rw [henv]; exact h.sized
    wholeSize := h.wholeSize
    countable := h.countable
    aux := pointEnv_toSlot h.aux
    nonneg := (hzero.1.le_iff hround.isIntegral).2 (by rw [hzero.2, hvalue]; exact hk)
    lt := (hround.isIntegral.lt_iff hsize).2 (by rw [hvalue]; exact hlt) }⟩
  rcases List.mem_or_eq_of_mem_set hx with hx | rfl
  · exact h.whole x hx
  · have hover : (2 : Int) ^ 53 ≤ overflow := by decide +kernel
    exact hround.isIntegral.isWhole (by rw [hvalue, abs_of_nonneg hk]; omega)

/-- **What the size of a layer implies**: a constraint on the auxiliary index, which compares it with
`y`, holds at every slot of the layer exactly if the size and `y` allow it, and they do for the
constraint that the size is taken from. -/
theorem dropped_holds_iff (hr : r.Built) (hplan : r.planLayers padding = .ok plan)
    (h : r.AtSlot plan point size a) {c : Constraint} {op : Comparison} {rhs : String}
    (hc : c.onAux? plan.aux = some (op, rhs)) {y : Float}
    (hy : eval (r.layerEnvAt plan.aux point) rhs = .ok y) (hwhole : isWhole y = true) :
    ((∀ b, r.AtSlot plan (r.toSlot plan.aux point b) size b →
        c.holds (r.pointEnv (r.toSlot plan.aux point b)) = .ok true) ↔
      op.Spans (toInt size) (toInt y)) ∧
    (upperLimit? plan.aux r.validity.constraints = some (op, rhs) →
      op.Spans (toInt size) (toInt y)) := by
  have hr := hr.wellFormed
  have hplan := planned_of_planLayersIn hplan
  have hmem := hr.aux _ hplan.aux
  have haux := hr.identifiers _ hmem
  have hyi := (isIntegral_of_isWhole hwhole).2
  have hyv := eval_eq_ok_iff.1 hy
  have hsize := (isIntegral_of_isWhole h.wholeSize).2
  have hpos : 0 < toInt size :=
    h.isSlot.nonneg.trans_lt ((h.isSlot.integral.lt_iff hsize).1 h.lt)
  -- At one slot the constraint is a comparison of integers.
  have hholds {b : Float} (hb : r.AtSlot plan (r.toSlot plan.aux point b) size b) :
      c.holds (r.pointEnv (r.toSlot plan.aux point b)) = .ok true ↔ op.onInts (toInt b) (toInt y) := by
    rw [c.holds_onAux haux hb.aux hc, ← op.holds_iff hb.isSlot.integral hyi]
    have hyv : HasValue (r.pointEnv (r.toSlot plan.aux point b)) rhs.toList y := by
      rw [← hasValue_layerEnvAt (c.not_mentions_of_onAux hc), layerEnvAt_toSlot hmem]
      exact hyv
    exact ⟨fun ⟨z, hz, hop⟩ => hz.unique hyv ▸ hop, fun hop => ⟨y, hyv, hop⟩⟩
  have hiff : (∀ b, r.AtSlot plan (r.toSlot plan.aux point b) size b →
      c.holds (r.pointEnv (r.toSlot plan.aux point b)) = .ok true) ↔
        op.Spans (toInt size) (toInt y) := by
    rw [op.spans_iff hpos]
    constructor
    · intro hall k hk hlt
      obtain ⟨b, hbk, hb⟩ := h.toSlot hk hlt
      exact hbk ▸ (hholds hb).1 (hall b hb)
    · intro hspans b hb
      exact (hholds hb).2 (hspans _ hb.isSlot.nonneg ((hb.isSlot.integral.lt_iff hsize).1 hb.lt))
  exact ⟨hiff, fun hlimit => hiff.1 fun b hb => hb.limit_holds hr hplan hc hlimit⟩

end

/-! ## A bound of a rule that the layers do not imply -/

/-- Layers of `n + 1` slots with a rule for slot zero only, which says so by an upper bound. -/
def tightRuleSteps : List Step :=
  [.validity ["t >= 0", "t <= n"], .base [("n", 0), ("t", 0)] (.number 1),
    .rule "n > 0 && t <= 0" "E[n-1, t-1]" none none]

/-- A rule that writes slot one of layer one, though it has an upper bound of zero on the slot. -/
structure WritesBeyond (r : Recurrence) (plan : LayerPlan) (size : Float) (rule : Rule) : Prop where
  layer : (rule.guard.onLayer plan.aux).holds (r.layerEnvAt plan.aux [(1 : Float), 1]) = .ok true
  writes : (plan.writer? r (r.layerEnvAt plan.aux [1, 1]) size 1).map (·.index) = some rule.index
  bound : ∃ c ∈ rule.guard.constraints, c.onAux? plan.aux = some (.le, "0") ∧
    c.holds (r.pointEnv [(1 : Float), 1]) = .ok false

/-- Layer one of `tightRuleSteps` has two slots; nothing is selected at slot one, but the rule writes it. -/
theorem tightRule_planned : ∃ r plan size,
    planOf tightRuleSteps = .ok (r, plan) ∧ r.AtSlot plan [1, 1] size 1 ∧ toInt size = 2 ∧
      (r.validity.onLayer plan.aux).holds (r.layerEnvAt plan.aux [(1 : Float), 1]) = .ok true ∧
      r.select (r.pointEnv [(1 : Float), 1]) = .ok .primary ∧
      ∃ rule ∈ r.rules, r.WritesBeyond plan size rule := by
  have hcheck : ((planOf tightRuleSteps).toOption.any fun p =>
      p.1.indices == ["n", "t"] && p.2.aux == "t" &&
      (upperLimit? p.2.aux p.1.validity.constraints).all (fun l =>
        (eval (p.1.layerEnvAt p.2.aux [1, 1]) l.2).toOption.any isWhole) &&
      ((p.1.validity.onLayer p.2.aux).holds (p.1.layerEnvAt p.2.aux [(1 : Float), 1])).toOption ==
        some true &&
      (p.1.select (p.1.pointEnv [(1 : Float), 1])).toOption.any (· matches .primary) &&
      (eval (p.1.layerEnvAt p.2.aux [1, 1]) p.2.bound.expr).toOption.any fun size =>
        isWhole size && toInt size == 2 && decide ((1 : Float) < size) &&
        p.1.rules.any fun rule =>
          ((rule.guard.onLayer p.2.aux).holds (p.1.layerEnvAt p.2.aux [(1 : Float), 1])).toOption ==
            some true &&
          (p.2.writer? p.1 (p.1.layerEnvAt p.2.aux [1, 1]) size 1).map (·.index) == some rule.index &&
          rule.guard.constraints.any fun c =>
            c.onAux? p.2.aux == some (.le, "0") &&
            (c.holds (p.1.pointEnv [(1 : Float), 1])).toOption == some false) = true := by
    decide +kernel
  obtain ⟨⟨r, plan⟩, hrun, hcheck⟩ := exists_ok_of_any hcheck
  simp only [Bool.and_eq_true, beq_iff_eq, toOption_eq_some_iff] at hcheck
  obtain ⟨⟨⟨⟨⟨hindices, hname⟩, hlimit⟩, hvalidity⟩, hselect⟩, hsize⟩ := hcheck
  obtain ⟨size, hsize, hrest⟩ := exists_ok_of_any hsize
  simp only [Bool.and_eq_true, beq_iff_eq, toOption_eq_some_iff, decide_eq_true_eq,
    List.any_eq_true] at hrest
  obtain ⟨⟨⟨hwhole, htwo⟩, hlt⟩, rule, hmem, ⟨hlayer, hwriter⟩, hbound⟩ := hrest
  have hslot : r.AtSlot plan [1, 1] size 1 := {
    whole := by decide +kernel
    limit := fun l hl => exists_ok_of_any (by rw [hl] at hlimit; exact hlimit)
    sized := hsize
    wholeSize := hwhole
    countable := by rw [htwo]; decide
    aux := by simp [pointEnv, hindices, hname]
    nonneg := by decide +kernel
    lt := hlt }
  have hprimary : r.select (r.pointEnv [(1 : Float), 1]) = .ok .primary := by
    obtain ⟨s, hs, hprimary⟩ := exists_ok_of_any hselect
    cases s with
    | primary => exact hs
    | base | rule => cases hprimary
  exact ⟨r, plan, size, hrun, hslot, htwo, hvalidity, hprimary, rule, hmem, hlayer, hwriter, hbound⟩

/-- In layer one of `tightRuleSteps` the bound of the rule, by zero, does not hold at each slot. -/
theorem dropped_holds_iff_tightRule : ∃ r plan size,
    planOf tightRuleSteps = .ok (r, plan) ∧ r.AtSlot plan [1, 1] size 1 ∧
      ∃ rule ∈ r.rules, ∃ c ∈ rule.guard.constraints, c.onAux? plan.aux = some (.le, "0") ∧
        ¬ ∀ b, r.AtSlot plan (r.toSlot plan.aux [1, 1] b) size b →
          c.holds (r.pointEnv (r.toSlot plan.aux [1, 1] b)) = .ok true := by
  obtain ⟨r, plan, size, hrun, hslot, htwo, -, -, rule, hmem, -, -, c, hc, haux, -⟩ := tightRule_planned
  obtain ⟨hbuilt, hplan⟩ := planOf_eq_ok hrun
  refine ⟨r, plan, size, hrun, hslot, rule, hmem, c, hc, haux, ?_⟩
  obtain ⟨y, hy, hyi, hvalue⟩ := @hasValue_integer (r.layerEnvAt plan.aux [1, 1]) "0".toList rfl
  have hzero : toInt y = 0 := hvalue.trans (by decide)
  have hwhole : isWhole y = true := hyi.isWhole (by rw [hzero, abs_zero]; exact overflow_pos)
  rw [(dropped_holds_iff hbuilt hplan hslot haux (eval_eq_ok_iff.2 hy) hwhole).1, htwo, hzero]
  simp [Comparison.Spans]

/-- **The size of a layer does not imply the upper bounds of its rules**: where the validity and a rule
hold at a layer of a planned recurrence, an upper bound of the rule need not hold at each slot. -/
theorem upper_bounds_not_implied : ¬ ∀ (steps : List Step) (r : Recurrence) (plan : LayerPlan)
    (point : List Float) (size a : Float),
    planOf steps = .ok (r, plan) → r.AtSlot plan point size a →
      (r.validity.onLayer plan.aux).holds (r.layerEnvAt plan.aux point) = .ok true →
      ∀ rule ∈ r.rules,
        (rule.guard.onLayer plan.aux).holds (r.layerEnvAt plan.aux point) = .ok true →
        ∀ c ∈ rule.guard.constraints, ∀ rhs, c.onAux? plan.aux = some (.le, rhs) →
          c.holds (r.pointEnv point) = .ok true := by
  intro hall
  obtain ⟨r, plan, size, hrun, hslot, -, hvalidity, -, rule, hmem, hlayer, -, c, hc, haux, hfalse⟩ :=
    tightRule_planned
  have htrue := hall _ r plan _ size 1 hrun hslot hvalidity rule hmem hlayer c hc _ haux
  rw [hfalse] at htrue
  cases htrue

end Recurrence

end RecurrenceCompiler
