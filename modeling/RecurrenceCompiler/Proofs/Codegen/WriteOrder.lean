import RecurrenceCompiler.Proofs.Codegen.LayerChoice

/-!
# Write order and priority

The blocks of a group run in a fixed order: the one for slot zero, the loop, and the one for a single
slot. The rules of the first and the last have as many equalities each, so that their priority depends on
the number of constraints and on the order of declaration. Where the single slot is slot zero, the last
block writes it again, also if its rule is the later one (`slot_zero_written_by`,
`slot_zero_overwritten`).
-/

namespace RecurrenceCompiler

open Text Decimal Arith

/-! ## The first rule of a group that holds -/

/-- The first rule, in the order of priority, of those of a group whose constraints hold. -/
def LayerGroup.first? {α : Type} [Carrier α] (g : LayerGroup) (r : Recurrence) (env : Env α) :
    Option Rule :=
  r.sortedRules.find? fun ρ =>
    g.rules.any (·.rule.index == ρ.index) && (ρ.guard.holds env).toOption == some true

/-- A rule comes before another in the order of priority, or is it. -/
def Rule.Precedes (ρ σ : Rule) : Prop :=
  priorityLe ρ.guard ρ.index σ.guard σ.index = true

theorem Rule.Precedes.refl (ρ : Rule) : ρ.Precedes ρ :=
  Recurrence.priorityLe_iff.2 (.inr ⟨rfl, .inr ⟨rfl, le_rfl⟩⟩)

/-- A rule with more equalities comes before one with fewer. -/
theorem Rule.precedes_of_equalities {ρ σ : Rule} (h : σ.guard.equalities < ρ.guard.equalities) :
    ρ.Precedes σ :=
  Recurrence.priorityLe_iff.2 (.inl h)

namespace Recurrence

section
variable {r : Recurrence} {plan : LayerPlan} {padding : Amount} {point : List Float}

/-- The first of the rules with a property precedes the others. -/
theorem find?_sortedRules (hr : r.WellFormed) {p : Rule → Bool} {ρ : Rule} :
    r.sortedRules.find? p = some ρ ↔
      ρ ∈ r.sortedRules ∧ p ρ = true ∧ ∀ σ ∈ r.sortedRules, p σ = true → ρ.Precedes σ := by
  have hfirst {ρ : Rule} (h : r.sortedRules.find? p = some ρ) :
      ∀ σ ∈ r.sortedRules, p σ = true → ρ.Precedes σ := by
    intro σ hσ hp
    obtain ⟨-, before, after, hsorted, hbefore⟩ := List.find?_eq_some_iff_append.1 h
    have hpairs := r.pairwise_sortedRules
    rw [hsorted, List.pairwise_append, List.pairwise_cons] at hpairs
    rw [hsorted, List.mem_append, List.mem_cons] at hσ
    rcases hσ with hσ | rfl | hσ
    · have hnot := hbefore σ hσ
      rw [hp] at hnot
      cases hnot
    · exact .refl σ
    · exact hpairs.2.1.1 σ hσ
  constructor
  · intro h
    exact ⟨List.mem_of_find?_eq_some h, List.find?_some h, hfirst h⟩
  · rintro ⟨hρ, hp, hle⟩
    obtain ⟨σ, hσ⟩ := Option.isSome_iff_exists.1 (List.find?_isSome.2 ⟨ρ, hρ, hp⟩)
    have hmem := List.mem_of_find?_eq_some hσ
    have hσρ := priorityLe_iff.1 (hfirst hσ ρ hρ hp)
    have hρσ := priorityLe_iff.1 (hle σ hmem (List.find?_some hσ))
    rw [hσ, List.inj_on_of_nodup_map hr.nodup_sortedRules hmem hρ (by omega)]

/-- A rule of a group is the first that holds if it precedes the others that do. -/
theorem Planned.first?_eq_some (hr : r.WellFormed) (hplan : r.Planned padding plan) {g : LayerGroup}
    (hg : g ∈ plan.groups) {lr : LayerRule} (hlr : lr ∈ g.rules) {env : Env Float} :
    g.first? r env = some lr.rule ↔ lr.rule.guard.holds env = .ok true ∧
      ∀ lr' ∈ g.rules, lr'.rule.guard.holds env = .ok true → lr.rule.Precedes lr'.rule := by
  have hsorted {lr : LayerRule} (hlr : lr ∈ g.rules) : lr.rule ∈ r.sortedRules :=
    (hplan.gathered.member g hg lr hlr).1
  rw [LayerGroup.first?, find?_sortedRules hr]
  simp only [Bool.and_eq_true, List.any_eq_true, beq_iff_eq, toOption_eq_some_iff]
  constructor
  · rintro ⟨-, ⟨-, hholds⟩, hle⟩
    exact ⟨hholds, fun lr' hlr' hholds' => hle _ (hsorted hlr') ⟨⟨lr', hlr', rfl⟩, hholds'⟩⟩
  · rintro ⟨hholds, hle⟩
    refine ⟨hsorted hlr, ⟨⟨lr, hlr, rfl⟩, hholds⟩, ?_⟩
    rintro σ hσ ⟨⟨lr', hlr', hindex⟩, hholds'⟩
    obtain rfl := List.inj_on_of_nodup_map hr.nodup_sortedRules (hsorted hlr') hσ hindex
    exact hle lr' hlr' hholds'

/-- The loop's rule is preceded by those with an equality on the auxiliary index. -/
theorem Planned.precedes_general (hr : r.WellFormed) (hplan : r.Planned padding plan) {g : LayerGroup}
    (hg : g ∈ plan.groups) {lr lr' : LayerRule} (hlr : lr ∈ g.rules) (hlr' : lr' ∈ g.rules)
    (hone : lr.role.equalities = 1) {start : Int} (hrole : lr'.role = .general start) :
    lr.rule.Precedes lr'.rule := by
  have heq := hplan.equalities hr hg hlr
  have heq' := hplan.equalities hr hg hlr'
  rw [hrole, Role.equalities] at heq'
  exact Rule.precedes_of_equalities (by omega)

/-- Of two rules with an equality on the auxiliary index, one for slot zero and one for a single other
slot, one is the first of its group that holds exactly if it holds and precedes the other if that
holds. -/
theorem Planned.first?_of_equality (hr : r.WellFormed) (hplan : r.Planned padding plan)
    {g : LayerGroup} (hg : g ∈ plan.groups) {z m lr : LayerRule} (hz : g.find? "zero" = some z)
    (hm : g.find? "max" = some m) (hlr : lr ∈ g.rules) (hone : lr.role.equalities = 1) {env : Env Float} :
    g.first? r env = some lr.rule ↔ lr.rule.guard.holds env = .ok true ∧
      (z.rule.guard.holds env = .ok true → lr.rule.Precedes z.rule) ∧
      (m.rule.guard.holds env = .ok true → lr.rule.Precedes m.rule) := by
  rw [hplan.first?_eq_some hr hg hlr]
  refine and_congr_right fun _ => ⟨fun hle => ?_, fun ⟨hlez, hlem⟩ lr' hlr' hholds => ?_⟩
  · exact ⟨hle z (List.mem_of_find?_eq_some hz), hle m (List.mem_of_find?_eq_some hm)⟩
  · have hfind := (hplan.gathered.find?_eq_some hg).2 ⟨hlr', rfl⟩
    cases hrole : lr'.role with
    | zero =>
      rw [hrole] at hfind
      obtain rfl := Option.some.inj (hfind.symm.trans hz)
      exact hlez hholds
    | max e =>
      rw [hrole] at hfind
      obtain rfl := Option.some.inj (hfind.symm.trans hm)
      exact hlem hholds
    | general start => exact hplan.precedes_general hr hg hlr hlr' hone hrole

/-! ## Slot zero -/

/-- **Slot zero is written by the rule for the single slot where that is zero, else by its own.** Let a
group have both rules, its guard hold at a layer with some slots, and the expression of the single slot
have a value. Where the value is zero, the last to write slot zero is the rule for the single slot; that is
the first of the group that holds there exactly if its upper bounds hold and it precedes the rule for slot
zero, unless an upper bound of the latter fails. Elsewhere the last to write is the rule for slot zero;
that is the first that holds exactly if its upper bounds do. -/
theorem slot_zero_written_by (hr : r.Built) (hplan : r.planLayers padding = .ok plan)
    {g : LayerGroup} (hg : g ∈ plan.groups) {z m : LayerRule} (hz : g.find? "zero" = some z)
    (hm : g.find? "max" = some m) {e : String} (hrole : m.role = .max e) {size x : Float}
    (haux : r.pointEnv point plan.aux = some 0)
    (hguard : g.guard.holds (r.layerEnvAt plan.aux point) = .ok true) (hsize : 0 < size)
    (hx : eval (r.layerEnvAt plan.aux point) e = .ok x) :
    (∀ o buffers, r.roleCode o plan g buffers = g.blocks.mapM (r.blockCode o plan g buffers)) ∧
    ((x == 0) = true →
      g.writer? (r.layerEnvAt plan.aux point) size 0 = some m.rule ∧
      (g.first? r (r.pointEnv point) = some m.rule ↔
        LimitsHold plan.aux (r.pointEnv point) m.rule ∧
          (LimitsHold plan.aux (r.pointEnv point) z.rule → m.rule.Precedes z.rule))) ∧
    ((x == 0) = false →
      g.writer? (r.layerEnvAt plan.aux point) size 0 = some z.rule ∧
      (g.first? r (r.pointEnv point) = some z.rule ↔
        LimitsHold plan.aux (r.pointEnv point) z.rule)) := by
  have hwf := hr.wellFormed
  have hplan := planned_of_planLayersIn hplan
  have hzmem := List.mem_of_find?_eq_some hz
  have hmmem := List.mem_of_find?_eq_some hm
  have hzrole := LayerGroup.zero_of_find? hz
  have hzero : IsIntegral 0 ∧ toInt 0 = 0 := toFloat_natural 0
  have hslot : IsSlot 0 := ⟨hzero.1, by rw [hzero.2], by rw [hzero.2]; decide⟩
  -- The constraints on the auxiliary index say which of the two rules are for slot zero.
  have hzholds : z.role.Holds (r.pointEnv point) 0 := by
    rw [hzrole]
    exact hzero.2
  have hmholds : m.role.Holds (r.pointEnv point) 0 ↔ (x == 0) = true := by
    have hfree : Arith.mentions e plan.aux = false :=
      not_mentions_of_auxRole (hrole ▸ (hplan.gathered.member g hg m hmmem).2.1)
    have hvalue := (hasValue_layerEnvAt hfree).1 (eval_eq_ok_iff.1 hx)
    rw [hrole]
    exact ⟨fun ⟨y, hy, hy0⟩ => hy.unique hvalue ▸ hy0, fun h => ⟨x, hvalue, h⟩⟩
  have hzguard := hplan.guard_holds hwf hg hzmem haux hslot
  have hmguard := hplan.guard_holds hwf hg hmmem haux hslot
  simp only [hguard, true_and, hzholds, hmholds] at hzguard hmguard
  -- The loop starts beyond slot zero.
  have hzwrites : g.writes (r.layerEnvAt plan.aux point) size 0 z = true :=
    (hplan.writes_iff hg hzmem hslot hsize).2 ⟨hzholds, by simp [hzrole, Role.text]⟩
  have hmwrites : g.writes (r.layerEnvAt plan.aux point) size 0 m = true ↔ (x == 0) = true := by
    rw [hplan.writes_iff hg hmmem hslot hsize, hmholds]
    simp [hrole, Role.text]
  have hwriter : g.writer? (r.layerEnvAt plan.aux point) size 0 =
      if x == 0 then some m.rule else some z.rule := by
    rw [writer?_eq, hplan.general_leaves_zero hg (by simp [hz]) hslot hsize hzero.2, hz, hm]
    cases hx0 : x == 0 <;> simp_all [Option.filter]
  refine ⟨fun o buffers => roleCode_eq r o plan g buffers, fun hx0 => ?_, fun hx0 => ?_⟩
  · rw [hplan.first?_of_equality hwf hg hz hm hmmem (by rw [hrole]; rfl), hzguard, hmguard, hwriter]
    simp [hx0, Rule.Precedes.refl]
  · rw [hplan.first?_of_equality hwf hg hz hm hzmem (by rw [hzrole]; rfl), hzguard, hmguard, hwriter]
    simp [hx0, Rule.Precedes.refl]

end

/-- A rule for slot zero and one for the last slot but one, which is slot zero in layer one. -/
def meetingSteps (rules : List Step) : List Step :=
  [.validity ["t >= 0", "t <= n"], .base [("n", 0), ("t", 0)] (.number 1)] ++ rules

/-- Slot zero is twice the one of the layer before. -/
def doubledZero : Step :=
  .rule "n > 0 && t == 0" "2*E[n-1,t]" none none

/-- The last slot but one is three times the last of the layer before. -/
def tripledLast : Step :=
  .rule "n > 0 && t == n-1" "3*E[n-1,t]" none none

/-- In layer one the rule for the last slot but one writes slot zero, as the first that is declared. -/
theorem slot_zero_written_by_declared_first : ∃ r plan g z m e size x,
    planOf (meetingSteps [tripledLast, doubledZero]) = .ok (r, plan) ∧ g ∈ plan.groups ∧
      g.find? "zero" = some z ∧ g.find? "max" = some m ∧ m.role = .max e ∧
      g.guard.holds (r.layerEnvAt plan.aux [(1 : Float), 0]) = .ok true ∧
      eval (r.layerEnvAt plan.aux [(1 : Float), 0]) plan.bound.expr = .ok size ∧ 0 < size ∧
      eval (r.layerEnvAt plan.aux [(1 : Float), 0]) e = .ok x ∧ (x == 0) = true ∧
      g.writer? (r.layerEnvAt plan.aux [1, 0]) size 0 = some m.rule ∧
      (g.first? r (r.pointEnv [(1 : Float), 0]) = some m.rule ↔
        LimitsHold plan.aux (r.pointEnv [1, 0]) m.rule ∧
          (LimitsHold plan.aux (r.pointEnv [1, 0]) z.rule → m.rule.Precedes z.rule)) := by
  have hcheck : ((planOf (meetingSteps [tripledLast, doubledZero])).toOption.any fun p =>
      p.1.indices == ["n", "t"] && p.2.aux == "t" && p.2.groups.any fun g =>
        (g.find? "zero").isSome &&
        (g.guard.holds (p.1.layerEnvAt p.2.aux [(1 : Float), 0])).toOption.any id &&
        (eval (p.1.layerEnvAt p.2.aux [(1 : Float), 0]) p.2.bound.expr).toOption.any (0 < ·) &&
        (g.find? "max").any fun m =>
          (eval (p.1.layerEnvAt p.2.aux [(1 : Float), 0]) m.slotText).toOption.any (· == 0)) = true := by
    decide +kernel
  obtain ⟨⟨r, plan⟩, hrun, hcheck⟩ := exists_ok_of_any hcheck
  obtain ⟨hbuilt, hplan⟩ := planOf_eq_ok hrun
  simp only [Bool.and_eq_true, beq_iff_eq, List.any_eq_true] at hcheck
  obtain ⟨⟨hindices, hname⟩, g, hg, ⟨⟨hz, hguard⟩, hsize⟩, hm⟩ := hcheck
  obtain ⟨z, hz⟩ := Option.isSome_iff_exists.1 hz
  obtain ⟨b, hguard, rfl⟩ := exists_ok_of_any hguard
  obtain ⟨size, hsize, hpos⟩ := exists_ok_of_any hsize
  obtain ⟨m, hm, hvalue⟩ := (Option.any_eq_true _ _).1 hm
  obtain ⟨e, hrole⟩ := LayerGroup.max_of_find? hm
  rw [LayerRule.slotText, hrole] at hvalue
  obtain ⟨x, hx, hx0⟩ := exists_ok_of_any hvalue
  have haux : r.pointEnv [(1 : Float), 0] plan.aux = some 0 := by simp [pointEnv, hindices, hname]
  have hpos := of_decide_eq_true hpos
  obtain ⟨-, hmeets, -⟩ := slot_zero_written_by hbuilt hplan hg hz hm hrole haux hguard hpos hx
  exact ⟨r, plan, g, z, m, e, size, x, hrun, hg, hz, hm, hrole, hguard, hsize, hpos, hx, hx0, hmeets hx0⟩

/-- **The later rule can write last**: declared the other way around, both rules hold at slot zero of
layer one, and the one for slot zero comes first. The other one writes it last: the layer has three
there, and the rules give two. -/
theorem slot_zero_overwritten : ∃ r plan g c size x y,
    planOf (meetingSteps [doubledZero, tripledLast]) = .ok (r, plan) ∧
      ({} : Catalog).register r userModule = .ok c ∧ g ∈ plan.groups ∧
      (g.find? "zero").isSome ∧ (g.find? "max").isSome ∧
      g.guard.holds (r.layerEnvAt plan.aux [(1 : Float), 0]) = .ok true ∧
      eval (r.layerEnvAt plan.aux [(1 : Float), 0]) plan.bound.expr = .ok size ∧ 0 < size ∧
      (g.writer? (r.layerEnvAt plan.aux [1, 0]) size 0).map (·.index) = some 1 ∧
      (g.first? r (r.pointEnv [(1 : Float), 0])).map (·.index) = some 0 ∧
      c.evaluate r.name [(1 : Float), 0] (fun _ => none) true = .ok x ∧ (x == 3) = true ∧
      (∃ depth, r.interpretTo depth (fun _ => none) (fun _ => none) [(1 : Float), 0] = .ok y) ∧
      (y == 2) = true := by
  have hcheck : ((planOf (meetingSteps [doubledZero, tripledLast])).toOption.any fun p =>
      (({} : Catalog).register p.1 userModule).toOption.any fun c =>
        decide ([(1 : Float), 0].length = p.1.indices.length) &&
        (c.evaluate p.1.name [(1 : Float), 0] (fun _ => none) true).toOption.any (· == 3) &&
        (recurse (fun _ => none) (fun _ => none) 3 p.1 [(1 : Float), 0]).toOption.any (· == 2) &&
        p.2.groups.any fun g => (g.find? "zero").isSome && (g.find? "max").isSome &&
          (g.guard.holds (p.1.layerEnvAt p.2.aux [(1 : Float), 0])).toOption.any id &&
          (g.first? p.1 (p.1.pointEnv [(1 : Float), 0])).map (·.index) == some 0 &&
          (eval (p.1.layerEnvAt p.2.aux [(1 : Float), 0]) p.2.bound.expr).toOption.any fun size =>
            decide (0 < size) &&
            (g.writer? (p.1.layerEnvAt p.2.aux [1, 0]) size 0).map (·.index) == some 1) = true := by
    decide +kernel
  obtain ⟨⟨r, plan⟩, hrun, hcheck⟩ := exists_ok_of_any hcheck
  obtain ⟨c, hc, hcheck⟩ := exists_ok_of_any hcheck
  simp only [Bool.and_eq_true, beq_iff_eq (α := Option Nat), List.any_eq_true, decide_eq_true_eq] at hcheck
  obtain ⟨⟨⟨hrank, hlayered⟩, hrecurse⟩, g, hg, ⟨⟨⟨hz, hm⟩, hguard⟩, hfirst⟩, hsize⟩ := hcheck
  obtain ⟨x, hx, hthree⟩ := exists_ok_of_any hlayered
  obtain ⟨y, hy, htwo⟩ := exists_ok_of_any hrecurse
  obtain ⟨b, hguard, rfl⟩ := exists_ok_of_any hguard
  obtain ⟨size, hsize, hwriter⟩ := exists_ok_of_any hsize
  simp only [Bool.and_eq_true, beq_iff_eq (α := Option Nat), decide_eq_true_eq] at hwriter
  have hresolve : Resolver.Faithful (fun _ => none) r := ⟨nofun, nofun⟩
  have hpoint : NoNegativeZero [1, 0] := List.forall_mem_iff_get.2 (by decide +kernel)
  have hinterpret := (Derivable.of_recurse hy).interpretTo_eq_ok hresolve hrank hpoint
  exact ⟨r, plan, g, c, size, x, y, hrun, hc, hg, hz, hm, hguard, hsize, hwriter.1, hwriter.2, hfirst, hx,
    hthree, hinterpret, htwo⟩

end Recurrence

end RecurrenceCompiler
