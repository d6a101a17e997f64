import RecurrenceCompiler.Proofs.Codegen.BaseCode
import RecurrenceCompiler.Proofs.Script.Scopes

/-!
# Families of layers

The layers of a plan are read as a family of cases, one for each base layer and then one for each group of
rules (`exists_readsFamily`). A function of the family selects the first case whose guard holds. The one that
fills buffers runs the statements of the case, and the caller gets back the buffer as these statements leave
it (`Family.fill_of_run`).
-/

namespace RecurrenceCompiler

open Text Decimal Arith Script

section
variable {α β γ : Type} {R : α → β → Prop} {S : β → γ → Prop}

/-- Lists that belong to the same list belong together. -/
theorem forall₂_comp {as : List α} {bs : List β} {cs : List γ} (h : List.Forall₂ R as bs)
    (h' : List.Forall₂ S bs cs) : List.Forall₂ (fun a c => ∃ b, R a b ∧ S b c) as cs := by
  induction h generalizing cs with
  | nil =>
    cases h'
    exact .nil
  | cons hab _ ih =>
    cases h' with
    | cons hbc h' => exact .cons ⟨_, hab, hbc⟩ (ih h')

/-- What stands around an element on the left stands around its partner on the right. -/
theorem forall₂_split {as₁ as₂ : List α} {a : α} {bs : List β} (h : List.Forall₂ R (as₁ ++ a :: as₂) bs) :
    ∃ bs₁ b bs₂, bs = bs₁ ++ b :: bs₂ ∧ List.Forall₂ R as₁ bs₁ ∧ R a b := by
  induction as₁ generalizing bs with
  | nil =>
    cases h with
    | cons hab _ => exact ⟨[], _, _, rfl, .nil, hab⟩
  | cons c as₁ ih =>
    cases h with
    | @cons _ d _ _ hcd h =>
      obtain ⟨bs₁, b, bs₂, rfl, hbs, hab⟩ := ih h
      exact ⟨d :: bs₁, b, bs₂, rfl, .cons hcd hbs, hab⟩

end

namespace Script

/-! ## Reading a case -/

/-- Parameters are distinct. -/
theorem nodup_of_require {params : List String} (h : require (canBeParams params) = .ok ()) :
    params.Nodup := by
  rw [require] at h
  split at h
  · next hparams =>
    rw [canBeParams, Bool.and_eq_true, decide_eq_true_eq] at hparams
    exact hparams.1
  · cases h

/-- What a case declares has distinct names. -/
theorem nodup_of_declares {params : List String} {c : LayerCase String}
    (h : require (canDeclareUnder params c.declared) = .ok ()) : (declared c.body).Nodup := by
  rw [require] at h
  split at h
  · next hdeclares =>
    rw [LayerCase.declared] at hdeclares
    split at hdeclares
    · next hempty =>
      rw [List.isEmpty_iff.1 hempty]
      exact List.nodup_nil
    · rw [canDeclareUnder, canDeclare, Bool.and_eq_true, Bool.and_eq_true, Bool.and_eq_true] at hdeclares
      obtain ⟨⟨-, hnames, -⟩, -⟩ := hdeclares
      rw [canBeParams, Bool.and_eq_true, decide_eq_true_eq] at hnames
      exact (List.nodup_cons.1 hnames.1).2
  · cases h

/-- A case is read part by part. -/
theorem readCase_eq_ok {f : Family String} {c : LayerCase String} {x : LayerCase Expression}
    (h : readCase f c = .ok x) : readText c.guard = .ok x.guard ∧ readText c.size = .ok x.size ∧
      readStmts c.body = .ok x.body ∧ (declared c.body).Nodup := by
  obtain ⟨⟨⟩, hdeclares, h⟩ := bind_ok h
  obtain ⟨guard, hguard, h⟩ := bind_ok h
  obtain ⟨size, hsize, h⟩ := bind_ok h
  obtain ⟨body, hbody, h⟩ := bind_ok h
  cases h
  exact ⟨hguard, hsize, hbody, nodup_of_declares hdeclares⟩

/-! ## What a case leaves -/

section
variable {w : World Float} {s : Locals Float}

/-- The first case whose guard holds is found. -/
theorem selectCase_of_first {before after : List (LayerCase Expression)} {c : LayerCase Expression}
    (hbefore : ∀ c ∈ before, w.test s c.guard = .ok false) (hc : w.test s c.guard = .ok true) :
    Family.selectCase w s (before ++ c :: after) = .ok (some c) := by
  induction before with
  | nil =>
    rw [List.nil_append, Family.selectCase, hc]
    rfl
  | cons d before ih =>
    rw [List.forall_mem_cons] at hbefore
    rw [List.cons_append, Family.selectCase, hbefore.1]
    exact ih hbefore.2

/-- Where no guard holds, there is no case. -/
theorem selectCase_eq_none {cases : List (LayerCase Expression)} (h : ∀ c ∈ cases, w.test s c.guard = .ok false) :
    Family.selectCase w s cases = .ok none := by
  induction cases with
  | nil => rfl
  | cons c cases ih =>
    rw [List.forall_mem_cons] at h
    rw [Family.selectCase, h.1]
    exact ih h.2

end

/-- The names of a case of a family before its statements run. -/
def Family.caseLocals (f : Family Expression) (c : LayerCase Expression) (args : List (Value Float)) (size : Float) :
    Locals Float :=
  ((Locals.ofParams f.fillParams args).enter ("N_VALUES" :: declared c.body)).assign "N_VALUES" (.num size)

section
variable {f : Family Expression} {c : LayerCase Expression} {limits : Limits} {w : World Float}
  {args numbers vars : List (Value Float)} {zeros table v : Value Float} {size : Float} {t : Locals Float} {i : Nat}
  {n : String}

theorem Family.names_caseLocals (args : List (Value Float)) : (f.caseLocals c args size).names =
    "N_VALUES" :: declared c.body ++ f.fillParams := by
  rw [caseLocals, Locals.names_assign, Locals.names_enter, Locals.names_ofParams]

/-- A parameter has its argument. -/
theorem Family.find?_caseLocals (hnodup : f.fillParams.Nodup)
    (hfresh : ∀ n ∈ "N_VALUES" :: declared c.body, n ∉ f.fillParams) (hn : f.fillParams[i]? = some n)
    (hv : args[i]? = some v) : (f.caseLocals c args size).find? n = some ⟨n, some v⟩ := by
  have hother : ∀ m ∈ "N_VALUES" :: declared c.body, n ≠ m := fun m hm heq =>
    hfresh m hm (heq ▸ List.mem_of_getElem? hn)
  rw [caseLocals, Locals.find?_assign_of_ne (hother _ List.mem_cons_self),
    Locals.find?_enter fun hmem => hother _ hmem rfl]
  exact Locals.find?_ofParams hnodup hn hv

/-- The buffer stands behind the layer indices. -/
theorem Family.getElem?_out (hnumbers : numbers.length = f.layerIndices.length) :
    f.fillParams[numbers.length]? = some "out" := by
  simp [fillParams, hnumbers]

/-- Statements that change the buffer alone leave each other parameter its argument. -/
theorem Family.find?_left (hnodup : f.fillParams.Nodup) (hnumbers : numbers.length = f.layerIndices.length)
    (hfresh : ∀ n ∈ "N_VALUES" :: declared c.body, n ∉ f.fillParams)
    (hothers : ∀ n ∈ f.fillParams, n ≠ "out" →
      t.find? n = (f.caseLocals c (numbers ++ [zeros] ++ vars) size).find? n)
    (hout : t.find? "out" = some ⟨"out", some table⟩) (hn : f.fillParams[i]? = some n)
    (hv : (numbers ++ [table] ++ vars)[i]? = some v) : t.find? n = some ⟨n, some v⟩ := by
  have hplace := f.getElem?_out hnumbers
  by_cases heq : n = "out"
  · subst heq
    obtain rfl : i = numbers.length :=
      (List.getElem?_inj (List.getElem?_eq_some_iff.1 hn).1 hnodup).1 (hn.trans hplace.symm)
    rw [hout]
    simpa using hv
  · have hi : i ≠ numbers.length := by
      rintro rfl
      exact heq (Option.some.inj (hn.symm.trans hplace))
    rw [hothers n (List.mem_of_getElem? hn) heq]
    refine Family.find?_caseLocals hnodup hfresh hn ?_
    rw [List.append_assoc] at hv ⊢
    rcases Nat.lt_or_gt_of_ne hi with hlt | hgt
    · rwa [List.getElem?_append_left hlt] at hv ⊢
    · rw [List.getElem?_append_right hgt.le, List.getElem?_append_right (by simp; omega)] at hv ⊢
      simpa using hv

/-- **A case of a family leaves the buffer as its statements do**, and the other arguments as they were. -/
theorem Family.fill_of_run (hnodup : f.fillParams.Nodup) (hnumbers : numbers.length = f.layerIndices.length)
    (hvars : vars.length = f.vars.length)
    (hselect : selectCase w (Locals.ofParams f.layerIndices (numbers ++ [zeros] ++ vars)) f.cases = .ok (some c))
    (hsized : w.eval (Locals.ofParams f.layerIndices (numbers ++ [zeros] ++ vars)) c.size = .ok (.num size))
    (hfresh : ∀ n ∈ "N_VALUES" :: declared c.body, n ∉ f.fillParams)
    (hrun : runStmts limits w (f.caseLocals c (numbers ++ [zeros] ++ vars) size) c.body = .ok (t, none))
    (hnames : t.names = (f.caseLocals c (numbers ++ [zeros] ++ vars) size).names)
    (hothers : ∀ n ∈ f.fillParams, n ≠ "out" →
      t.find? n = (f.caseLocals c (numbers ++ [zeros] ++ vars) size).find? n)
    (hout : t.find? "out" = some ⟨"out", some table⟩) :
    f.fill limits w (numbers ++ [zeros] ++ vars) = .ok ⟨.undefined, numbers ++ [table] ++ vars⟩ := by
  rw [fill, hselect]
  dsimp only [bind, Except.bind]
  split
  · next hempty =>
    -- Without statements the buffer is the one of zeros.
    rw [List.isEmpty_iff.1 hempty, runStmts, Except.ok.injEq, Prod.mk.injEq] at hrun
    obtain ⟨rfl, -⟩ := hrun
    have hzeros : (f.caseLocals c (numbers ++ [zeros] ++ vars) size).find? "out" = some ⟨"out", some zeros⟩ :=
      Family.find?_caseLocals hnodup hfresh (f.getElem?_out hnumbers) (by simp)
    rw [hzeros, Option.some.injEq, Binding.mk.injEq, Option.some.injEq] at hout
    rw [hout.2]
    rfl
  · next hne =>
    have hdeclared : c.declared = "N_VALUES" :: declared c.body := by rw [LayerCase.declared, if_neg hne]
    have hrun : runStmts limits w (((Locals.ofParams f.fillParams (numbers ++ [zeros] ++ vars)).enter
        c.declared).assign "N_VALUES" (.num size)) c.body = .ok (t, none) := by rwa [hdeclared]
    rw [hsized]
    dsimp only
    rw [hrun]
    refine congrArg (fun left => Except.ok (Returned.mk Value.undefined left)) ?_
    have hentered : t.names = "N_VALUES" :: declared c.body ++
        (Locals.ofParams f.fillParams (numbers ++ [zeros] ++ vars)).names := by
      rw [hnames, names_caseLocals, Locals.names_ofParams]
    have hleft : (Locals.leave (Locals.ofParams f.fillParams (numbers ++ [zeros] ++ vars)) t).names =
        f.fillParams := by rw [Locals.names_leave hentered, Locals.names_ofParams]
    have hlength : f.fillParams.length = (numbers ++ [zeros] ++ vars).length := by
      simp [fillParams, hnumbers, hvars]
    refine Locals.arguments_eq (by rwa [hleft]) (by simp) (by rwa [hleft]) fun i n v hn hv => ?_
    rw [hleft] at hn
    rw [Locals.find?_leave hentered fun hdec => hfresh n hdec (List.mem_of_getElem? hn)]
    exact Family.find?_left hnodup hnumbers hfresh hothers hout hn hv

end

end Script

namespace Recurrence

variable {r : Recurrence} {o : CodegenOptions} {resolve : Resolver} {plan : LayerPlan} {l : BaseLayer} {g : LayerGroup}

/-! ## Cases of base layers -/

/-- A case of a family that is read from the code of a base layer. -/
structure ReadsBase (r : Recurrence) (o : CodegenOptions) (plan : LayerPlan) (l : BaseLayer)
    (c : LayerCase Expression) : Prop where
  guard : readText (BaseLayer.guard plan.layerIndices l).render = .ok c.guard
  size : readText (intText l.size) = .ok c.size
  body : ∃ code, r.baseCode o plan l (l.bases.map (·.2)) = .ok code ∧ readStmts code = .ok c.body

/-! ## Cases of rule layers -/

/-- The guard of a group as code tests it: its own and what the validity asks of the layer. -/
def layerGuard (r : Recurrence) (plan : LayerPlan) (g : LayerGroup) : Guard :=
  g.guard.and (r.validity.onLayer plan.aux)

/-- A case of a family that is read from the code of a group. -/
structure ReadsGroup (r : Recurrence) (o : CodegenOptions) (resolve : Resolver) (plan : LayerPlan) (g : LayerGroup)
    (c : LayerCase Expression) : Prop where
  guard : readText (r.layerGuard plan g).render = .ok c.guard
  size : readText plan.bound.expr = .ok c.size
  body : ∃ ss code, r.groupCode o resolve plan g = .ok (ss, code) ∧ readStmts code = .ok c.body ∧
    (declared code).Nodup

/-- Groups are guarded in their order. -/
theorem groupGuardsAfter_eq_ok {validity : Guard} {earlier : List Guard} {groups : List LayerGroup}
    {guards : List GroupGuard} (h : r.groupGuardsAfter validity earlier groups = .ok guards) :
    guards.map (fun gg => (gg.group, gg.guard)) = groups.map fun g => (g, g.guard.and validity) := by
  induction groups generalizing earlier guards with
  | nil =>
    cases h
    rfl
  | cons g gs ih =>
    rw [groupGuardsAfter] at h
    dsimp only at h
    generalize (if ((g.guard.and validity).size == 0) = true then [] else [(g.guard.and validity).render]) ++
      (earlier.filter fun e => !(g.guard.and validity).provablyDisjoint e).map Guard.renderNegated = parts at h
    split at h
    · cases h
    · obtain ⟨rest, hrest, h⟩ := bind_ok h
      cases h
      rw [List.map_cons, List.map_cons, ih hrest]

/-- A family that is read from the code of a plan: its cases are those of the base layers and then those of the
groups. -/
structure ReadsFamily (r : Recurrence) (o : CodegenOptions) (resolve : Resolver) (plan : LayerPlan)
    (f : Family Expression) (bases groups : List (LayerCase Expression)) : Prop where
  cases : f.cases = bases ++ groups
  indices : f.indices = r.indices
  layerIndices : f.layerIndices = plan.layerIndices
  aux : f.aux = plan.aux
  vars : f.vars = r.runtimeVars
  accessor : f.accessor = coeffName r.name
  params : f.fillParams.Nodup
  bases : List.Forall₂ (r.ReadsBase o plan) plan.baseLayers bases
  groups : List.Forall₂ (r.ReadsGroup o resolve plan) plan.groups groups

/-- The cases that are written for a plan. -/
theorem exists_cases_of_jsLayered {ss : List Strategy} {m : Script.Module String}
    (h : r.jsLayered o resolve plan = .ok (ss, m)) : ∃ bases groups : List (LayerCase String),
      m.content = .family ⟨coeffName r.name, r.indices, plan.layerIndices, plan.aux, r.runtimeVars, bases ++ groups⟩ ∧
      List.Forall₂ (fun l c => c.guard = (BaseLayer.guard plan.layerIndices l).render ∧ c.size = intText l.size ∧
        r.baseCode o plan l (l.bases.map (·.2)) = .ok c.body) plan.baseLayers bases ∧
      List.Forall₂ (fun g c => c.guard = (r.layerGuard plan g).render ∧ c.size = plan.bound.expr ∧
        ∃ ss, r.groupCode o resolve plan g = .ok (ss, c.body)) plan.groups groups := by
  obtain ⟨bases, hbases, h⟩ := bind_ok h
  obtain ⟨guards, hguards, h⟩ := bind_ok h
  obtain ⟨groups, hgroups, h⟩ := bind_ok h
  cases h
  refine ⟨bases, groups.map (·.2), rfl, ?_, ?_⟩
  · rw [← List.zipIdx_map_fst 0 plan.baseLayers, List.forall₂_map_left_iff]
    refine (forall₂_of_mapM hbases).imp fun p c hc => ?_
    obtain ⟨body, hbody, hc⟩ := bind_ok hc
    cases hc
    exact ⟨rfl, rfl, hbody⟩
  · have hcode : List.Forall₂ (fun (gg : GroupGuard) c => c.guard = gg.guard.render ∧ c.size = plan.bound.expr ∧
        ∃ ss, r.groupCode o resolve plan gg.group = .ok (ss, c.body)) guards (groups.map (·.2)) := by
      rw [← List.zipIdx_map_fst 0 guards, List.forall₂_map_left_iff, List.forall₂_map_right_iff]
      refine (forall₂_of_mapM hgroups).imp fun p c hc => ?_
      obtain ⟨⟨ss, body⟩, hbody, hc⟩ := bind_ok hc
      cases hc
      exact ⟨rfl, rfl, ss, hbody⟩
    have hguards := groupGuardsAfter_eq_ok hguards
    rw [← List.forall₂_eq_eq_eq, List.forall₂_map_left_iff, List.forall₂_map_right_iff] at hguards
    refine (forall₂_comp hguards.flip hcode).imp fun g c hc => ?_
    obtain ⟨gg, heq, hguard, hsize, ss, hbody⟩ := hc
    obtain ⟨rfl, hgg⟩ := Prod.mk.inj heq
    exact ⟨hguard.trans (congrArg Guard.render hgg), hsize, ss, hbody⟩

/-- **A family that is read has a case for each base layer and then one for each group.** -/
theorem exists_readsFamily {ss : List Strategy} {m : Script.Module String} {c : Content Expression}
    (h : r.jsLayered o resolve plan = .ok (ss, m)) (hread : readContent m.content = .ok c) :
    ∃ f bases groups, c = .family f ∧ r.ReadsFamily o resolve plan f bases groups := by
  obtain ⟨bases, groups, hcontent, hbases, hgroups⟩ := exists_cases_of_jsLayered h
  rw [hcontent] at hread
  obtain ⟨⟨⟩, hparams, hread⟩ := bind_ok hread
  obtain ⟨⟨⟩, -, hread⟩ := bind_ok hread
  obtain ⟨cases, hcases, hread⟩ := bind_ok hread
  cases hread
  have hcases := (forall₂_of_mapM hcases).flip
  refine ⟨_, cases.take bases.length, cases.drop bases.length, rfl, (List.take_append_drop ..).symm, rfl, rfl, rfl,
    rfl, rfl, nodup_of_require hparams, ?_, ?_⟩
  · refine (forall₂_comp hbases (List.forall₂_take_append _ _ _ hcases).flip).imp fun l c hc => ?_
    obtain ⟨written, ⟨hguard, hsize, hcode⟩, hc⟩ := hc
    obtain ⟨hg, hs, hb, -⟩ := readCase_eq_ok hc
    exact ⟨hguard ▸ hg, hsize ▸ hs, _, hcode, hb⟩
  · refine (forall₂_comp hgroups (List.forall₂_drop_append _ _ _ hcases).flip).imp fun g c hc => ?_
    obtain ⟨written, ⟨hguard, hsize, ss, hcode⟩, hc⟩ := hc
    obtain ⟨hg, hs, hb, hdeclares⟩ := readCase_eq_ok hc
    exact ⟨hguard ▸ hg, hsize ▸ hs, ss, _, hcode, hb, hdeclares⟩

section
variable {f : Family Expression} {bases groups : List (LayerCase Expression)}

/-- A family has the names of its recurrence. -/
theorem ReadsFamily.names (hf : r.ReadsFamily o resolve plan f bases groups) :
    f.layer = layerName r.name ∧ f.sizeName = layerName r.name ++ "Size" := by
  have hlayer : f.layer = layerName r.name := by rw [Family.layer, hf.accessor, layerName]
  exact ⟨hlayer, by rw [Family.sizeName, hlayer]⟩

theorem ReadsFamily.fillParams_eq (hf : r.ReadsFamily o resolve plan f bases groups) :
    f.fillParams = plan.layerIndices ++ ["out"] ++ r.runtimeVars := by
  rw [Family.fillParams, hf.layerIndices, hf.vars]

theorem ReadsFamily.mem_fillParams (hf : r.ReadsFamily o resolve plan f bases groups)
    (hindices : plan.layerIndices ⊆ r.indices) {n : String} (hn : n ∈ f.fillParams) : n = "out" ∨ n ∈ r.params := by
  rw [hf.fillParams_eq, List.mem_append, List.mem_append, List.mem_singleton] at hn
  rcases hn with (hn | hn) | hn
  · exact .inr (List.mem_append_left _ (hindices hn))
  · exact .inl hn
  · exact .inr (List.mem_append_right _ hn)

end

end Recurrence

end RecurrenceCompiler
