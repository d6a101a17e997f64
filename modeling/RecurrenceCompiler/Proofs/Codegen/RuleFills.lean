import RecurrenceCompiler.Proofs.Codegen.BaseFills
import RecurrenceCompiler.Proofs.Codegen.BufferFills

/-!
# Filling rule layers

A layer that no base case binds is computed by the first group whose guard holds there (`selectCase_group`). The
code of the group fills a buffer with each layer that the rules read, and then writes the rules to the slots of
the layer (`runStmts_group`). So the family leaves a buffer of zeros with what the rules of the group have as
their values at the slots (`fill_group`).
-/

namespace RecurrenceCompiler

open Text Decimal Arith Script

namespace Recurrence

variable {r : Recurrence} {o : CodegenOptions} {resolve : Resolver} {padding : Amount} {plan : LayerPlan}
  {g : LayerGroup} {buffers : List Buffer}

/-! ## Recurrences whose layers can be computed -/

/-- No parameter has a name that the code of layers uses for something else. -/
structure AvoidsLayerNames (r : Recurrence) : Prop where
  fixed : ∀ n ∈ r.params, n ∉ ["out", "N_VALUES", "size", "Array", "Math", layerName r.name, layerName r.name ++ "Size"]
  introduced : ∀ n ∈ r.params, ¬ Body.Introduced n
  buffers : ∀ n ∈ r.params, n.toList.take 4 ≠ "prev".toList

/-- A recurrence whose layers can be computed by its code. It calls only itself, scripts read its texts as they are,
also where indices are fixed, and no name is used twice. -/
structure LayerRunnable (r : Recurrence) (plan : LayerPlan) : Prop where
  scripted : r.Scripted
  binds : r.BindsExactly
  names : r.AvoidsLayerNames
  self : ∀ rule ∈ r.rules, ∀ c ∈ rule.expr.calls, r.isSelf c = true
  shifts : ∀ rule ∈ r.rules, ∀ c ∈ rule.expr.calls, ∀ i, (c.shiftAt i).natAbs ≤ 2 ^ 52
  bound : plan.bound.source ≠ .default ∧ Readable plan.bound.expr
  zeros : ∀ g ∈ plan.groups, ∀ lr ∈ g.rules, lr.role = .zero →
    ∀ t ∈ (lr.rule.expr.substitute (fixed plan.aux "0")).texts, Readable t
  lines : ∀ g ∈ plan.groups, ∀ lr ∈ g.rules, ∀ e, lr.role = .max e → isOneLine e
  bases : ∀ l ∈ plan.baseLayers, ∀ b ∈ l.bases.map (·.2), ∀ t ∈ (written plan l b b.value).texts, Readable t

/-- The rules of a group are rules of the recurrence. -/
theorem Gathered.mem_rules {aux : String} {groups : List LayerGroup} (h : r.Gathered aux r.sortedRules groups)
    (hg : g ∈ groups) : ∀ lr ∈ g.rules, lr.rule ∈ r.rules :=
  fun lr hlr => (sortedRules_perm r).subset (h.member g hg lr hlr).1

/-- The code of a group of such a recurrence can be run. -/
theorem LayerRunnable.runnableGroup (h : r.LayerRunnable plan) (hplan : r.planLayers padding = .ok plan)
    (hg : g ∈ plan.groups) (hbuffers : r.buffers plan g = .ok buffers) : r.RunnableGroup plan g buffers := by
  have hrules := (planned_of_planLayersIn hplan).gathered.mem_rules hg
  refine h.scripted.runnableGroup hplan hg hbuffers (fun n hn => ⟨fun heq => ?_, fun heq => ?_, ?_⟩)
    (fun lr hlr c hc => h.shifts _ (hrules lr hlr) c hc _) (h.zeros g hg) (h.lines g hg)
  · exact h.names.fixed n hn (by simp [heq])
  · exact h.names.fixed n hn (by simp [heq])
  · exact h.names.introduced n hn

/-! ## Names in the code of layers -/

/-- The names of buffers start alike. -/
theorem take_bufferName (count place : Nat) : (bufferName count place).toList.take 4 = "prev".toList := by
  rw [bufferName]
  split
  · rfl
  · rw [String.toList_append]
    rfl

theorem notMem_bufferName (count place : Nat) : 'C' ∉ (bufferName count place).toList := by
  rw [bufferName]
  split
  · decide
  · rw [String.toList_append, Body.toList_toString, List.mem_append]
    rintro (hc | hc)
    · exact absurd hc (by decide)
    · exact absurd (List.all_eq_true.1 (all_isDigit_toDigits place) _ hc) (by decide)

/-- A name of a case that computes a rule layer: the number of slots, the layer itself, a buffer or a parameter. -/
inductive CaseName (r : Recurrence) (plan : LayerPlan) : String → Prop
  | count : CaseName r plan "N_VALUES"
  | out : CaseName r plan "out"
  | buffer (count place : Nat) : CaseName r plan (bufferName count place)
  | param {n : String} : n ∈ plan.layerIndices ++ r.runtimeVars → CaseName r plan n

/-- Buffers are named by their places. -/
theorem exists_name_of_buffers (h : r.buffers plan g = .ok buffers) {b : Buffer} (hb : b ∈ buffers) :
    ∃ count place, b.name = bufferName count place := by
  obtain ⟨signatures, -, hcollected, -⟩ := buffers_eq_ok h
  obtain ⟨place, hplace⟩ := hcollected b hb
  exact ⟨_, _, hplace.name⟩

/-- Buffers have names of their own. -/
theorem LayerRunnable.fresh_bufferName (h : r.LayerRunnable plan) (count place : Nat) :
    bufferName count place ∉ r.params ∧ bufferName count place ≠ "N_VALUES" ∧ bufferName count place ≠ "out" ∧
      ¬ IsElementary (bufferName count place) := by
  have htake := take_bufferName count place
  have hmath : ∀ m ∈ mathNames, m.toList.take 4 ≠ "prev".toList := by decide
  refine ⟨fun hparam => h.names.buffers _ hparam htake, fun heq => ?_, fun heq => ?_, ?_⟩
  · exact absurd (heq ▸ htake) (by decide)
  · exact absurd (heq ▸ htake) (by decide)
  · rintro (hn | hn | hn)
    · exact hmath _ hn htake
    · exact absurd (hn ▸ htake) (by decide)
    · exact absurd (hn ▸ htake) (by decide)

theorem mem_params (hindices : plan.layerIndices ⊆ r.indices) {n : String}
    (hn : n ∈ plan.layerIndices ++ r.runtimeVars) : n ∈ r.params :=
  (List.mem_append.1 hn).elim (fun hi => List.mem_append_left _ (hindices hi)) fun hv => List.mem_append_right _ hv

/-- The names of a case are neither elementary nor introduced by bodies. -/
theorem CaseName.free {n : String} (hn : CaseName r plan n) (h : r.LayerRunnable plan)
    (hindices : plan.layerIndices ⊆ r.indices) : ¬ (IsElementary n ∨ Body.Introduced n) := by
  cases hn with
  | count =>
    rintro (hn | hn)
    · exact absurd hn (by decide)
    · exact absurd hn.underscore (by decide)
  | out =>
    rintro (hn | hn)
    · exact absurd hn (by decide)
    · exact absurd hn.underscore (by decide)
  | buffer count place =>
    rintro (hn | hn)
    · exact (h.fresh_bufferName count place).2.2.2 hn
    · have hfirst := congrArg List.head? (take_bufferName count place)
      rw [List.head?_take, if_neg (by decide), hn.underscore] at hfirst
      cases hfirst
  | param hn =>
    have hparam := mem_params hindices hn
    rintro (hn | hn)
    · exact h.scripted.notMem_of_isElementary hn hparam
    · exact h.names.introduced _ hparam hn

/-- The auxiliary index is no name of a case. -/
theorem LayerRunnable.not_caseName_aux (h : r.LayerRunnable plan) (hlayered : r.BaseLayered plan) :
    ¬ CaseName r plan plan.aux := by
  have haux := List.mem_of_getElem? hlayered.aux
  have hparam : plan.aux ∈ r.params := List.mem_append_left _ haux
  generalize heq : plan.aux = n
  intro hn
  cases hn with
  | count => exact h.names.fixed _ hparam (by simp [heq])
  | out => exact h.names.fixed _ hparam (by simp [heq])
  | buffer count place => exact (h.fresh_bufferName count place).1 (heq ▸ hparam)
  | param hn =>
    rw [← heq, List.mem_append, hlayered.indices, List.mem_filter] at hn
    rcases hn with hi | hv
    · simp at hi
    · exact h.scripted.built.runtime_not_index hv haux

theorem mem_layerName (n : String) : 'C' ∈ (layerName n).toList := by
  simp [layerName, coeffName, String.toList_append]

theorem mem_sizeName (n : String) : 'C' ∈ (layerName n ++ "Size").toList := by
  rw [String.toList_append]
  exact List.mem_append_left _ (mem_layerName n)

/-- The names of functions and of the host are no names of a case. -/
theorem LayerRunnable.not_caseName (h : r.LayerRunnable plan) (hindices : plan.layerIndices ⊆ r.indices) {n : String}
    (hn : n ∈ ["Array", "Math", layerName r.name, layerName r.name ++ "Size"]) : ¬ CaseName r plan n := by
  have hlayer : n ≠ "N_VALUES" ∧ n ≠ "out" ∧ (n.toList.take 4 ≠ "prev".toList ∨ 'C' ∈ n.toList) := by
    simp only [List.mem_cons, List.not_mem_nil, or_false] at hn
    have hgenerated {m : String} (hm : 'C' ∈ m.toList) : m ≠ "N_VALUES" ∧ m ≠ "out" ∧
        (m.toList.take 4 ≠ "prev".toList ∨ 'C' ∈ m.toList) :=
      ⟨fun heq => absurd (heq ▸ hm) (by decide), fun heq => absurd (heq ▸ hm) (by decide), .inr hm⟩
    rcases hn with rfl | rfl | rfl | rfl
    · decide
    · decide
    · exact hgenerated (mem_layerName r.name)
    · exact hgenerated (mem_sizeName r.name)
  obtain ⟨hcount, hout, hbuffer⟩ := hlayer
  intro hcase
  cases hcase with
  | count => exact hcount rfl
  | out => exact hout rfl
  | buffer count place => exact hbuffer.elim (· (take_bufferName _ _)) (notMem_bufferName _ _)
  | param hparam =>
    refine h.names.fixed n (mem_params hindices hparam) ?_
    simp only [List.mem_cons, List.not_mem_nil, or_false] at hn ⊢
    rcases hn with rfl | rfl | rfl | rfl <;> simp

/-! ## What a case declares -/

/-- Statements that fill buffers declare them. -/
theorem declared_previous {ε : Type} {p : Buffer → PreviousLayer ε} (hname : ∀ b, (p b).name = b.name) :
    declared (if buffers.isEmpty then [] else buffers.map (fun b => Stmt.previous (p b)) ++ [.blank]) =
      buffers.map (·.name) := by
  have hall : declared (buffers.map fun b => Stmt.previous (p b)) = buffers.map (·.name) := by
    induction buffers with
    | nil => rfl
    | cons b bs ih => exact congrArg₂ List.cons (hname b) ih
  split
  · next hempty =>
    rw [List.isEmpty_iff.1 hempty]
    rfl
  · rw [declared_append, hall]
    exact List.append_nil _

theorem declared_fillBuffers : declared (r.fillBuffers resolve plan g buffers) = buffers.map (·.name) := by
  rw [fillBuffers]
  dsimp only
  rw [List.isEmpty_map]
  exact declared_previous fun _ => rfl

theorem declared_fillScripts : declared (r.fillScripts resolve plan g buffers) = buffers.map (·.name) :=
  declared_previous fun _ => rfl

/-- Blocks declare nothing outside of them. -/
theorem RunnableGroup.declared_blocks (h : r.RunnableGroup plan g buffers) {lrs : List LayerRule}
    (hlrs : ∀ lr ∈ lrs, lr ∈ g.rules) {roles : List RoleCode}
    (hroles : List.Forall₂ (fun lr role => r.blockCode o plan g buffers lr = .ok role) lrs roles)
    {code : List (Stmt Expression)} (hread : readStmts (roles.flatMap (·.2)) = .ok code) : declared code = [] := by
  induction hroles generalizing code with
  | nil =>
    cases hread
    rfl
  | @cons lr role lrs roles hcode _ ih =>
    rw [List.forall_mem_cons] at hlrs
    rw [List.flatMap_cons] at hread
    obtain ⟨front, back, hfront, hback, rfl⟩ := exists_of_readStmts_append hread
    have hid := h.scripted.built.wellFormed.identifiers _ h.aux
    rw [declared_append, ih hlrs.2 hback, List.append_nil]
    cases hrole : lr.role with
    | zero =>
      rw [blockCode, hrole] at hcode
      obtain ⟨b, body, -, -, rfl⟩ := reads_zeroCode hid hcode hfront
      rfl
    | general start =>
      rw [blockCode, hrole] at hcode
      obtain ⟨b, body, -, -, rfl⟩ := reads_generalCode hcode hfront
      rfl
    | max e =>
      rw [blockCode, hrole] at hcode
      obtain ⟨b, body, x, -, -, -, rfl⟩ := reads_maxCode (h.scripted.isText_param (List.mem_append_left _ h.aux)) hid
        (h.slots lr hlrs.1 e hrole).1 hcode hfront
      rfl

/-! ## Knowing the layer -/

/-- The values of the layer indices. -/
def layerValues (r : Recurrence) (plan : LayerPlan) (layer : String → Int) : Env Float :=
  r.layerEnvAt plan.aux (r.layerPoint plan.aux layer 0)

/-- The names of a function that is asked for a layer. -/
def layerLocals (plan : LayerPlan) (layer : String → Int) : Locals Float :=
  Locals.ofParams plan.layerIndices (layerNumbers plan layer)

section
variable {layer : String → Int} {w : World Float} {size : Int} {vars : RuntimeVars Float}

/-- A layer is known from the first arguments. -/
theorem ofParams_layer (rest : List (Value Float)) :
    Locals.ofParams plan.layerIndices (layerNumbers plan layer ++ rest) = layerLocals plan layer :=
  Locals.ofParams_append (by rw [layerNumbers, List.length_map]) rest

/-- **A function that is asked for a layer knows it.** -/
theorem Scripted.reads_layerLocals (h : r.Scripted) (hindices : plan.layerIndices = r.indices.filter (· != plan.aux))
    (hw : w.Elementary) : w.Reads (layerLocals plan layer) (r.layerValues plan layer) := by
  have hnodup : plan.layerIndices.Nodup := hindices ▸ h.built.wellFormed.distinct.filter _
  have hmem {i : String} (hi : i ∈ plan.layerIndices) : i ∈ r.params :=
    List.mem_append_left _ (List.mem_of_mem_filter (hindices ▸ hi))
  refine hw.reads (fun n v hn => ?_) fun n hn => Locals.find?_eq_none ?_
  · rw [layerValues, layerEnvAt] at hn
    split at hn
    · cases hn
    · next hne =>
      rw [pointEnv] at hn
      split at hn
      · next hcontains =>
        have hindex := List.contains_iff_mem.1 hcontains
        rw [getElem?_layerPoint (List.getElem?_idxOf hindex), if_neg (by simpa using hne), Option.some.injEq] at hn
        have hi : n ∈ plan.layerIndices := by
          rw [hindices, List.mem_filter]
          exact ⟨hindex, by simpa using hne⟩
        obtain ⟨j, hj⟩ := List.getElem?_of_mem hi
        refine Locals.find?_ofParams hnodup hj ?_
        rw [layerNumbers, List.getElem?_map, hj, ← hn]
        rfl
      · cases hn
  · rw [layerLocals, Locals.names_ofParams]
    exact fun hi => h.notMem_of_isElementary hn (hmem hi)

/-- The sides of the guard of a group can be read. -/
theorem Scripted.isSide_layerGuard (h : r.Scripted) (hgathered : r.Gathered plan.aux r.sortedRules plan.groups)
    (hg : g ∈ plan.groups) : ∀ t ∈ (r.layerGuard plan g).sides, IsSide t := by
  intro t ht
  obtain ⟨ρ, hρ, hguard⟩ := hgathered.guard g hg
  obtain ⟨c, hc, ht⟩ := List.mem_flatMap.1 ht
  refine (h.readable ?_).isSide
  rw [layerGuard, Guard.and, hguard] at hc
  rcases List.mem_append.1 hc with hc | hc
  · refine List.mem_append_right _ (List.mem_flatMap.2 ⟨ρ, (sortedRules_perm r).subset hρ, List.mem_append_left _ ?_⟩)
    exact List.mem_flatMap.2 ⟨c, List.mem_of_mem_filter hc, ht⟩
  · refine List.mem_append_left _ (List.mem_append_left _ ?_)
    exact List.mem_flatMap.2 ⟨c, List.mem_of_mem_filter hc, ht⟩

/-- The guard of a group is tested as it holds at the layer. -/
theorem ReadsGroup.test_guard {c : LayerCase Expression} (hc : r.ReadsGroup o resolve plan g c) (h : r.Scripted)
    (hgathered : r.Gathered plan.aux r.sortedRules plan.groups) (hg : g ∈ plan.groups) {s : Locals Float}
    (hreads : w.Reads s (r.layerValues plan layer)) {b : Bool}
    (hb : (r.layerGuard plan g).holds (r.layerValues plan layer) = .ok b) : w.test s c.guard = .ok b := by
  obtain ⟨x, hx, htest⟩ := (r.layerGuard plan g).exists_test (h.isSide_layerGuard hgathered hg)
  obtain rfl := Except.ok.inj (hx.readText.symm.trans hc.guard)
  exact htest hreads b hb

/-! ## Rule layers -/

/-- A layer that is computed by a group: no base case binds it, the group is the first whose guard holds, and the
layer has a number of slots that buffers can have. -/
structure RuleLayer (r : Recurrence) (plan : LayerPlan) (g : LayerGroup) (layer : String → Int) (size : Int) :
    Prop where
  small : ∀ i ∈ plan.layerIndices, (layer i).natAbs ≤ 2 ^ 52
  bases : ∀ l ∈ plan.baseLayers, (BaseLayer.guard plan.layerIndices l).holds (r.layerValues plan layer) = .ok false
  group : ∃ before after, plan.groups = before ++ g :: after ∧
    (∀ g' ∈ before, (r.layerGuard plan g').holds (r.layerValues plan layer) = .ok false) ∧
    (r.layerGuard plan g).holds (r.layerValues plan layer) = .ok true
  sized : Arith.eval (r.layerValues plan layer) plan.bound.expr = .ok (ofInt size)
  nonneg : 0 ≤ size
  limit : size + extraSlots plan g < 2 ^ 32
  slots : ∀ lr ∈ g.rules, ∀ e, lr.role = .max e → ∃ x, Arith.eval (r.layerValues plan layer) e = .ok x ∧
    IsSlotIn size x

variable {f : Family Expression} {bases groups : List (LayerCase Expression)}

theorem RuleLayer.mem_groups (hlayer : r.RuleLayer plan g layer size) : g ∈ plan.groups := by
  obtain ⟨before, after, hgroups, -, -⟩ := hlayer.group
  exact hgroups ▸ List.mem_append_right _ List.mem_cons_self

/-- **A family selects the case of the group at its layer.** -/
theorem ReadsFamily.selectCase_group (hf : r.ReadsFamily o resolve plan f bases groups) (h : r.Scripted)
    (hlayered : r.BaseLayered plan) (hgathered : r.Gathered plan.aux r.sortedRules plan.groups)
    (hbinds : r.BindsExactly) (hw : w.Elementary) (hlayer : r.RuleLayer plan g layer size) :
    ∃ c, r.ReadsGroup o resolve plan g c ∧ Family.selectCase w (layerLocals plan layer) f.cases = .ok (some c) := by
  have hreads : w.Reads (layerLocals plan layer) (r.layerValues plan layer) :=
    h.reads_layerLocals hlayered.indices hw
  obtain ⟨before, after, hgroups, hbefore, hg⟩ := hlayer.group
  obtain ⟨front, c, back, rfl, hfront, hc⟩ := forall₂_split (hgroups ▸ hf.groups)
  have hmem : ∀ g' ∈ before, g' ∈ plan.groups := fun g' hg' => hgroups ▸ List.mem_append_left _ hg'
  refine ⟨c, hc, ?_⟩
  rw [hf.cases, ← List.append_assoc]
  refine selectCase_of_first (List.forall_mem_append.2 ⟨fun d hd => ?_, fun d hd => ?_⟩) ?_
  · obtain ⟨l, hl, hd⟩ := exists_of_forall₂ hf.bases hd
    exact hd.test_guard h hlayered hbinds hl hreads (hlayer.bases l hl)
  · obtain ⟨g', hg', hd⟩ := exists_of_forall₂ hfront hd
    exact hd.test_guard h hgathered (hmem g' hg') hreads (hbefore g' hg')
  · exact hc.test_guard h hgathered hlayer.mem_groups hreads hg

/-- The number of slots of a rule layer is known. -/
theorem ReadsGroup.eval_size {c : LayerCase Expression} (hc : r.ReadsGroup o resolve plan g c) (h : r.Scripted)
    (hlayered : r.BaseLayered plan) (hbound : Readable plan.bound.expr) (hw : w.Elementary)
    (hlayer : r.RuleLayer plan g layer size) :
    w.eval (layerLocals plan layer) c.size = .ok (.num (ofInt size)) := by
  obtain ⟨x, hx, hside⟩ := hbound.isSide
  obtain rfl := Except.ok.inj ((hx.lower (by decide : 1 ≤ 5)).cond.readText.symm.trans hc.size)
  exact hside (h.reads_layerLocals hlayered.indices hw) _ hlayer.sized

/-- What a case of a group declares is no parameter. -/
theorem ReadsFamily.fresh (hf : r.ReadsFamily o resolve plan f bases groups) (h : r.LayerRunnable plan)
    (hindices : plan.layerIndices ⊆ r.indices) (hbuffers : r.buffers plan g = .ok buffers) :
    ∀ n ∈ "N_VALUES" :: buffers.map (·.name), n ∉ f.fillParams := by
  rw [List.forall_mem_cons, List.forall_mem_map]
  refine ⟨fun hn => ?_, fun b hb hn => ?_⟩
  · rcases hf.mem_fillParams hindices hn with heq | hn
    · exact absurd heq (by decide)
    · exact h.names.fixed _ hn (by simp)
  · obtain ⟨count, place, hname⟩ := exists_name_of_buffers hbuffers hb
    obtain ⟨hparam, -, hout, -⟩ := h.fresh_bufferName count place
    rw [hname] at hn
    exact (hf.mem_fillParams hindices hn).elim hout hparam

/-- What fills a buffer has the names of its case. -/
theorem ReadsFamily.caseName_of_mem (hf : r.ReadsFamily o resolve plan f bases groups) {c : LayerCase Expression}
    (hbuffers : r.buffers plan g = .ok buffers) (hdeclared : declared c.body = buffers.map (·.name))
    {args : List (Value Float)} {count : Float} {n : String} (hn : n ∈ (f.caseLocals c args count).names) :
    CaseName r plan n := by
  rw [Family.names_caseLocals, List.mem_append, List.mem_cons, hdeclared, List.mem_map, hf.fillParams_eq] at hn
  rcases hn with (rfl | ⟨b, hb, rfl⟩) | hn
  · exact .count
  · obtain ⟨count, place, hname⟩ := exists_name_of_buffers hbuffers hb
    exact hname ▸ .buffer count place
  · rw [List.mem_append, List.mem_append, List.mem_singleton] at hn
    rcases hn with (hi | rfl) | hv
    · exact .param (List.mem_append_left _ hi)
    · exact .out
    · exact .param (List.mem_append_right _ hv)

/-- **What fills a buffer has what computes a rule layer.** -/
theorem ReadsFamily.hasRuleLayer (hf : r.ReadsFamily o resolve plan f bases groups) (h : r.LayerRunnable plan)
    (hlayered : r.BaseLayered plan) {c : LayerCase Expression} (hbuffers : r.buffers plan g = .ok buffers)
    (hdeclared : declared c.body = buffers.map (·.name)) (zeros : Value Float) :
    r.HasRuleLayer plan layer size vars w
      (f.caseLocals c (layerNumbers plan layer ++ [zeros] ++ r.runtimeVars.map vars.script) (ofInt size)) := by
  have hindices : plan.layerIndices ⊆ r.indices := fun i hi => hlayered.mem_indices hi
  have hfresh : ∀ n ∈ "N_VALUES" :: declared c.body, n ∉ f.fillParams := hdeclared ▸ hf.fresh h hindices hbuffers
  have hlength : (layerNumbers plan layer).length = plan.layerIndices.length := List.length_map ..
  refine ⟨fun i hi => ?_, ?_, fun v hv => ?_, fun hmem => ?_, fun n hn hmem => ?_⟩
  · obtain ⟨j, hj⟩ := List.getElem?_of_mem hi
    have hlt := (List.getElem?_eq_some_iff.1 hj).1
    refine Family.find?_caseLocals (i := j) hf.params hfresh ?_ ?_
    · rw [hf.fillParams_eq, List.append_assoc, List.getElem?_append_left hlt, hj]
    · rw [List.append_assoc, List.getElem?_append_left (hlength ▸ hlt), layerNumbers, List.getElem?_map, hj]
      rfl
  · exact Locals.read_assign_self (by simp)
  · obtain ⟨j, hj⟩ := List.getElem?_of_mem hv
    refine Family.find?_caseLocals (i := plan.layerIndices.length + 1 + j) hf.params hfresh ?_ ?_
    · rw [hf.fillParams_eq, List.getElem?_append_right (by simp)]
      simpa using hj
    · rw [List.getElem?_append_right (by simp [hlength])]
      simp [hlength, hj]
  · exact h.not_caseName_aux hlayered (hf.caseName_of_mem hbuffers hdeclared hmem)
  · exact (hf.caseName_of_mem hbuffers hdeclared hmem).free h hindices hn

end

/-! ## What a rule layer holds -/

/-- What a buffer of a layer has at a slot: zero below slot zero. -/
def slotOf (out : Nat → Float) (a : Int) : Float :=
  if a < 0 then 0.0 else out a.toNat

/-- What a call gives at a slot of a layer, given the slots of all layers. -/
def layerCall (r : Recurrence) (plan : LayerPlan) (outs : (String → Int) → Nat → Float) (layer : String → Int)
    (k : Nat) (c : Call) : Except Error Float :=
  .ok (slotOf (outs (r.layerOfCall plan layer c)) (k + c.shiftAt plan.auxSlot))

/-- What the rules of a group leave in a slot of a layer of zeros: the value of the rule that writes it last. -/
def ruleSlot (r : Recurrence) (plan : LayerPlan) (g : LayerGroup) (vars : RuntimeVars Float)
    (outs : (String → Int) → Nat → Float) (layer : String → Int) (size : Int) (k : Nat) : Float :=
  ((g.writer? (r.layerEnvAt plan.aux (r.layerPoint plan.aux layer 0)) (ofInt size) (ofInt k)).map fun ρ =>
    (ρ.expr.eval (r.pointScope vars (r.layerPoint plan.aux layer k))
      (r.layerCall plan outs layer k)).toOption.getD 0.0).getD 0.0

section
variable {layer : String → Int} {size : Int} {vars : RuntimeVars Float} {w : World Float} {limits : Limits}
  {sizes : (String → Int) → Int} {outs : (String → Int) → Nat → Float}

theorem respectsShifts_layerCall (k : Nat) : RespectsShifts (r.layerCall plan outs layer k) := by
  intro c c' _ hshifts
  have hlayer : r.layerOfCall plan layer c = r.layerOfCall plan layer c' := by
    funext i
    rw [layerOfCall, layerOfCall, shiftAt_congr hshifts]
  rw [layerCall, layerCall, hlayer, shiftAt_congr hshifts]

/-- A call of a rule finds the buffer with its layer. -/
theorem RunnableGroup.finds_layerCall (h : r.RunnableGroup plan g buffers) (hbuffers : r.buffers plan g = .ok buffers)
    (hreads : r.ComputesReads plan g layer size vars w sizes outs) {s t : Locals Float}
    (hheld : r.HoldsLayers plan g layer size sizes outs buffers s t) {lr : LayerRule} (hlr : lr ∈ g.rules) {c : Call}
    (hc : c ∈ lr.rule.expr.calls) {k : Nat} (hk : (k : Int) < size) {v : Float}
    (hv : r.layerCall plan outs layer k c = .ok v) : r.Finds plan buffers t k c v := by
  obtain rfl := Except.ok.inj hv
  have hmem : c ∈ g.calls := List.mem_flatMap.2 ⟨lr, hlr, hc⟩
  have his : ∀ i ∈ plan.layerIndices, isIdentifier i := fun i hi =>
    h.scripted.built.wellFormed.identifiers i (List.mem_of_mem_filter (h.indices ▸ hi))
  have hspelled : ∀ c ∈ g.calls, c.Spelled r.indices.length := fun c hc => by
    obtain ⟨lr, hlr, hc⟩ := List.mem_flatMap.1 hc
    exact h.scripted.built.spelled_calls lr.rule (h.rules lr hlr) c hc
  rw [slotOf]
  split
  · next hneg => exact .below hneg
  · next hge =>
    obtain ⟨b, hb, -, hshifts⟩ := find?_signature his hspelled hbuffers hmem
    obtain ⟨named, hfound⟩ := hheld.held b (List.mem_of_find?_eq_some hb) c hshifts
    have hextra : c.shiftAt plan.auxSlot ≤ extraSlots plan g := shiftAt_le_extraSlots hlr hc
    have hrange := hreads.range c hmem
    exact .slot hb hfound (by omega) (by omega) (by omega) rfl

variable (h : r.LayerRunnable plan) (hplan : r.planLayers padding = .ok plan) (ho : o.target = .js)
  (hw : w.Elementary) (hhost : w.MakesBuffers) (hvars : ∀ fn : MathFn, vars fn.name = none)
  (htables : ∀ v ∈ r.runtimeVars, ∀ xs, vars v = some (.table xs) → xs.length < 2 ^ 32)
  (hlayer : r.RuleLayer plan g layer size) (hreads : r.ComputesReads plan g layer size vars w sizes outs)
  (hvalue : ∀ lr ∈ g.rules, ∀ k : Nat, (k : Int) < size →
    g.writes (r.layerValues plan layer) (ofInt size) (ofInt k) lr = true → ∃ v,
      lr.rule.expr.eval (r.pointScope vars (r.layerPoint plan.aux layer k)) (r.layerCall plan outs layer k) = .ok v)
  (hpasses : size < limits.passes) {length : Nat} (hsize : size ≤ length) (hlength : length < 2 ^ 32)

include h hplan ho hw hhost hvars htables hlayer hreads hvalue hpasses hsize hlength

/-- **The code of a group computes a layer of zeros from the layers that it reads**, if the functions around it
compute these. -/
theorem RuleLayer.runStmts_group (resolve : Resolver) (hbuffers : r.buffers plan g = .ok buffers)
    {roles : List RoleCode} (hroles : r.roleCode o plan g buffers = .ok roles) {code : List (Stmt Expression)}
    (hread : readStmts (roles.flatMap (·.2)) = .ok code) {s : Locals Float}
    (hs : r.HasRuleLayer plan layer size vars w s) (hnodup : (buffers.map (·.name)).Nodup)
    (hdeclared : ∀ b ∈ buffers, b.name ∈ s.names)
    (hfree : ∀ n ∈ ["Array", "Math", layerName r.name, layerName r.name ++ "Size"], n ∉ s.names)
    {named : List (String × Value Float)}
    (hfind : s.find? "out" = some ⟨"out", some (Value.slots length (fun _ => .num 0.0) named)⟩) :
    ∃ t, runStmts limits w s (r.fillScripts resolve plan g buffers ++ code) = .ok (t, none) ∧ t.names = s.names ∧
      (∀ n, n ≠ "out" → n ∉ buffers.map (·.name) → t.find? n = s.find? n) ∧
      ∃ named, t.find? "out" =
        some ⟨"out", some (Value.slots length (fun k => .num (r.ruleSlot plan g vars outs layer size k)) named)⟩ := by
  have hlayered := baseLayered_of_planLayersIn hplan
  have hindices : plan.layerIndices ⊆ r.indices := fun i hi => hlayered.mem_indices hi
  have hrules := (planned_of_planLayersIn hplan).gathered.mem_rules hlayer.mem_groups
  have hcalls {P : Call → Prop} (hP : ∀ rule ∈ r.rules, ∀ c ∈ rule.expr.calls, P c) : ∀ c ∈ g.calls, P c := by
    intro c hc
    obtain ⟨lr, hlr, hc⟩ := List.mem_flatMap.1 hc
    exact hP _ (hrules lr hlr) c hc
  have hrun := h.runnableGroup hplan hlayer.mem_groups hbuffers
  have hnames : ∀ b ∈ buffers, b.name ∉ r.params ∧ b.name ≠ "N_VALUES" ∧ b.name ≠ "out" ∧ ¬ IsElementary b.name := by
    intro b hb
    obtain ⟨count, place, hname⟩ := exists_name_of_buffers hbuffers hb
    exact hname ▸ h.fresh_bufferName count place
  -- The buffers are filled first.
  obtain ⟨t, hfills, hheld⟩ := hreads.runStmts_fills resolve limits hw hhost hindices hlayer.small
    (hcalls h.shifts) hlayer.nonneg hnodup (fillable_of_buffers hbuffers (hcalls h.self) fun b hb => by
      obtain ⟨hparam, hcount, -, helementary⟩ := hnames b hb
      exact ⟨hparam, hcount, helementary⟩) hs hfree hdeclared
  have hfilled : runStmts limits w s (r.fillScripts resolve plan g buffers) = .ok (t, none) := by
    rw [fillScripts]
    split
    · next hempty =>
      rw [List.isEmpty_iff.1 hempty] at hfills
      exact hfills
    · rw [runStmts_append hfills]
      rfl
  have hother : ∀ n, n ∈ r.params ∨ n = "N_VALUES" → t.find? n = s.find? n := fun n hn =>
    hheld.others n fun hmem => by
      obtain ⟨b, hb, rfl⟩ := List.mem_map.1 hmem
      obtain ⟨hparam, hcount, -, -⟩ := hnames b hb
      exact hn.elim hparam hcount
  have hout : t.find? "out" = s.find? "out" := hheld.others "out" fun hmem => by
    obtain ⟨b, hb, hname⟩ := List.mem_map.1 hmem
    exact (hnames b hb).2.2.1 hname
  -- The blocks then write the rules.
  let result (ρ : Rule) (k : Nat) : Float := (ρ.expr.eval (r.pointScope vars (r.layerPoint plan.aux layer k))
    (r.layerCall plan outs layer k)).toOption.getD 0.0
  have hresult : ∀ lr ∈ g.rules, ∀ k : Nat, (k : Int) < size →
      g.writes (r.layerValues plan layer) (ofInt size) (ofInt k) lr = true →
        lr.rule.expr.eval (r.pointScope vars (r.layerPoint plan.aux layer k)) (r.layerCall plan outs layer k) =
          .ok (result lr.rule k) := by
    intro lr hlr k hk hwrites
    obtain ⟨v, hv⟩ := hvalue lr hlr k hk hwrites
    simp only [result, hv]
    rfl
  obtain ⟨u, hrest, hwrote⟩ := hrun.runStmts_roleCode ho hw hvars htables hlayer.nonneg hsize hlength hpasses
    respectsShifts_layerCall rfl hlayer.slots hresult hroles hread (hs.congr hindices hheld.names hother)
    (fun lr hlr c hc k hk v hv => hrun.finds_layerCall hbuffers hreads hheld hlr hc hk hv) (hout.trans hfind)
  refine ⟨u, (runStmts_append hfilled).trans hrest, hwrote.names.trans hheld.names, fun n hn hb => ?_, ?_⟩
  · rw [hwrote.others n hn, hheld.others n hb]
  · have hsame : (fun k => Value.num (r.ruleSlot plan g vars outs layer size k)) = fun k : Nat =>
        ((g.writer? (r.layerEnvAt plan.aux (r.layerPoint plan.aux layer 0)) (ofInt size) (ofInt k)).map
          fun ρ => Value.num (result ρ k)).getD (.num 0.0) := by
      funext k
      rw [ruleSlot]
      cases g.writer? (r.layerEnvAt plan.aux (r.layerPoint plan.aux layer 0)) (ofInt size) (ofInt k) <;> rfl
    rw [hsame]
    exact hwrote.out

/-- **A rule layer is filled by its group**, if the functions around it compute the layers that it reads. -/
theorem RuleLayer.fill_group {f : Family Expression} {bases groups : List (LayerCase Expression)}
    (hf : r.ReadsFamily o resolve plan f bases groups) : ∃ named,
    f.fill limits w (layerNumbers plan layer ++ [Value.slots length (fun _ => .num 0.0) []] ++
      r.runtimeVars.map vars.script) = .ok ⟨.undefined, layerNumbers plan layer ++
        [Value.slots length (fun k => .num (r.ruleSlot plan g vars outs layer size k)) named] ++
          r.runtimeVars.map vars.script⟩ := by
  have hlayered := baseLayered_of_planLayersIn hplan
  have hindices : plan.layerIndices ⊆ r.indices := fun i hi => hlayered.mem_indices hi
  obtain ⟨c, hc, hselect⟩ := hf.selectCase_group h.scripted hlayered (planned_of_planLayersIn hplan).gathered h.binds
    hw hlayer
  obtain ⟨ss, code, hcode, hread, hnodup⟩ := hc.body
  obtain ⟨buffers, roles, rest, hbuffers, hroles, hrest, hbody⟩ := h.scripted.exists_of_groupCode hindices hcode hread
  have hrun := h.runnableGroup hplan hlayer.mem_groups hbuffers
  have hdeclared : declared c.body = buffers.map (·.name) := by
    have hblocks := hroles
    rw [roleCode_eq] at hblocks
    rw [hbody, declared_append, declared_fillScripts,
      hrun.declared_blocks (fun lr hlr => LayerGroup.mem_of_mem_blocks hlr) (forall₂_of_mapM hblocks) hrest,
      List.append_nil]
  have hnames : (buffers.map (·.name)).Nodup := by
    obtain ⟨buffers', hbuffers', hcode⟩ := bind_ok hcode
    obtain rfl := Except.ok.inj (hbuffers'.symm.trans hbuffers)
    obtain ⟨roles', -, hcode⟩ := bind_ok hcode
    cases hcode
    rw [declared_append, declared_fillBuffers] at hnodup
    exact (List.nodup_append.1 hnodup).1
  have hfresh : ∀ n ∈ "N_VALUES" :: declared c.body, n ∉ f.fillParams := hdeclared ▸ hf.fresh h hindices hbuffers
  have hs : r.HasRuleLayer plan layer size vars w (f.caseLocals c (layerNumbers plan layer ++
      [Value.slots length (fun _ => .num 0.0) []] ++ r.runtimeVars.map vars.script) (ofInt size)) :=
    hf.hasRuleLayer h hlayered hbuffers hdeclared _
  have hout : (f.caseLocals c (layerNumbers plan layer ++ [Value.slots length (fun _ => .num 0.0) []] ++
      r.runtimeVars.map vars.script) (ofInt size)).find? "out" =
        some ⟨"out", some (Value.slots length (fun _ => .num 0.0) [])⟩ := by
    refine Family.find?_caseLocals (i := plan.layerIndices.length) hf.params hfresh ?_ ?_
    · simp [hf.fillParams_eq]
    · simp [layerNumbers]
  obtain ⟨t, hsteps, htnames, hothers, named, htable⟩ := hlayer.runStmts_group h hplan ho hw hhost
    hvars htables hreads hvalue hpasses hsize hlength resolve hbuffers hroles hrest hs hnames
    (fun b hb => by
      rw [Family.names_caseLocals, hdeclared]
      exact List.mem_append_left _ (List.mem_cons_of_mem _ (List.mem_map_of_mem hb)))
    (fun n hn hmem => h.not_caseName hindices hn (hf.caseName_of_mem hbuffers hdeclared hmem)) hout
  rw [← hbody] at hsteps
  refine ⟨named, Family.fill_of_run hf.params ?_ ?_ ?_ ?_ hfresh hsteps htnames (fun n hn hne => ?_) htable⟩
  · rw [layerNumbers, List.length_map, hf.layerIndices]
  · rw [List.length_map, hf.vars]
  · rw [hf.layerIndices, List.append_assoc, ofParams_layer]
    exact hselect
  · rw [hf.layerIndices, List.append_assoc, ofParams_layer]
    exact hc.eval_size h.scripted hlayered h.bound.2 hw hlayer
  · exact hothers n hne fun hmem => hfresh n (hdeclared ▸ List.mem_cons_of_mem _ hmem) hn

end

end Recurrence

end RecurrenceCompiler
