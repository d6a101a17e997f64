import RecurrenceCompiler.Proofs.Artifact.Emission
import RecurrenceCompiler.Proofs.Recurrence.Steps
import RecurrenceCompiler.Proofs.Script.Loading

/-!
# Loading what was generated

A unit exports functions and needs functions of other units (`Recurrence.exports`, `Recurrence.needs`).
Code for single values needs that of the callees, which stands before it, and a dispatcher that of its
own recurrence. Layered code needs the layers of the callees. These are only generated where the callee
asks for layered code itself, which nothing checks; so a layered recurrence that calls one without
layers cannot be loaded (`layers_not_generated`).

Main statement: in the list of generated scripts every unit stands after all that it needs, layered
code exactly if its callees have layers (`generateAll_loads_in_order`).
-/

namespace RecurrenceCompiler

open Arith

namespace Recurrence

variable (r : Recurrence)

/-- The functions that the script of a kind exports. -/
def exports : UnitKind → List String
  | .perValue => [coeffName r.name]
  | .layered => [coeffName r.name, layerName r.name, layerName r.name ++ "Size"]
  | .dispatcher => [r.dispatchName]

/-- The functions of other units that the script of a kind needs. -/
def needs : UnitKind → List String
  | .perValue => r.dependencies.map coeffName
  | .layered => r.dependencies.flatMap fun d => [layerName d, layerName d ++ "Size"]
  | .dispatcher => [coeffName r.name]

/-- What a generated script is. -/
structure Generates (r : Recurrence) (kind : UnitKind) (u : GeneratedUnit) : Prop where
  kind_eq : u.kind = kind
  exports_eq : u.exports = r.exports kind
  needs_eq : u.dependencies = r.needs kind
  script : u.IsScript

variable {r}

/-- **A generated script exports and needs what its kind does.** -/
theorem generates_of_generate {o : CodegenOptions} (ho : o.target = .js) {resolve : Resolver}
    {kind : UnitKind} {u : GeneratedUnit} (h : r.generate o resolve kind = .ok u) :
    r.Generates kind u := by
  cases kind with
  | perValue =>
    rw [generate, generatePerValue, ho] at h
    dsimp only at h
    obtain ⟨⟨strategies, m⟩, hm, h⟩ := bind_ok h
    cases h
    refine ⟨rfl, rfl, rfl, m, rfl, ?_⟩
    obtain ⟨bases, -, hm⟩ := bind_ok hm
    obtain ⟨rules, -, hm⟩ := bind_ok hm
    cases hm
    rfl
  | layered =>
    rw [generate, generateLayered, ho] at h
    obtain ⟨plan, -, h⟩ := bind_ok h
    dsimp only at h
    obtain ⟨⟨strategies, m⟩, hm, h⟩ := bind_ok h
    cases h
    refine ⟨rfl, rfl, rfl, m, rfl, ?_⟩
    obtain ⟨bases, -, hm⟩ := bind_ok hm
    obtain ⟨guards, -, hm⟩ := bind_ok hm
    obtain ⟨groups, -, hm⟩ := bind_ok hm
    cases hm
    rfl
  | dispatcher =>
    cases h
    refine ⟨rfl, rfl, rfl, ?_⟩
    unfold generateDispatcher
    rw [ho]
    exact ⟨_, rfl, rfl⟩

end Recurrence

/-- The layers that layered code calls are generated too. -/
def Artifact.LayersGenerated (c : Catalog) (a : Artifact) : Prop :=
  a.unit.kind = .layered → ∀ d ∈ a.recurrence.dependencies, ∀ s, c.get? d = some s → s.layered = true

namespace Catalog

variable {c : Catalog}

/-! ## The order of files -/

variable {o : CodegenOptions} {artifacts before after : List Artifact} {a : Artifact}

/-- Where a file stands: after the files of all that its recurrence calls, and after the code for
single values of its own. -/
structure Placed (c : Catalog) (o : CodegenOptions) (before : List Artifact) (a : Artifact)
    (r : Recurrence) (kind : UnitKind) : Prop where
  does : a.Does c o (r, kind)
  own : kind = .perValue ∨ ∃ v ∈ before, v.Does c o (r, .perValue)
  callees : ∀ d ∈ r.dependencies, ∃ s, c.get? d = some s ∧
    ∀ k ∈ s.unitKinds, ∃ v ∈ before, v.Does c o (s, k)
  /-- Nothing else stands before. -/
  entries : ∀ v ∈ before, ∃ s k, c.get? s.name = some s ∧ k ∈ s.unitKinds ∧ v.Does c o (s, k)

/-- **Every file of batch generation is placed.** -/
theorem exists_placed {names : Option (List String)}
    (h : c.generateAll o names = .ok artifacts) (hsplit : artifacts = before ++ a :: after) :
    ∃ r kind, c.Placed o before a r kind := by
  obtain ⟨rs, hlisted, hfiles⟩ := generateAll_eq_ok h
  rw [hsplit] at hfiles
  obtain ⟨pre, post, hjobs, hbefore, hpost⟩ := forall₂_append_right hfiles
  obtain _ | @⟨job, _, post, _, hdoes, -⟩ := hpost
  obtain ⟨front, r, rest, p, q, rfl, hr, rfl⟩ := exists_of_flatMap_eq_append hjobs
  obtain ⟨rfl, hfirst⟩ := Recurrence.jobs_eq_append hr
  refine ⟨_, _, hdoes, hfirst.imp_right fun hown => ?_, fun d hd => ?_, fun v hv => ?_⟩
  · exact exists_right_of_forall₂ hbefore (List.mem_append_right _ hown)
  · have hcalled := Recurrence.mem_dependencies.1 hd
    obtain ⟨s, hs, rfl⟩ := List.mem_map.1 (hlisted.calleesFirst front _ rest rfl d hcalled)
    refine ⟨s, hlisted.registered s (by simp [hs]), fun k hk => ?_⟩
    refine exists_right_of_forall₂ hbefore (List.mem_append_left _ (List.mem_flatMap.2 ⟨s, hs, ?_⟩))
    exact Recurrence.mem_jobs.2 ⟨rfl, hk⟩
  · obtain ⟨⟨s, k⟩, hjob, hv⟩ := Recurrence.exists_of_forall₂ hbefore hv
    have hmem := List.mem_append_left (job :: post) hjob
    rw [← hjobs] at hmem
    obtain ⟨s', hs', hk⟩ := List.mem_flatMap.1 hmem
    obtain ⟨rfl, hk⟩ := Recurrence.mem_jobs.1 hk
    exact ⟨s, k, hlisted.registered s hs', hk, hv⟩

/-- **A file that is placed has all that it needs before it**, if the layers that it calls are
generated. -/
theorem Placed.ready (ho : o.target = .js) {r : Recurrence} {kind : UnitKind}
    (h : c.Placed o before a r kind) (hlayers : a.LayersGenerated c) :
    a.unit.Ready (before.map (·.unit)) := by
  have hunit := Recurrence.generates_of_generate ho h.does.generated
  have hexports {s : Recurrence} {k : UnitKind} {e : String} (he : e ∈ s.exports k)
      (hv : ∃ v ∈ before, v.Does c o (s, k)) : ∃ u ∈ before.map (·.unit), e ∈ u.exports := by
    obtain ⟨v, hv, hdoes⟩ := hv
    refine ⟨v.unit, List.mem_map_of_mem hv, ?_⟩
    rw [(Recurrence.generates_of_generate ho hdoes.generated).exports_eq]
    exact he
  rw [Artifact.LayersGenerated, hunit.kind_eq, h.does.recurrence_eq] at hlayers
  intro e he
  rw [hunit.needs_eq] at he
  cases kind with
  | perValue =>
    obtain ⟨d, hd, rfl⟩ := List.mem_map.1 he
    obtain ⟨s, hs, hbefore⟩ := h.callees d hd
    obtain rfl := name_of_get? hs
    exact hexports (List.mem_singleton_self _) (hbefore .perValue (Recurrence.mem_unitKinds.2 nofun))
  | layered =>
    obtain ⟨d, hd, he⟩ := List.mem_flatMap.1 he
    obtain ⟨s, hs, hbefore⟩ := h.callees d hd
    have hlayered := hlayers rfl d hd s hs
    obtain rfl := name_of_get? hs
    exact hexports (k := .layered) (List.mem_cons_of_mem _ he)
      (hbefore .layered (Recurrence.mem_unitKinds.2 fun _ => hlayered))
  | dispatcher =>
    obtain rfl := List.mem_singleton.1 he
    exact hexports (List.mem_singleton_self _) (h.own.resolve_left nofun)

/-- The names of single values and of layer sizes are no names of layers. -/
theorem layerName_ne (d n : String) :
    layerName d ≠ coeffName n ∧ layerName d ≠ layerName n ++ "Size" := by
  constructor
  all_goals
    intro h
    have hlast := congrArg (fun t : String => t.toList.getLast?) h
    simp [layerName, coeffName] at hlast

theorem layerName_inj {d n : String} (h : layerName d = layerName n) : d = n := by
  simpa [layerName, coeffName] using h

/-- **A file that has all that it needs before it calls layers that are generated**, if no dispatcher
is named like a layer. -/
theorem Placed.layersGenerated (ho : o.target = .js)
    (hnames : ∀ s ∈ c.all, ∀ d, s.dispatchName ≠ layerName d) {r : Recurrence} {kind : UnitKind}
    (h : c.Placed o before a r kind) (hready : a.unit.Ready (before.map (·.unit))) :
    a.LayersGenerated c := by
  have hunit := Recurrence.generates_of_generate ho h.does.generated
  rw [Artifact.LayersGenerated, hunit.kind_eq, h.does.recurrence_eq]
  rintro rfl d hd s hs
  have hneeds : layerName d ∈ a.unit.dependencies := by
    rw [hunit.needs_eq]
    exact List.mem_flatMap.2 ⟨d, hd, List.mem_cons_self⟩
  obtain ⟨u, hu, hd⟩ := hready _ hneeds
  obtain ⟨v, hv, rfl⟩ := List.mem_map.1 hu
  obtain ⟨t, k, ht, hk, hdoes⟩ := h.entries v hv
  rw [(Recurrence.generates_of_generate ho hdoes.generated).exports_eq] at hd
  cases k with
  | perValue => exact ((layerName_ne d t.name).1 (List.mem_singleton.1 hd)).elim
  | layered =>
    have hname : t.name = d := by
      simp only [Recurrence.exports, List.mem_cons, List.not_mem_nil, or_false,
        layerName_ne, false_or] at hd
      exact (layerName_inj hd).symm
    rw [hname, hs] at ht
    cases ht
    exact Recurrence.mem_unitKinds.1 hk rfl
  | dispatcher =>
    exact (hnames t (mem_all.2 ht) d (List.mem_singleton.1 hd).symm).elim

/-- **Generated scripts can be loaded in the order in which they are generated, up to layers that were
not asked for.** What batch generation returns has before every unit all that it needs, where layered
code calls only recurrences with layered code of their own; if all of it does, loading never fails for a
missing function. No weaker condition would do, unless a dispatcher is named like a layer. -/
theorem generateAll_loads_in_order (c : Catalog) (o : CodegenOptions) (names : Option (List String))
    (artifacts : List Artifact) (ho : o.target = .js)
    (h : c.generateAll o names = .ok artifacts) :
    (∀ before a after, artifacts = before ++ a :: after → a.LayersGenerated c →
      a.unit.Ready (before.map (·.unit))) ∧
    ((∀ a ∈ artifacts, a.LayersGenerated c) → ∀ r missing,
      Program.load (artifacts.map (·.unit)) ≠ .error (.evaluation (.missingDependencies r missing))) ∧
    ((∀ r ∈ c.all, ∀ d, r.dispatchName ≠ layerName d) →
      ∀ before a after, artifacts = before ++ a :: after →
        a.unit.Ready (before.map (·.unit)) → a.LayersGenerated c) := by
  have hready : ∀ before a after, artifacts = before ++ a :: after → a.LayersGenerated c →
      a.unit.Ready (before.map (·.unit)) := by
    intro before a after hsplit hlayers
    obtain ⟨r, kind, hplaced⟩ := exists_placed h hsplit
    exact hplaced.ready ho hlayers
  refine ⟨hready, fun hlayers r missing => ?_, fun hnames before a after hsplit => ?_⟩
  · refine Program.load_ne_missing (fun u hu => ?_) (fun before u after hsplit => ?_) r missing
    · obtain ⟨a, ha, rfl⟩ := List.mem_map.1 hu
      obtain ⟨before, after, hsplit⟩ := List.append_of_mem ha
      obtain ⟨r, kind, hplaced⟩ := exists_placed h hsplit
      exact (Recurrence.generates_of_generate ho hplaced.does.generated).script
    · obtain ⟨pre, post, rfl, rfl, hpost⟩ := List.map_eq_append_iff.1 hsplit
      obtain ⟨a, post, rfl, rfl, -⟩ := List.map_eq_cons_iff.1 hpost
      exact hready pre a post rfl (hlayers a (by simp))
  · obtain ⟨r, kind, hplaced⟩ := exists_placed h hsplit
    exact hplaced.layersGenerated ho hnames

/-! ## An example -/

/-- A recurrence over layers with one rule. -/
def sampleLayers (name body : String) (layered : Bool) : Except Error Recurrence := do
  let r ← Recurrence.create name ["n", "t"] [] { auxIndex := some "t", layered }
  r.build [.validity ["t >= 0", "t <= n"], .base [("n", 0), ("t", 0)] (.number 1),
    .rule "n > 0" body none none]

/-- A recurrence with layered code calls another one, which gets it too or not. -/
def layersCalled (layered : Bool) : Except Error Catalog := do
  let caller ← sampleLayers "A" "B[n-1,t]" true
  let callee ← sampleLayers "B" "E[n-1,t]" layered
  (← ({} : Catalog).register caller userModule).register callee userModule

/-- With the layers of the callee all six scripts can be loaded. -/
theorem generateAll_loads_in_order_layers : ∃ c artifacts, layersCalled true = .ok c ∧
    c.generateAll { target := .js } none = .ok artifacts ∧
    (∀ a ∈ artifacts, a.LayersGenerated c) ∧ artifacts.length = 6 ∧
    ∀ r missing, Program.load (artifacts.map (·.unit)) ≠
      .error (.evaluation (.missingDependencies r missing)) := by
  have hcheck : ((layersCalled true).toOption.any fun c =>
      c.all.all (·.layered) && (c.generateAll { target := .js } none).toOption.any fun as =>
        as.length == 6) = true := by
    decide +kernel
  obtain ⟨c, hc, hcheck⟩ := exists_ok_of_any hcheck
  rw [Bool.and_eq_true, List.all_eq_true] at hcheck
  obtain ⟨hlayered, hgenerate⟩ := hcheck
  obtain ⟨artifacts, hartifacts, hlength⟩ := exists_ok_of_any hgenerate
  have hlayers : ∀ a ∈ artifacts, a.LayersGenerated c := fun a _ _ d _ s hs =>
    hlayered s (mem_all_of_get? hs)
  exact ⟨c, artifacts, hc, hartifacts, hlayers, by simpa using hlength,
    (generateAll_loads_in_order c { target := .js } none artifacts rfl hartifacts).2.1 hlayers⟩

/-- Whether loading fails because layers are missing. -/
def lacksLayers (units : List GeneratedUnit) : Bool :=
  match Program.load units with
  | .error (.evaluation (.missingDependencies r missing)) =>
    r == "A" && missing == ["BCoeffLayer", "BCoeffLayerSize"]
  | _ => false

/-- **Layers of a callee that did not ask for them are missing**, though the catalog has no problems
and can be ordered. -/
theorem layers_not_generated : ∃ c artifacts, layersCalled false = .ok c ∧ c.problems = [] ∧
    (∃ all, c.ordered = .ok all) ∧ c.generateAll { target := .js } none = .ok artifacts ∧
    Program.load (artifacts.map (·.unit)) =
      .error (.evaluation (.missingDependencies "A" ["BCoeffLayer", "BCoeffLayerSize"])) := by
  have hcheck : ((layersCalled false).toOption.any fun c =>
      c.problems.isEmpty && (c.ordered.toOption.any fun _ => true) &&
      (c.generateAll { target := .js } none).toOption.any fun artifacts =>
        lacksLayers (artifacts.map (·.unit))) = true := by
    decide +kernel
  obtain ⟨c, hc, hcheck⟩ := exists_ok_of_any hcheck
  rw [Bool.and_eq_true, Bool.and_eq_true, List.isEmpty_iff] at hcheck
  obtain ⟨⟨hproblems, hordered⟩, hgenerate⟩ := hcheck
  obtain ⟨all, hall, -⟩ := exists_ok_of_any hordered
  obtain ⟨artifacts, hartifacts, hlacks⟩ := exists_ok_of_any hgenerate
  refine ⟨c, artifacts, hc, hproblems, ⟨all, hall⟩, hartifacts, ?_⟩
  unfold lacksLayers at hlacks
  split at hlacks
  · next r missing hload =>
    rw [Bool.and_eq_true, beq_iff_eq, beq_iff_eq] at hlacks
    obtain ⟨rfl, rfl⟩ := hlacks
    exact hload
  · cases hlacks

end Catalog

end RecurrenceCompiler
