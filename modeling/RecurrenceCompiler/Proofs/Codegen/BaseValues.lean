import RecurrenceCompiler.Proofs.Codegen.BaseFills
import RecurrenceCompiler.Proofs.Codegen.Lengths
import RecurrenceCompiler.Proofs.Script.Loading

/-!
# The values of base layers

A unit that computes layers is loaded after the units that it needs, and its function that fills buffers is
called for a base layer. Then a slot holds the value of the last base case that covers the point of the slot,
and zero if none does (`holdsLast_of_invoke`). That is the value of the selected case where the first base case
that covers the point is also the last, and where no case at all is selected; it is not where base cases
overlap, and not where a rule is selected.
-/

namespace RecurrenceCompiler

open Text Decimal Arith Script

/-! ## Names of generated functions -/

theorem layerName_ne_coeffName (n : String) : layerName n ≠ coeffName n := by
  intro h
  have hlength := congrArg String.length h
  simp [layerName] at hlength

theorem layerName_ne_sizeName (n : String) : layerName n ≠ layerName n ++ "Size" := by
  intro h
  have hlength := congrArg String.length h
  simp at hlength

theorem sizeName_ne_coeffName (n : String) : layerName n ++ "Size" ≠ coeffName n := by
  intro h
  have hlength := congrArg String.length h
  simp [layerName, Nat.add_assoc] at hlength

namespace Recurrence

variable {r : Recurrence} {o : CodegenOptions} {resolve : Resolver} {plan : LayerPlan} {l : BaseLayer}

/-! ## The unit of the layers -/

/-- The unit that computes layers holds the family of layers of the plan. -/
theorem exists_plan_of_generateLayered (ho : o.target = .js) {u : GeneratedUnit}
    (h : r.generateLayered o resolve = .ok u) : ∃ plan ss m, r.planLayers o.tablePadding = .ok plan ∧
      r.jsLayered o resolve plan = .ok (ss, m) ∧ u.source = .script m ∧
      u.dependencies = r.dependencies.flatMap fun d => [layerName d, layerName d ++ "Size"] := by
  rw [generateLayered, ho] at h
  obtain ⟨plan, hplan, h⟩ := bind_ok h
  dsimp only at h
  obtain ⟨⟨ss, m⟩, hm, h⟩ := bind_ok h
  cases h
  exact ⟨plan, _, m, hplan, hm, rfl, rfl⟩

/-- What is written for the layers of a recurrence has its names. -/
theorem names_of_jsLayered {ss : List Strategy} {m : Script.Module String}
    (h : r.jsLayered o resolve plan = .ok (ss, m)) : m.name = r.name ++ "LayeredModule" ∧
      m.exports = [coeffName r.name, layerName r.name, layerName r.name ++ "Size"] := by
  obtain ⟨bases, -, h⟩ := bind_ok h
  obtain ⟨guards, -, h⟩ := bind_ok h
  obtain ⟨groups, -, h⟩ := bind_ok h
  cases h
  exact ⟨rfl, rfl⟩

/-- A unit of a program that computes the layers of a recurrence. -/
structure LayerUnit (p : Program) (o : CodegenOptions) (resolve : Resolver) (r : Recurrence) (plan : LayerPlan)
    (i : Nat) (f : Family Expression) (bases groups : List (LayerCase Expression))
    (imports : List (String × Nat)) : Prop where
  unit : p.units[i]? = some ⟨r.name ++ "LayeredModule", .family f, imports⟩
  exported : ∀ n ∈ [coeffName r.name, layerName r.name, layerName r.name ++ "Size"],
    Json.getField? p.exports n = some i
  reads : r.ReadsFamily o resolve plan f bases groups
  imports : ∀ n ∈ imports.map (·.1), n ∈ r.dependencies.flatMap fun d => [layerName d, layerName d ++ "Size"]

/-- **The last unit that is loaded** computes the layers of its recurrence. -/
theorem exists_layerUnit_of_load (ho : o.target = .js) {u : GeneratedUnit} (hu : r.generateLayered o resolve = .ok u)
    (hplan : r.planLayers o.tablePadding = .ok plan) {before : List GeneratedUnit} {p : Program}
    (hload : Program.load (before ++ [u]) = .ok p) :
    ∃ i f bases groups imports, LayerUnit p o resolve r plan i f bases groups imports := by
  obtain ⟨plan', ss, m, hplan', hm, hsource, hdependencies⟩ := exists_plan_of_generateLayered ho hu
  obtain rfl : plan' = plan := Except.ok.inj (hplan'.symm.trans hplan)
  obtain ⟨i, content, imports, hread, himports, hunit, hexports⟩ := Program.exists_unit_of_load hsource hload
  obtain ⟨f, bases, groups, rfl, hreads⟩ := exists_readsFamily hm hread
  obtain ⟨hname, hexported⟩ := names_of_jsLayered hm
  exact ⟨i, f, bases, groups, imports, hname ▸ hunit, hexported ▸ hexports, hreads, hdependencies ▸ himports⟩

section
variable {p : Program} {i : Nat} {f : Family Expression} {bases groups : List (LayerCase Expression)}
  {imports : List (String × Nat)} {limits : Limits} {depth : Nat}

/-- Names that do not end as those of functions and modules do are names of the host. -/
theorem LayerUnit.foreign (h : LayerUnit p o resolve r plan i f bases groups imports) {n : String}
    (hn : n.toList.getLast? ∉ [some 'f', some 'r', some 'e']) :
    (Content.family f).defines n = false ∧ n ∉ imports.map (·.1) ∧ n ≠ r.name ++ "LayeredModule" := by
  obtain ⟨hlayer, hsize⟩ := h.reads.names
  refine ⟨?_, fun hmem => ?_, ?_⟩
  · rw [Content.defines, hlayer, hsize, h.reads.accessor, Bool.or_eq_false_iff, Bool.or_eq_false_iff,
      beq_eq_false_iff_ne, beq_eq_false_iff_ne, beq_eq_false_iff_ne]
    refine ⟨⟨?_, ?_⟩, ?_⟩
    · rintro rfl
      simp [coeffName, String.toList_append] at hn
    · rintro rfl
      simp [layerName, String.toList_append] at hn
    · rintro rfl
      simp [String.toList_append] at hn
  · obtain ⟨d, -, hd⟩ := List.mem_flatMap.1 (h.imports n hmem)
    rcases List.mem_pair.1 hd with rfl | rfl
    · simp [layerName, String.toList_append] at hn
    · simp [String.toList_append] at hn
  · rintro rfl
    simp [String.toList_append] at hn

/-- **The functions of a unit for layers have the elementary functions around them.** -/
theorem LayerUnit.elementary (h : LayerUnit p o resolve r plan i f bases groups imports) :
    (unitWorld p i limits (depth + 1) : World Float).Elementary :=
  elementary_unitWorld h.unit (fun _ hn => h.foreign fun hend => not_isElementary hend hn) limits depth

/-- A function of the unit runs the family. -/
theorem LayerUnit.invoke_eq (h : LayerUnit p o resolve r plan i f bases groups imports) (n : String)
    (args : List (Value Float)) : p.invoke limits (depth + 1) (.inUnit i n) args =
      (Content.family f).run limits (unitWorld p i limits depth) n args := by
  rw [Program.invoke, h.unit]
  rfl

/-- The function that knows the numbers of slots. -/
theorem LayerUnit.invoke_size (h : LayerUnit p o resolve r plan i f bases groups imports) (args : List (Value Float)) :
    p.invoke limits (depth + 1) (.inUnit i (layerName r.name ++ "Size")) args =
      f.sizeOf (unitWorld p i limits depth) args := by
  rw [h.invoke_eq, Content.run, h.reads.accessor, h.reads.names.2,
    if_neg (by simpa using sizeName_ne_coeffName r.name), if_pos (beq_self_eq_true _)]

/-- The function that fills buffers. -/
theorem LayerUnit.invoke_layer (h : LayerUnit p o resolve r plan i f bases groups imports)
    (args : List (Value Float)) : p.invoke limits (depth + 1) (.inUnit i (layerName r.name)) args =
      f.fill limits (unitWorld p i limits depth) args := by
  rw [h.invoke_eq, Content.run, h.reads.accessor, h.reads.names.2,
    if_neg (by simpa using layerName_ne_coeffName r.name), if_neg (by simpa using layerName_ne_sizeName r.name)]

end

/-! ## What a slot holds -/

/-- What a slot of a base layer holds: the value of the last base case that covers the point, zero if none
does. -/
inductive HoldsLast (r : Recurrence) (vars : RuntimeVars Float) (call : Call → Except Error Float)
    (point : List Float) (x : Float) : Prop
  | last {front back : List BaseCase} {b : BaseCase} : r.bases = front ++ b :: back → b.Covers point →
      (∀ c ∈ back, ¬ c.Covers point) → b.value.eval (r.pointScope vars point) call = .ok x →
      HoldsLast r vars call point x
  | zero : (∀ b ∈ r.bases, ¬ b.Covers point) → x = 0 → HoldsLast r vars call point x

/-- A case that is selected and that no base case after it overrides in the code of base layers. A rule is
not written there at all. -/
def Settles (r : Recurrence) (point : List Float) : Selection → Prop
  | .base i _ => ∀ (j : Nat) b, i < j → r.bases[j]? = some b → ¬ b.Covers point
  | .rule _ => False
  | .primary => True

variable {vars : RuntimeVars Float} {call : Call → Except Error Float} {point : List Float} {x : Float}

/-- Either nothing in a list has a property or there is a last that has it. -/
theorem exists_last {α : Type} (P : α → Prop) (as : List α) :
    (∀ a ∈ as, ¬ P a) ∨ ∃ front a back, as = front ++ a :: back ∧ P a ∧ ∀ b ∈ back, ¬ P b := by
  induction as with
  | nil => exact .inl (by simp)
  | cons a as ih =>
    rcases ih with hnone | ⟨front, b, back, rfl, hb, hback⟩
    · by_cases ha : P a
      · exact .inr ⟨[], a, as, rfl, ha, hnone⟩
      · exact .inl (List.forall_mem_cons.2 ⟨ha, hnone⟩)
    · exact .inr ⟨a :: front, b, back, rfl, hb, hback⟩

/-- Where no case is selected, each base case is found not to match. -/
theorem matchesBase_of_primary {env : Env Float} (h : r.select env = .ok .primary) :
    ∀ b ∈ r.bases, r.matchesBase env b = .ok false := by
  obtain ⟨ob, hob, h⟩ := bind_ok h
  cases ob with
  | some p => cases h
  | none => exact selectBase_eq_none.1 hob

/-- **The last base case has the value of the selected case** where none overrides that. -/
theorem HoldsLast.evalSelection (h : r.HoldsLast vars call point x) (hr : r.Built)
    (hpoint : point.length = r.indices.length) {chosen : Selection}
    (hselect : r.select (r.pointEnv point) = .ok chosen) (hsettles : r.Settles point chosen) :
    evalSelection (r.pointScope vars point) call chosen = .ok x := by
  cases chosen with
  | base i b =>
    obtain ⟨hi, hcovers, -⟩ := (select_base_iff_covers hr hpoint).1 hselect
    cases h with
    | zero hnone => exact absurd hcovers (hnone b (List.mem_of_getElem? hi))
    | @last front back c hbases hc hback hvalue =>
      -- Of two base cases that cover the point, the one that is selected stands in front.
      have hplace : r.bases[front.length]? = some c := by simp [hbases]
      rcases Nat.lt_trichotomy i front.length with hlt | heq | hgt
      · exact absurd hc (hsettles _ c hlt hplace)
      · rw [← heq, hi, Option.some.injEq] at hplace
        subst hplace
        exact hvalue
      · refine absurd hcovers (hback b ?_)
        rw [hbases, List.getElem?_append_right (by omega)] at hi
        obtain ⟨k, hk⟩ := Nat.exists_eq_add_of_lt hgt
        rw [hk, show front.length + k + 1 - front.length = k + 1 by omega, List.getElem?_cons_succ] at hi
        exact List.mem_of_getElem? hi
  | rule rule => exact hsettles.elim
  | primary =>
    cases h with
    | zero _ hx => exact hx ▸ rfl
    | @last front back c hbases hc hback hvalue =>
      have hmem : c ∈ r.bases := hbases ▸ List.mem_append_right _ List.mem_cons_self
      obtain ⟨m, hm, hiff⟩ := matchesBase_pointEnv hr hmem hpoint
      rw [matchesBase_of_primary hselect c hmem, Except.ok.injEq] at hm
      cases hm.trans (hiff.2 hc)

/-- The base cases of a layer are those that belong to it, in the order of declaration. -/
theorem BaseLayered.bases_eq (h : r.BaseLayered plan) (hl : l ∈ plan.baseLayers) :
    l.bases.map (·.2) = r.bases.filter (r.inLayer plan.layerIndices l.values) := by
  have hplaced : r.placedBases.map (·.2) = r.bases := by
    rw [placedBases, List.map_map]
    exact List.zipIdx_map_fst 0 r.bases
  rw [h.layers.gathered l hl, ← hplaced, List.filter_map]
  rfl

/-- A slot of the layer is written by the base cases that cover its point. -/
theorem BaseLayered.isWritten_iff (h : r.BaseLayered plan) (hr : r.WellFormed) (hbinds : r.BindsExactly)
    (hl : l ∈ plan.baseLayers) {b : BaseCase} (hb : b ∈ r.bases) {k : Nat} (hk : (k : Int) < l.size)
    (hsmall : k ≤ 2 ^ 53) : b.Covers (r.slotPoint plan l k) ↔
      r.inLayer plan.layerIndices l.values b = true ∧ isWritten plan l b k = true := by
  rw [h.covers_iff hr hbinds hl hb (by simpa using hsmall), isWritten]
  simp [hk]

/-- **In the end each slot holds the value of the last base case that covers its point.** -/
theorem BaseLayered.exists_holdsLast (h : r.BaseLayered plan) (hr : r.WellFormed) (hbinds : r.BindsExactly)
    (hl : l ∈ plan.baseLayers) {k : Nat} (hk : (k : Int) < l.size) (hsmall : k ≤ 2 ^ 53)
    {value : BaseCase → Int → Float} (hvalue : ∀ b ∈ l.bases.map (·.2), isWritten plan l b k →
      b.value.eval (r.pointScope vars (r.slotPoint plan l k)) call = .ok (value b k)) :
    ∃ x, (l.bases.map (·.2)).foldl (withBase plan l value) (fun _ => .num 0.0) k = .num x ∧
      r.HoldsLast vars call (r.slotPoint plan l k) x := by
  rw [h.bases_eq hl] at hvalue ⊢
  rcases exists_last (fun b => b.Covers (r.slotPoint plan l k)) r.bases with hnone | ⟨front, b, back, hbases, hb, hback⟩
  · refine ⟨0.0, foldl_withBase_of_none fun b hb => ?_, .zero hnone rfl⟩
    obtain ⟨hmem, hin⟩ := List.mem_filter.1 hb
    rw [← Bool.not_eq_true]
    exact fun hwritten => hnone b hmem ((h.isWritten_iff hr hbinds hl hmem hk hsmall).2 ⟨hin, hwritten⟩)
  · have hmem : ∀ c ∈ b :: back, c ∈ r.bases := fun c hc => hbases ▸ List.mem_append_right _ hc
    have hwritten := (h.isWritten_iff hr hbinds hl (hmem b List.mem_cons_self) hk hsmall).1 hb
    refine ⟨value b k, ?_, .last hbases hb hback (hvalue b ?_ hwritten.2)⟩
    · rw [hbases, List.filter_append, List.filter_cons_of_pos hwritten.1]
      refine foldl_withBase_of_last hwritten.2 fun c hc => ?_
      obtain ⟨hc, hin⟩ := List.mem_filter.1 hc
      rw [← Bool.not_eq_true]
      exact fun hcwritten => hback c hc
        ((h.isWritten_iff hr hbinds hl (hmem c (List.mem_cons_of_mem b hc)) hk hsmall).2 ⟨hin, hcwritten⟩)
    · exact List.mem_filter.2 ⟨hmem b List.mem_cons_self, hwritten.1⟩

/-- A base case has a value wherever it is written if it has one in each slot of the layer and where it is
bound. -/
theorem exists_value_of_forall {b : BaseCase}
    (hslots : ∀ k < l.size.toNat, (b.value.eval (r.pointScope vars (r.slotPoint plan l k)) call).toOption.isSome)
    (hbound : ∀ w ∈ b.slots[plan.auxSlot]?.join,
      (b.value.eval (r.pointScope vars (r.slotPoint plan l w.toInt)) call).toOption.isSome) :
    ∀ a, isWritten plan l b a → ∃ x, b.value.eval (r.pointScope vars (r.slotPoint plan l a)) call = .ok x := by
  intro a ha
  have hsome : (b.value.eval (r.pointScope vars (r.slotPoint plan l a)) call).toOption.isSome := by
    rw [isWritten, Bool.and_eq_true, Bool.and_eq_true, Bool.or_eq_true, decide_eq_true_eq, decide_eq_true_eq] at ha
    obtain ⟨⟨hat, hlt⟩, hpos | hfixed⟩ := ha
    · have hk := hslots a.toNat (by omega)
      rwa [Int.toNat_of_nonneg hpos] at hk
    · obtain ⟨w, hw⟩ := Option.isSome_iff_exists.1 hfixed
      rw [BaseCase.isAt, hw, Option.all_some, beq_iff_eq] at hat
      exact hat ▸ hbound w hw
  cases heval : b.value.eval (r.pointScope vars (r.slotPoint plan l a)) call with
  | error e =>
    rw [heval] at hsome
    cases hsome
  | ok x => exact ⟨x, rfl⟩

/-- A slot behind the layer holds zero. -/
theorem foldl_withBase_of_le {value : BaseCase → Int → Float} {k : Nat} (hk : l.size ≤ k) (bases : List BaseCase) :
    bases.foldl (withBase plan l value) (fun _ => .num 0.0) k = .num 0.0 :=
  foldl_withBase_of_none fun b _ => by simp [isWritten, hk]

/-- **Base layers hold the base cases that come last.** A program that ends with the unit of the layers fills a
buffer of zeros with a base layer: each slot of the layer holds the value of the last base case that covers its
point, zero if none does, and the slots behind the layer hold zero. So a slot holds the value of the selected
case where no later base case covers the point and no rule is selected. -/
theorem holdsLast_of_invoke (h : r.Scripted) (hbinds : r.BindsExactly) (hout : "out" ∉ r.params)
    (hcount : "N_VALUES" ∉ r.params) (hplan : r.planLayers o.tablePadding = .ok plan)
    (hbound : plan.bound.source ≠ .default) (hl : l ∈ plan.baseLayers)
    (hread : ∀ b ∈ l.bases.map (·.2), ∀ t ∈ (written plan l b b.value).texts, Readable t)
    (ho : o.target = .js) {u : GeneratedUnit} (hu : r.generateLayered o resolve = .ok u)
    {before : List GeneratedUnit} {p : Program} (hload : Program.load (before ++ [u]) = .ok p)
    (hvars : ∀ fn : MathFn, vars fn.name = none)
    (htables : ∀ v ∈ r.runtimeVars, ∀ xs, vars v = some (.table xs) → xs.length < 2 ^ 32)
    {length : Nat} (hsize : l.size ≤ length) (hlength : length < 2 ^ 32)
    {limits : Limits} (hpasses : l.size < limits.passes) (depth : Nat)
    (hvalue : ∀ b ∈ l.bases.map (·.2), ∀ a, isWritten plan l b a →
      ∃ x, b.value.eval (r.pointScope vars (r.slotPoint plan l a)) call = .ok x) :
    ∃ (callee : Callable) (args : List (Value Float)) (out : Nat → Float) (named : List (String × Value Float)),
      (p.exported? (layerName r.name) : Option (Value Float)) = some (.function callee) ∧
      p.invoke limits (depth + 2) callee (r.fillArgs l length vars) = .ok ⟨.undefined, args⟩ ∧
      args[plan.layerIndices.length]? = some (Value.slots length (fun k => .num (out k)) named) ∧
      (∀ k : Nat, (k : Int) < l.size → r.HoldsLast vars call (r.slotPoint plan l k) (out k) ∧
        ∀ chosen, r.select (r.pointEnv (r.slotPoint plan l k)) = .ok chosen →
          r.Settles (r.slotPoint plan l k) chosen →
          evalSelection (r.pointScope vars (r.slotPoint plan l k)) call chosen = .ok (out k)) ∧
      ∀ k : Nat, l.size ≤ k → out k = 0 := by
  have hlayered := baseLayered_of_planLayersIn hplan
  obtain ⟨i, f, bases, groups, imports, hunit⟩ := exists_layerUnit_of_load ho hu hplan hload
  let value (b : BaseCase) (a : Int) : Float :=
    (b.value.eval (r.pointScope vars (r.slotPoint plan l a)) call).toOption.getD 0
  have hvalue : ∀ b ∈ l.bases.map (·.2), ∀ a, isWritten plan l b a →
      b.value.eval (r.pointScope vars (r.slotPoint plan l a)) call = .ok (value b a) := by
    intro b hb a ha
    obtain ⟨x, hx⟩ := hvalue b hb a ha
    simp only [value, hx]
    rfl
  have helementary : (unitWorld p i limits (depth + 1) : World Float).Elementary := hunit.elementary
  obtain ⟨named, hfill⟩ := h.fill_baseLayer hlayered hbinds hl ho hout hcount hvars htables helementary
    (hlayered.sizes hbound l hl) hsize hlength hpasses hread hvalue hunit.reads
  have hslots : ∀ k : Nat, ∃ x, (l.bases.map (·.2)).foldl (withBase plan l value) (fun _ => .num 0.0) k = .num x ∧
      ((k : Int) < l.size → r.HoldsLast vars call (r.slotPoint plan l k) x) ∧ (l.size ≤ k → x = 0) := by
    intro k
    by_cases hk : (k : Int) < l.size
    · obtain ⟨x, hx, hholds⟩ := hlayered.exists_holdsLast h.built.wellFormed hbinds hl hk (by omega)
        fun b hb hwritten => hvalue b hb k hwritten
      exact ⟨x, hx, fun _ => hholds, fun hle => absurd hk (by omega)⟩
    · exact ⟨0.0, foldl_withBase_of_le (by omega) _, fun hlt => absurd hlt hk, fun _ => rfl⟩
  choose out hout hholds hzero using hslots
  rw [funext hout] at hfill
  refine ⟨.inUnit i (layerName r.name), _, out, named, ?_, (hunit.invoke_layer _).trans hfill, ?_,
    fun k hk => ⟨hholds k hk, ?_⟩, hzero⟩
  · rw [Program.exported?, hunit.exported _ (by simp)]
  · rw [← hlayered.length_layerArgs hl]
    simp
  intro chosen hselect hsettles
  exact (hholds k hk).evalSelection h.built (by simp [slotPoint]) hselect hsettles

/-! ## Base cases of one layer that overlap -/

/-- Two base cases of layer one, the first for slot zero alone. -/
def overlappingBases : List Step :=
  [.validity ["t >= 0", "t <= n"], .base [("n", 1), ("t", 0)] (.number 1), .base [("n", 1)] (.raw "2*(t+3)"),
    .rule "n > 1" "E[n-1, t]" none none]

theorem balanced_of_planOf {steps : List Step} (hsteps : ∀ s ∈ steps, s.Balanced) {p : Recurrence × LayerPlan}
    (h : planOf steps = .ok p) : p.1.Balanced := by
  obtain ⟨r, hr, h⟩ := bind_ok h
  obtain ⟨r', hr', h⟩ := bind_ok h
  obtain ⟨plan, -, h⟩ := bind_ok h
  cases h
  exact (Balanced.create hr).build hsteps hr'

/-- No runtime variable is given. -/
def noVars : RuntimeVars Float := fun _ => none

/-- There are no calls. -/
def noCall : Call → Except Error Float := fun _ => .error Script.malformed

/-- Whether code for a base layer of a recurrence can be read, and each base case has a value in each slot and
where it is bound. -/
def isFillable (r : Recurrence) (plan : LayerPlan) (l : BaseLayer) : Bool :=
  (l.bases.map (·.2)).all fun b => (written plan l b b.value).texts.all isReadable &&
    (List.range l.size.toNat).all (fun k =>
      (b.value.eval (r.pointScope noVars (r.slotPoint plan l k)) noCall).toOption.isSome) &&
    b.slots[plan.auxSlot]?.join.all fun w =>
      (b.value.eval (r.pointScope noVars (r.slotPoint plan l w.toInt)) noCall).toOption.isSome

/-- Layer one of `overlappingBases`, in a buffer of its size. -/
theorem holdsLast_of_invoke_overlapping : ∃ r plan l u p, planOf overlappingBases = .ok (r, plan) ∧
    l ∈ plan.baseLayers ∧ l.size = 2 ∧ plan.layerIndices = ["n"] ∧
    r.generateLayered { target := .js } (fun _ => none) = .ok u ∧ Program.load ([] ++ [u]) = .ok p ∧
    ∃ (callee : Callable) (args : List (Value Float)) (out : Nat → Float) (named : List (String × Value Float)),
      (p.exported? (layerName r.name) : Option (Value Float)) = some (.function callee) ∧
      p.invoke Program.standardLimits 2 callee (r.fillArgs l 2 noVars) = .ok ⟨.undefined, args⟩ ∧
      args[plan.layerIndices.length]? = some (Value.slots 2 (fun k => .num (out k)) named) ∧
      (∀ k : Nat, (k : Int) < l.size → r.HoldsLast noVars noCall (r.slotPoint plan l k) (out k) ∧
        ∀ chosen, r.select (r.pointEnv (r.slotPoint plan l k)) = .ok chosen →
          r.Settles (r.slotPoint plan l k) chosen →
          evalSelection (r.pointScope noVars (r.slotPoint plan l k)) noCall chosen = .ok (out k)) ∧
      ∀ k : Nat, l.size ≤ k → out k = 0 := by
  have hcheck : ((planOf overlappingBases).toOption.any fun q => q.1.isScripted && decide q.1.BindsExactly &&
      !q.1.params.contains "out" && !q.1.params.contains "N_VALUES" && decide (q.2.bound.source ≠ .default) &&
      q.2.layerIndices == ["n"] &&
      (q.2.baseLayers.any fun l => decide (l.size = 2) && q.1.isFillable q.2 l) &&
      (q.1.generateLayered { target := .js } fun _ => none).toOption.any fun u =>
        (Program.load ([] ++ [u])).toOption.any fun _ => true) = true := by
    decide +kernel
  obtain ⟨⟨r, plan⟩, hrun, hcheck⟩ := exists_ok_of_any hcheck
  simp only [Bool.and_eq_true, decide_eq_true_eq, Bool.not_eq_true', List.contains_eq_mem, decide_eq_false_iff_not,
    beq_iff_eq] at hcheck
  obtain ⟨⟨⟨⟨⟨⟨⟨hscripted, hbinds⟩, hout⟩, hcount⟩, hbound⟩, hindices⟩, hlayer⟩, hprogram⟩ := hcheck
  obtain ⟨l, hl, hlayer⟩ := List.any_eq_true.1 hlayer
  rw [Bool.and_eq_true, decide_eq_true_eq] at hlayer
  obtain ⟨hsize, hfill⟩ := hlayer
  obtain ⟨u, hu, hprogram⟩ := exists_ok_of_any hprogram
  obtain ⟨p, hload, -⟩ := exists_ok_of_any hprogram
  rw [isFillable, List.all_eq_true] at hfill
  simp only [Bool.and_eq_true, List.all_eq_true, List.mem_range] at hfill
  have hplan : r.planLayers ({ target := .js } : CodegenOptions).tablePadding = .ok plan := (planOf_eq_ok hrun).2
  have hbalanced : r.Balanced := balanced_of_planOf (by decide) hrun
  refine ⟨r, plan, l, u, p, hrun, hl, hsize, hindices, hu, hload, ?_⟩
  exact holdsLast_of_invoke (scripted_of_isScripted hbalanced hscripted) hbinds hout hcount hplan hbound hl
    (fun b hb t ht => readable_of_isReadable ((hfill b hb).1.1 t ht)) rfl hu hload (fun _ => rfl)
    (fun _ _ _ h => by cases h) (by omega) (by decide) (by rw [hsize]; decide) 0
    fun b hb => exists_value_of_forall (hfill b hb).1.2 fun w hw =>
      (Option.all_eq_true _ _).1 (hfill b hb).2 w hw

/-- **The base case that is selected may be overwritten**: at slot zero of layer one the first base case is
selected, which has the value one, and the second is written over it. -/
theorem selected_base_overwritten : ∃ r plan p table chosen x y, planOf overlappingBases = .ok (r, plan) ∧
    r.layerProgram = .ok p ∧ p.callLayer (layerName r.name) [.num (1 : Float)] 2 [] = .ok table ∧
    table.element (.num 0) = .ok (.num y) ∧ r.select (r.pointEnv [(1 : Float), 0]) = .ok chosen ∧
    evalSelection (r.pointScope noVars [1, 0]) noCall chosen = .ok x ∧ x < y := by
  have hcheck : ((planOf overlappingBases).toOption.any fun q => q.1.layerProgram.toOption.any fun p =>
      (p.callLayer (layerName q.1.name) [.num (1 : Float)] 2 []).toOption.any fun table =>
        (table.element (.num 0)).toOption.any fun v => v.number?.any fun y =>
          (q.1.select (q.1.pointEnv [(1 : Float), 0])).toOption.any fun chosen =>
            (evalSelection (q.1.pointScope noVars [1, 0]) noCall chosen).toOption.any (· < y)) = true := by
    decide +kernel
  obtain ⟨⟨r, plan⟩, hrun, hcheck⟩ := exists_ok_of_any hcheck
  obtain ⟨p, hp, hcheck⟩ := exists_ok_of_any hcheck
  obtain ⟨table, htable, hcheck⟩ := exists_ok_of_any hcheck
  obtain ⟨v, hv, hcheck⟩ := exists_ok_of_any hcheck
  rw [Option.any_eq_true] at hcheck
  obtain ⟨y, hy, hcheck⟩ := hcheck
  obtain ⟨chosen, hchosen, hcheck⟩ := exists_ok_of_any hcheck
  obtain ⟨x, hx, hlt⟩ := exists_ok_of_any hcheck
  cases v with
  | num z =>
    cases hy
    exact ⟨r, plan, p, table, chosen, x, y, hrun, hp, htable, hv, hchosen, hx, of_decide_eq_true hlt⟩
  | _ => cases hy

end Recurrence

end RecurrenceCompiler
