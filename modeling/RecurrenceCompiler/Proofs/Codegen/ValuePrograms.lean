import RecurrenceCompiler.Proofs.Catalog.Validated
import RecurrenceCompiler.Proofs.Codegen.ValueModules
import RecurrenceCompiler.Proofs.Script.Loading

/-!
# Programs for single values

The modules of recurrences are loaded one after the other, callees before their callers, and each calls the
functions that the program has for its callees (`Linked`). A call of a function then does what one step of
plain recursion does: a case is selected, its calls are made at shifted points, and the value of the case is
returned (`Computing.invoke_step`). So the function of a recurrence returns at a point what interpretation
returns there, as long as calls may nest deep enough (`generatePerValue_returns`).
-/

namespace RecurrenceCompiler

open Text Decimal Arith Script

/-- A call of a function returns a number whatever the limits are, as long as calls may nest deep enough. -/
def Program.Returns (p : Program) (f : Callable) (args : List (Value Float)) (x : Float) : Prop :=
  ∃ depth, ∀ (limits : Limits), ∀ fuel ≥ depth, ∃ left, p.invoke limits fuel f args = .ok ⟨.num x, left⟩

namespace Recurrence

/-! ## Units of a program -/

/-- A unit of a program that computes the single values of a recurrence. The functions that it imports are those
that the program has under the names of what the recurrence calls. -/
structure Computing (p : Program) (resolve : Resolver) (r : Recurrence) (i : Nat)
    (served : List (Script.Function Expression × Stmt Expression)) (imports : List (String × Nat)) : Prop where
  unit : p.units[i]? = some ⟨r.name ++ "Module", .functions (r.valueFunctions served), imports⟩
  exported : Json.getField? p.exports (coeffName r.name) = some i
  served : List.Forall₂ (fun c q => r.ServedBy resolve c q.1 q.2) r.codeCases served
  imports : ∀ n, Json.getField? imports n =
    if n ∈ r.dependencies.map coeffName then Json.getField? p.exports n else none

/-- A program has the units of recurrences. -/
def Linked (p : Program) (resolve : Resolver) (rs : List Recurrence) : Prop :=
  ∀ r ∈ rs, ∃ i served imports, Computing p resolve r i served imports

theorem coeffName_inj {n m : String} (h : coeffName n = coeffName m) : n = m := by
  simpa [coeffName] using h

section
variable {p : Program} {resolve : Resolver} {r : Recurrence} {i : Nat}
  {served : List (Script.Function Expression × Stmt Expression)} {imports : List (String × Nat)}

/-- The functions of a module have their own names. -/
theorem nodup_valueFunctions (hr : r.Built)
    (hserved : List.Forall₂ (fun c q => r.ServedBy resolve c q.1 q.2) r.codeCases served) :
    ((r.valueFunctions served).map (·.name)).Nodup := by
  have hnames := nodup_functionNames hr
  rw [← map_name_served hserved] at hnames
  simpa [valueFunctions, Function.comp_def] using hnames

theorem names_valueFunctions
    (hserved : List.Forall₂ (fun c q => r.ServedBy resolve c q.1 q.2) r.codeCases served)
    {f : Script.Function Expression} (hf : f ∈ r.valueFunctions served) :
    f.name = coeffName r.name ∨ r.IsInner f.name := by
  rw [valueFunctions, List.mem_cons, List.mem_append, List.mem_singleton] at hf
  rcases hf with rfl | hf | rfl
  · exact .inr isInner_primaryName
  · obtain ⟨q, hq, rfl⟩ := List.mem_map.1 hf
    obtain ⟨c, hc, hby⟩ := exists_of_forall₂ hserved hq
    exact .inr (hby.name ▸ isInner_codeCase c hc)
  · exact .inl rfl

/-- Where names are distinct, what is found under the name of an element is that element. -/
theorem find?_of_nodup {α : Type} {name : α → String} {as : List α} (h : (as.map name).Nodup) {a : α}
    (ha : a ∈ as) : (as.find? fun b => name b == name a) = some a := by
  induction as with
  | nil => cases ha
  | cons b as ih =>
    rw [List.map_cons, List.nodup_cons] at h
    by_cases hname : name b = name a
    · rcases List.mem_cons.1 ha with rfl | ha
      · exact List.find?_cons_of_pos (beq_self_eq_true _)
      · exact absurd (hname ▸ List.mem_map_of_mem ha) h.1
    · rw [List.find?_cons_of_neg (by simpa using hname)]
      exact ih h.2 ((List.mem_cons.1 ha).resolve_left fun heq => hname (heq ▸ rfl))

/-- **A function of a module is called by its name.** -/
theorem Computing.invoke_own (h : Computing p resolve r i served imports) (hr : r.Built)
    {f : Script.Function Expression} (hf : f ∈ r.valueFunctions served) (limits : Limits) (depth : Nat)
    (args : List (Value Float)) :
    p.invoke limits (depth + 1) (.inUnit i f.name) args = f.run limits (unitWorld p i limits depth) args := by
  rw [Program.invoke, h.unit]
  dsimp only
  rw [Content.run, find?_of_nodup (nodup_valueFunctions hr h.served) hf]
  rfl

/-- In a module, its own functions stand for themselves. -/
theorem Computing.nameIn_own (h : Computing p resolve r i served imports) {f : Script.Function Expression}
    (hf : f ∈ r.valueFunctions served) :
    (p.nameIn i f.name : Except Error (Value Float)) = .ok (.function (.inUnit i f.name)) := by
  have hdefines : (Content.functions (r.valueFunctions served)).defines f.name = true :=
    List.any_eq_true.2 ⟨f, hf, beq_self_eq_true _⟩
  rw [Program.nameIn, h.unit]
  dsimp only
  rw [hdefines, if_pos rfl]

/-- A name that is neither that of the module's function nor inner is not the name of a function of it. -/
theorem Computing.defines_eq_false (h : Computing p resolve r i served imports) {n : String}
    (hn : n ≠ coeffName r.name) (hinner : ¬ r.IsInner n) :
    (Content.functions (r.valueFunctions served)).defines n = false := by
  rw [Content.defines, List.any_eq_false]
  intro f hf hname
  rw [beq_iff_eq] at hname
  rcases names_valueFunctions h.served hf with heq | heq
  · exact hn (hname ▸ heq)
  · exact hinner (hname ▸ heq)

/-- **What a recurrence calls stands for the function that the program has.** -/
theorem Computing.nameIn_callee (h : Computing p resolve r i served imports) {d : String}
    (hd : r.Calls d) (hid : isIdentifier d) {j : Nat} (hj : Json.getField? p.exports (coeffName d) = some j) :
    (p.nameIn i (coeffName d) : Except Error (Value Float)) = .ok (.function (.inUnit j (coeffName d))) := by
  have hdefines := h.defines_eq_false (fun heq => hd.1 (coeffName_inj heq)) fun hinner => hinner.ne_coeffName hid rfl
  have hmath : MathFn.ofName? (coeffName d) = none := by
    cases hf : MathFn.ofName? (coeffName d) with
    | none => rfl
    | some f =>
      refine absurd ?_ (not_isElementary_coeffName d)
      rw [← ofName?_eq_some hf]
      exact .inl (name_mem_mathNames f)
  have himport : Json.getField? imports (coeffName d) = some j := by
    rw [h.imports, if_pos (List.mem_map_of_mem (mem_dependencies.2 hd)), hj]
  rw [Program.nameIn, h.unit]
  dsimp only
  rw [hdefines, hmath, himport, if_neg Bool.false_ne_true]

/-- **A module has the elementary functions around it.** -/
theorem Computing.elementary (h : Computing p resolve r i served imports) (limits : Limits) (depth : Nat) :
    (unitWorld p i limits (depth + 1) : World Float).Elementary := by
  refine elementary_unitWorld h.unit (fun n hn => ⟨?_, fun hmem => ?_, ?_⟩) limits depth
  · refine h.defines_eq_false ?_ fun hinner => hinner.not_isElementary hn
    rintro rfl
    exact not_isElementary_coeffName _ hn
  · rw [← Json.getField?_isSome, h.imports] at hmem
    split at hmem
    · next hdependency =>
      obtain ⟨d, -, rfl⟩ := List.mem_map.1 hdependency
      exact not_isElementary_coeffName d hn
    · cases hmem
  · rintro rfl
    exact not_isElementary (by simp [String.toList_append]) hn

end

/-! ## Calls in a program -/

/-- A case that is found is one of those that are tried. -/
theorem mem_of_firstCase {env : Env Float} {cases : List CodeCase} {c : CodeCase}
    (h : firstCase env cases = .ok (some c)) : c ∈ cases := by
  induction cases with
  | nil => cases h
  | cons d cases ih =>
    obtain ⟨b, -, h⟩ := bind_ok h
    cases b with
    | true =>
      cases h
      exact List.mem_cons_self
    | false => exact List.mem_cons_of_mem _ (ih h)

/-- A case has the value and the calls of its expression. -/
theorem evalSelection_of_value {chosen : Selection} {e : Expr} (h : chosen.value? = some e) (s : Scope Float)
    (call : Call → Except Error Float) :
    evalSelection s call chosen = e.eval s call ∧ chosen.calls = e.calls := by
  cases chosen with
  | base i b =>
    cases h
    exact ⟨rfl, rfl⟩
  | rule ρ =>
    cases h
    exact ⟨rfl, rfl⟩
  | primary => cases h

/-- A point without a case has the value zero. -/
theorem eq_primary_of_value {chosen : Selection} (h : chosen.value? = none) : chosen = .primary := by
  cases chosen with
  | base | rule => cases h
  | primary => rfl

section
variable {p : Program} {resolve : Resolver} {r : Recurrence} {i : Nat}
  {served : List (Script.Function Expression × Stmt Expression)} {imports : List (String × Nat)}
  {vars : RuntimeVars Float} {point : List Float} {call : Call → Except Error Float} {x : Float}

/-- **The function of the case that is selected** gives back the value of the case. -/
theorem Computing.exists_function (h : Computing p resolve r i served imports)
    (hp : r.Passable vars point) (hrespects : RespectsShifts call) {chosen : Selection}
    {limits : Limits} {depth : Nat}
    (hcalls : r.Answers resolve vars point call (unitWorld p i limits (depth + 1)) chosen.calls)
    (hx : evalSelection (r.pointScope vars point) call chosen = .ok x) {found : Option CodeCase}
    (hfound : firstCase (r.pointEnv point) r.codeCases = .ok found) (hvalue : found.map (·.value) = chosen.value?) :
    ∃ f ∈ r.valueFunctions served, (found.map (·.function)).getD r.primaryName = f.name ∧ r.IsInner f.name ∧
      ∃ args, f.run limits (unitWorld p i limits (depth + 1)) (pointArgs r.runtimeVars vars point) =
        .ok ⟨.num x, args⟩ := by
  cases found with
  | none =>
    obtain rfl := eq_primary_of_value hvalue.symm
    cases hx
    exact ⟨_, List.mem_cons_self, rfl, isInner_primaryName, run_primary r limits _⟩
  | some c =>
    have hc := mem_of_firstCase hfound
    obtain ⟨q, hq, hby⟩ := exists_of_forall₂ h.served.flip hc
    obtain ⟨heval, hsame⟩ := evalSelection_of_value hvalue.symm (r.pointScope vars point) call
    rw [heval] at hx
    rw [hsame] at hcalls
    refine ⟨q.1, ?_, hby.name.symm, hby.name ▸ isInner_codeCase c hc,
      hby.computes (h.elementary limits depth) hp hrespects hcalls hx limits⟩
    exact List.mem_cons_of_mem _ (List.mem_append_left _ (List.mem_map_of_mem hq))

/-- **A call of the function of a recurrence is a step of plain recursion**: it returns the value of the case
that is selected at the point. -/
theorem Computing.invoke_step (h : Computing p resolve r i served imports) (hr : r.Runnable resolve)
    (hp : r.Passable vars point) (hrespects : RespectsShifts call) {chosen : Selection}
    (hchosen : r.select (r.pointEnv point) = .ok chosen) {limits : Limits} {depth : Nat}
    (hcalls : r.Answers resolve vars point call (unitWorld p i limits (depth + 1)) chosen.calls)
    (hx : evalSelection (r.pointScope vars point) call chosen = .ok x) : ∃ args,
      p.invoke limits (depth + 3) (.inUnit i (coeffName r.name)) (pointArgs r.runtimeVars vars point) =
        .ok ⟨.num x, args⟩ := by
  obtain ⟨found, hfound, hvalue⟩ := firstCase_of_select hr.built hchosen
  obtain ⟨f, hf, hname, hinner, args, hrun⟩ :=
    h.exists_function hp hrespects hcalls hx hfound hvalue
  have hreturned : (unitWorld p i limits (depth + 2) : World Float).value (.inUnit i f.name)
      (pointArgs r.runtimeVars vars point) = .ok (.num x) := by
    have hcall := (h.invoke_own hr.built hf limits (depth + 1) _).trans hrun
    rw [World.value, unitWorld]
    dsimp only
    rw [hcall]
    rfl
  obtain ⟨args, hselect⟩ := hr.run_selecting hp (h.elementary limits (depth + 1)) h.served hfound hname hinner
    (h.nameIn_own hf) hreturned limits
  refine ⟨args, ?_⟩
  rw [← hselect]
  exact h.invoke_own hr.built (f := ⟨coeffName r.name, r.params,
    served.map (·.2) ++ [.ret (r.passScript r.primaryName)]⟩) (by simp [valueFunctions]) limits (depth + 2) _

end

/-! ## Recursion in a program -/

/-- Recurrences whose modules go together in a program: each is found under its name, stands after all that it
calls, and has code that can be run. -/
structure Assembles (resolve : Resolver) (rs : List Recurrence) : Prop where
  named : ∀ t s, resolve t = some s → s.name = t
  found : ∀ r ∈ rs, ∀ s, resolve r.name = some s → s = r
  distinct : (rs.map (·.name)).Nodup
  calleesFirst : CalleesFirst rs
  runnable : ∀ r ∈ rs, r.Runnable resolve

/-- Finds recurrences of a list by their names. -/
def findIn (rs : List Recurrence) : Resolver := fun t => rs.find? fun s => s.name == t

/-- Recurrences with their own names that are found among themselves go together. -/
theorem assembles_findIn {rs : List Recurrence} (hdistinct : (rs.map (·.name)).Nodup) (hfirst : CalleesFirst rs)
    (hrunnable : ∀ r ∈ rs, r.Runnable (findIn rs)) : Assembles (findIn rs) rs where
  named t s hs := by
    have hname := List.find?_some hs
    exact beq_iff_eq.1 hname
  found r hr s hs := by
    rw [findIn, find?_of_nodup hdistinct hr] at hs
    exact (Option.some.inj hs).symm
  distinct := hdistinct
  calleesFirst := hfirst
  runnable := hrunnable

/-- The value of a call at a point, if it can be derived. -/
noncomputable def derivedCall (resolve : Resolver) (vars : RuntimeVars Float) (r : Recurrence) (point : List Float)
    (c : Call) : Except Error Float := do
  let target ← r.callee resolve c
  derived resolve vars target (shiftPoint point c)

section
variable {p : Program} {resolve : Resolver} {rs : List Recurrence} {r target : Recurrence} {vars : RuntimeVars Float}
  {point : List Float} {c : Call} {x : Float}

/-- **What a call of a rule goes to** is one of the recurrences. The call is written with its name and passes its
runtime variables. -/
theorem Assembles.callee (h : Assembles resolve rs) (hr : r ∈ rs) {ρ : Rule} (hρ : ρ ∈ r.rules)
    (hc : c ∈ ρ.expr.calls) (ht : r.callee resolve c = .ok target) :
    target ∈ rs ∧ (target = r ∨ r.Calls target.name ∧ resolve target.name = some target) ∧
      c.target.getD r.name = target.name ∧ r.callVars resolve c.target = target.runtimeVars := by
  rw [Recurrence.callee] at ht
  cases hct : c.target with
  | none =>
    rw [hct] at ht
    cases ht
    exact ⟨hr, .inl rfl, rfl, rfl⟩
  | some t =>
    rw [hct] at ht
    dsimp only at ht
    cases hs : resolve t with
    | none =>
      rw [hs] at ht
      cases ht
    | some s =>
      rw [hs] at ht
      cases ht
      obtain rfl := h.named t target hs
      by_cases hself : target.name = r.name
      · obtain rfl := h.found r hr target (hself ▸ hs)
        exact ⟨hr, .inl rfl, rfl, by rw [callVars, if_pos (beq_self_eq_true _)]⟩
      · have hcalls : r.Calls target.name := ⟨hself, ρ, hρ, c, hc, hct⟩
        obtain ⟨s, hmem, hname⟩ := List.mem_map.1 (h.calleesFirst.closed hr _ hcalls)
        obtain rfl : target = s := h.found s hmem target (hname ▸ hs)
        refine ⟨hmem, .inr ⟨hcalls, hs⟩, rfl, ?_⟩
        rw [callVars, if_neg (by simpa using hself), hs]
        rfl

/-- What can be passed to the functions of a recurrence can be passed on to what it calls, shifted. -/
theorem Passable.shift (hp : r.Passable vars point) (hrank : target.indices.length = r.indices.length)
    (hvars : target.runtimeVars ⊆ r.runtimeVars) (c : Call) : target.Passable vars (shiftPoint point c) where
  rank := by rw [length_shiftPoint, hp.rank, hrank]
  point := hp.point.shiftPoint c
  elementary := hp.elementary
  tables v hv := hp.tables v (hvars hv)

/-- Calls with the same shifts shift each index alike. -/
theorem shiftAt_congr {c c' : Call} (h : c.shifts.map Whole.toInt = c'.shifts.map Whole.toInt) (slot : Nat) :
    c.shiftAt slot = c'.shiftAt slot := by
  have hslot := congrArg (·[slot]?.getD 0) h
  have hzero : (0 : Int) = Whole.toInt 0 := rfl
  simp only [List.getElem?_map, hzero, Option.getD_map] at hslot
  exact hslot

/-- Calls with the same shifts lead to the same point. -/
theorem shiftPoint_congr (hpoint : NoNegativeZero point) {c c' : Call}
    (h : c.shifts.map Whole.toInt = c'.shifts.map Whole.toInt) : shiftPoint point c = shiftPoint point c' := by
  refine List.map_congr_left fun q hq => ?_
  have hx : isNegativeZero q.1 = false := hpoint q.1 (List.fst_mem_of_mem_zipIdx hq)
  have hsame := congrArg (fun i => q.1 + ofInt i) (shiftAt_congr h q.2)
  exact (add_toFloat hx _).trans (hsame.trans (add_toFloat hx _).symm)

/-- What calls that shift alike have as their values can be derived alike. -/
theorem respectsShifts_derivedCall (hpoint : NoNegativeZero point) :
    RespectsShifts (derivedCall resolve vars r point) := by
  intro c c' htarget hshifts
  have hcallee : r.callee resolve c = r.callee resolve c' := by rw [Recurrence.callee, Recurrence.callee, htarget]
  rw [derivedCall, derivedCall, hcallee, shiftPoint_congr hpoint hshifts]

/-- What is derived at a point is the value of the case that is selected there. -/
theorem Derivable.exists_selected (h : Derivable resolve vars r point x) : ∃ chosen,
    r.select (r.pointEnv point) = .ok chosen ∧
      evalSelection (r.pointScope vars point) (derivedCall resolve vars r point) chosen = .ok x := by
  obtain ⟨targets, values, -, selected, callees, called, value⟩ := h
  refine ⟨_, selected, (evalSelection_congr fun c hc => ?_).trans value⟩
  rw [derivedCall, callees c hc]
  exact derived_eq_ok_iff.2 (called c hc)

/-- **What can be derived is returned** by the functions of a program that has all recurrences. -/
theorem Linked.returns (hlinked : Linked p resolve rs) (h : Assembles resolve rs)
    (hx : Derivable resolve vars r point x) (hr : r ∈ rs) (hp : r.Passable vars point) {i : Nat}
    (hi : Json.getField? p.exports (coeffName r.name) = some i) :
    p.Returns (.inUnit i (coeffName r.name)) (pointArgs r.runtimeVars vars point) x := by
  induction hx generalizing i with
  | @intro r point x chosen targets values bound selected callees called value ih =>
    obtain ⟨i', served, imports, hunit⟩ := hlinked r hr
    obtain rfl := Option.some.inj (hunit.exported.symm.trans hi)
    have hrun := h.runnable r hr
    -- Each call goes to a function of the program, which returns the value of the call.
    have hreturns : ∀ c ∈ chosen.calls, ∃ j, p.Returns (.inUnit j (coeffName (targets c).name))
        (pointArgs (targets c).runtimeVars vars (shiftPoint point c)) (values c) ∧
        (p.nameIn i' (coeffName (targets c).name) : Except Error (Value Float)) =
          .ok (.function (.inUnit j (coeffName (targets c).name))) := by
      intro c hc
      obtain ⟨ρ, hρ, hcall⟩ := exists_rule_of_mem_calls hrun.built selected hc
      obtain ⟨hmem, hwhere, -, -⟩ := h.callee hr hρ hcall (callees c hc)
      obtain ⟨j, served', imports', htarget⟩ := hlinked _ hmem
      rcases hwhere with heq | ⟨hcalls, hfound⟩
      · have hpassable := hp.shift (congrArg (·.indices.length) heq) (heq ▸ List.Subset.refl _) c
        have hname := hunit.nameIn_own (f := ⟨coeffName r.name, r.params,
          served.map (·.2) ++ [.ret (r.passScript r.primaryName)]⟩) (by simp [valueFunctions])
        exact ⟨i', ih c hc hmem hpassable (heq ▸ hi), heq ▸ hname⟩
      · have hpassable := hp.shift (hrun.rank _ hcalls _ hfound) (hrun.vars _ hcalls _ hfound) c
        have hid := (h.runnable _ hmem).built.isIdentifier_name
        exact ⟨j, ih c hc hmem hpassable htarget.exported, hunit.nameIn_callee hcalls hid htarget.exported⟩
    choose! j hreturns hnames using hreturns
    choose! depth hdepth using hreturns
    refine ⟨(chosen.calls.map depth).sum + 3, fun limits fuel hfuel => ?_⟩
    obtain ⟨k, rfl⟩ : ∃ k, fuel = k + 3 := ⟨fuel - 3, by omega⟩
    have hcalled : ∀ c ∈ chosen.calls, derivedCall resolve vars r point c = .ok (values c) := by
      intro c hc
      rw [derivedCall, callees c hc]
      exact derived_eq_ok_iff.2 (called c hc)
    rw [← evalSelection_congr hcalled] at value
    refine hunit.invoke_step hrun hp (respectsShifts_derivedCall hp.point) selected (fun c hc v hv => ?_) value
    obtain rfl := Except.ok.inj ((hcalled c hc).symm.trans hv)
    obtain ⟨ρ, hρ, hcall⟩ := exists_rule_of_mem_calls hrun.built selected hc
    obtain ⟨-, -, hname, hvars⟩ := h.callee hr hρ hcall (callees c hc)
    have hle : depth c ≤ (chosen.calls.map depth).sum := List.single_le_sum (by simp) _ (List.mem_map_of_mem hc)
    obtain ⟨left, hinvoke⟩ := hdepth c hc limits (k + 1) (by omega)
    refine ⟨.inUnit (j c) (coeffName (targets c).name), ?_, ?_⟩
    · rw [hname]
      exact hnames c hc
    · rw [hvars, World.value, unitWorld]
      dsimp only
      rw [hinvoke]
      rfl

end

/-! ## Loading in order -/

section
variable {p q : Program} {resolve : Resolver} {rs : List Recurrence} {r : Recurrence} {o : CodegenOptions}

/-- A unit of a program is one of any program that has it too, together with the functions that it calls. -/
theorem Computing.mono {i : Nat} {served : List (Script.Function Expression × Stmt Expression)}
    {imports : List (String × Nat)} (h : Computing p resolve r i served imports) (hunit : q.units[i]? = p.units[i]?)
    (hexports : ∀ d, d = r.name ∨ r.Calls d →
      Json.getField? q.exports (coeffName d) = Json.getField? p.exports (coeffName d)) :
    Computing q resolve r i served imports := by
  refine ⟨hunit.trans h.unit, (hexports _ (.inl rfl)).trans h.exported, h.served, fun n => ?_⟩
  rw [h.imports]
  split
  · next hn =>
    obtain ⟨d, hd, rfl⟩ := List.mem_map.1 hn
    exact (hexports d (.inr (mem_dependencies.1 hd))).symm
  · rfl

/-- The script of a recurrence that computes single values. -/
theorem script_of_generatePerValue (ho : o.target = .js) {u : GeneratedUnit}
    (h : r.generatePerValue o resolve = .ok u) : ∃ ss m, r.jsPerValue o resolve = .ok (ss, m) ∧
      u.source = .script m ∧ u.dependencies = r.dependencies.map coeffName := by
  rw [generatePerValue, ho] at h
  dsimp only at h
  obtain ⟨⟨ss, m⟩, hm, h⟩ := bind_ok h
  cases h
  exact ⟨ss, m, hm, rfl, rfl⟩

/-- The front of recurrences that go together goes together. -/
theorem Assembles.of_concat (h : Assembles resolve (rs ++ [r])) : Assembles resolve rs ∧ r.Runnable resolve ∧
    r.name ∉ rs.map (·.name) ∧ ∀ d, r.Calls d → d ∈ rs.map (·.name) := by
  obtain ⟨hfirst, hcalls⟩ := h.calleesFirst.of_concat
  have hdistinct := h.distinct
  rw [List.map_append, List.map_singleton, ← List.concat_eq_append, List.nodup_concat] at hdistinct
  exact ⟨⟨h.named, fun s hs => h.found s (List.mem_append_left _ hs), hdistinct.2, hfirst,
    fun s hs => h.runnable s (List.mem_append_left _ hs)⟩,
    h.runnable r (List.mem_append_right _ (List.mem_singleton_self r)), hdistinct.1, hcalls⟩

/-- **A program with all that a recurrence calls takes its module.** -/
theorem Linked.exists_add (hlinked : Linked p resolve rs) (h : Assembles resolve (rs ++ [r])) (ho : o.target = .js)
    {u : GeneratedUnit} (hu : r.generatePerValue o resolve = .ok u) :
    ∃ q, p.add u = .ok q ∧ Linked q resolve (rs ++ [r]) := by
  obtain ⟨hfront, hrun, hnew, hcalls⟩ := h.of_concat
  obtain ⟨ss, m, hm, hsource, hdependencies⟩ := script_of_generatePerValue ho hu
  obtain ⟨served, hread, hname, hexported, hserved⟩ := hrun.exists_valueFunctions ho hm
  have hready : ∀ d ∈ u.dependencies, (Json.getField? p.exports d).isSome := by
    rw [hdependencies, List.forall_mem_map]
    intro d hd
    obtain ⟨s, hs, rfl⟩ := List.mem_map.1 (hcalls d (mem_dependencies.1 hd))
    obtain ⟨i, served, imports, hunit⟩ := hlinked s hs
    rw [hunit.exported]
    rfl
  obtain ⟨imports, hadd, himports⟩ := Program.exists_add hsource hready hread
  rw [hexported, hname] at hadd
  -- The functions of the others are still those of their units.
  have hkept : ∀ d ∈ rs.map (·.name), Json.getField? ([coeffName r.name].foldl
      (fun es e => Json.setField es e p.units.length) p.exports) (coeffName d) =
        Json.getField? p.exports (coeffName d) := by
    intro d hd
    rw [Program.getField?_exported, if_neg]
    intro hmem
    exact hnew (coeffName_inj (List.mem_singleton.1 hmem) ▸ hd)
  refine ⟨_, hadd, List.forall_mem_append.2 ⟨fun s hs => ?_, List.forall_mem_singleton.2 ?_⟩⟩
  · obtain ⟨i, served', imports', hunit⟩ := hlinked s hs
    refine ⟨i, served', imports', hunit.mono ?_ fun d hd => hkept d ?_⟩
    · exact List.getElem?_append_left (List.getElem?_eq_some_iff.1 hunit.unit).1
    · rcases hd with rfl | hd
      · exact List.mem_map_of_mem hs
      · exact hfront.calleesFirst.closed hs d hd
  · refine ⟨p.units.length, served, imports, by simp, ?_, hserved, fun n => ?_⟩
    · rw [Program.getField?_exported, if_pos (List.mem_singleton_self _)]
    · rw [himports, hdependencies]
      split
      · next hn =>
        obtain ⟨d, hd, rfl⟩ := List.mem_map.1 hn
        exact (hkept d (hcalls d (mem_dependencies.1 hd))).symm
      · rfl

/-- **The modules of recurrences can be loaded**, and the program has them all. -/
theorem Assembles.exists_load (h : Assembles resolve rs) (ho : o.target = .js) {us : List GeneratedUnit}
    (hus : rs.mapM (·.generatePerValue o resolve) = .ok us) : ∃ p, Program.load us = .ok p ∧ Linked p resolve rs := by
  induction rs using List.reverseRecOn generalizing us with
  | nil =>
    cases hus
    exact ⟨{}, rfl, by simp [Linked]⟩
  | append_singleton rs r ih =>
    rw [List.mapM_append] at hus
    obtain ⟨front, hfront, hus⟩ := bind_ok hus
    obtain ⟨last, hlast, hus⟩ := bind_ok hus
    rw [List.mapM_cons] at hlast
    obtain ⟨u, hu, hlast⟩ := bind_ok hlast
    cases hlast
    cases hus
    obtain ⟨p, hp, hlinked⟩ := ih h.of_concat.1 hfront
    obtain ⟨q, hadd, hq⟩ := hlinked.exists_add h ho hu
    refine ⟨q, ?_, hq⟩
    have hlast : [u].foldlM Program.add p = .ok q := by
      rw [List.foldlM_cons, hadd]
      rfl
    rw [Program.load] at hp ⊢
    rw [List.foldlM_append, hp]
    exact hlast

/-- **What interpretation returns, generated code returns.** The modules of recurrences that go together are
loaded, and where interpretation has a value at a point the function of the recurrence returns it, as long as
calls may nest deep enough. -/
theorem generatePerValue_returns (h : Assembles resolve rs) (ho : o.target = .js) {us : List GeneratedUnit}
    (hus : rs.mapM (·.generatePerValue o resolve) = .ok us) : ∃ p, Program.load us = .ok p ∧
      ∀ r ∈ rs, ∃ f, (p.exported? (coeffName r.name) : Option (Value Float)) = some (.function f) ∧
        ∀ vars point, r.Passable vars point → ∀ depth x, r.interpretTo depth resolve vars point = .ok x →
          p.Returns f (pointArgs r.runtimeVars vars point) x := by
  obtain ⟨p, hp, hlinked⟩ := h.exists_load ho hus
  refine ⟨p, hp, fun r hr => ?_⟩
  obtain ⟨i, served, imports, hunit⟩ := hlinked r hr
  refine ⟨.inUnit i (coeffName r.name), by rw [Program.exported?, hunit.exported], ?_⟩
  intro vars point hpassable depth x hx
  have hresolve : resolve.Faithful r := ⟨h.named, h.found r hr⟩
  have hderivable : Derivable resolve vars r point x :=
    (interpretTo_cases hpassable.rank (simulates_interpretWithin hresolve depth (.inl rfl) hpassable.point
      (by simp [PathLeads]))).1 x hx
  exact hlinked.returns h hderivable hr hpassable hunit.exported

end

/-! ## A recurrence that calls another -/

/-- The powers of a runtime variable. -/
def powers : Except Error Recurrence := do
  let r ← create "Power" ["n"] ["x"] {}
  r.build [.base [("n", 0)] (.number 1), .rule "n > 0" "x*E[n-1]" none none]

/-- Their sums. -/
def powerSums : Except Error Recurrence := do
  let r ← create "Sum" ["n"] ["x"] {}
  r.build [.base [("n", 0)] (.number 1), .rule "n > 0" "E[n-1] + Power[n]" none none]

/-- The runtime variable is two. -/
def atTwo : RuntimeVars Float := fun v => if v == "x" then some (.scalar 2) else none

/-- At two the sum is seven, and the function of the loaded modules returns it. -/
theorem generatePerValue_returns_powerSums : ∃ a b us p f x, powers = .ok a ∧ powerSums = .ok b ∧
    b.dependencies = [a.name] ∧ Assembles (findIn [a, b]) [a, b] ∧
    [a, b].mapM (·.generatePerValue { target := .js } (findIn [a, b])) = .ok us ∧ Program.load us = .ok p ∧
    (p.exported? (coeffName b.name) : Option (Value Float)) = some (.function f) ∧ (x == 7) = true ∧
    (∃ depth, b.interpretTo depth (findIn [a, b]) atTwo [2] = .ok x) ∧
    p.Returns f (pointArgs b.runtimeVars atTwo [2]) x := by
  have hcheck : (powers.toOption.any fun a => powerSums.toOption.any fun b =>
      a.name == "Power" && b.name == "Sum" && a.dependencies.isEmpty && b.dependencies == [a.name] &&
      a.isRunnable (findIn [a, b]) && b.isRunnable (findIn [a, b]) && b.indices.length == 1 &&
      (recurse (findIn [a, b]) atTwo 4 b [(2 : Float)]).toOption.any (· == 7) &&
      ([a, b].mapM fun r : Recurrence => r.generatePerValue { target := .js } (findIn [a, b])).toOption.any
        fun _ => true) = true := by
    decide +kernel
  obtain ⟨a, ha, hcheck⟩ := exists_ok_of_any hcheck
  obtain ⟨b, hb, hcheck⟩ := exists_ok_of_any hcheck
  simp only [Bool.and_eq_true, beq_iff_eq, List.isEmpty_iff] at hcheck
  obtain ⟨⟨⟨⟨⟨⟨⟨⟨haname, hbname⟩, hanone⟩, hbcalls⟩, harun⟩, hbrun⟩, hrank⟩, hvalue⟩, hgenerate⟩ := hcheck
  obtain ⟨x, hx, hseven⟩ := exists_ok_of_any hvalue
  obtain ⟨us, hus, -⟩ := exists_ok_of_any hgenerate
  have hbalanced : a.Balanced ∧ b.Balanced := by
    obtain ⟨a', hcreate, hbuild⟩ := bind_ok ha
    obtain ⟨b', hcreate', hbuild'⟩ := bind_ok hb
    exact ⟨(Balanced.create hcreate).build (by decide) hbuild, (Balanced.create hcreate').build (by decide) hbuild'⟩
  have hfirst : CalleesFirst [a, b] := by
    refine (calleesFirst_nil.concat fun d hd => ?_).concat fun d hd => ?_
    · rw [← mem_dependencies, hanone] at hd
      cases hd
    · rw [← mem_dependencies, hbcalls] at hd
      exact hd
  have h : Assembles (findIn [a, b]) [a, b] := by
    refine assembles_findIn (by simp [haname, hbname]) hfirst ?_
    rw [List.forall_mem_cons, List.forall_mem_singleton]
    exact ⟨runnable_of_isRunnable hbalanced.1 harun, runnable_of_isRunnable hbalanced.2 hbrun⟩
  have hb' : b ∈ [a, b] := by simp
  have hpassable : b.Passable atTwo [2] := by
    refine ⟨hrank.symm, List.forall_mem_singleton.2 (by decide +kernel), fun fn => ?_, fun v _ xs hv => ?_⟩
    · cases fn <;> rfl
    · rw [atTwo] at hv
      split at hv
      · cases hv
      · cases hv
  obtain ⟨depth, hdepth⟩ := (Derivable.of_recurse hx).interpretTo_eq_ok ⟨h.named, h.found b hb'⟩
    hpassable.rank hpassable.point
  obtain ⟨p, hp, hfunctions⟩ := generatePerValue_returns h rfl hus
  obtain ⟨f, hf, hreturns⟩ := hfunctions b hb'
  exact ⟨a, b, us, p, f, x, ha, hb, hbcalls, h, hus, hp, hf, hseven, ⟨depth, hdepth⟩,
    hreturns atTwo [2] hpassable depth x hdepth⟩

end Recurrence

end RecurrenceCompiler
