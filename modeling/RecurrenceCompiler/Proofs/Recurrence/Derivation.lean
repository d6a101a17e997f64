import RecurrenceCompiler.Proofs.Decimal.Spelling
import RecurrenceCompiler.Proofs.Expr.Eval
import RecurrenceCompiler.Proofs.Joined
import RecurrenceCompiler.Recurrence.Builder
import RecurrenceCompiler.Recurrence.Interpret

/-!
# Interpretation and plain recursion

`Derivable` is recursion without a memory: the value at a point follows from the case that is
selected there and from the values of its calls. Interpretation remembers values under the text of
recurrence and point and refuses a point that is needed for its own value. Texts tell points apart
(`pointKey_inj`), so what is remembered is derived; and what has a derivation does not call itself
(`Derivable.acc`), so the refusal never hits it. Hence interpretation returns exactly what can be
derived (`interpret_eq_ok_iff`).
-/

namespace RecurrenceCompiler

open Text Decimal Arith

/-- The calls of the case that counts. -/
def Selection.calls : Selection → List Call
  | .base _ b => b.value.calls
  | .rule chosen => chosen.expr.calls
  | .primary => []

/-- Recurrences are found under their own names, and the one that is interpreted under its name if
anything is. -/
structure Resolver.Faithful (resolve : Resolver) (root : Recurrence) : Prop where
  named : ∀ t r, resolve t = some r → r.name = t
  root : ∀ r, resolve root.name = some r → r = root

namespace Recurrence

section
variable {α : Type} [Carrier α]

/-- Plain recursion: the runtime variables are given, a case is selected, each of its calls has a value
at the shifted point, and with these the case has the value. -/
inductive Derivable (resolve : Resolver) (vars : RuntimeVars α) : Recurrence → List α → α → Prop
  | intro {r : Recurrence} {point : List α} {x : α} {chosen : Selection}
      (targets : Call → Recurrence) (values : Call → α) (bound : r.checkBound vars = .ok ())
      (selected : r.select (r.pointEnv point) = .ok chosen)
      (callees : ∀ c ∈ chosen.calls, r.callee resolve c = .ok (targets c))
      (called : ∀ c ∈ chosen.calls,
        Derivable resolve vars (targets c) (shiftPoint point c) (values c))
      (value : evalSelection (r.pointScope vars point) (fun c => (.ok (values c) : Except Error α))
        chosen = .ok x) :
      Derivable resolve vars r point x

/-- The value of a case depends on its calls only. -/
theorem evalSelection_congr {m : Type → Type} [Monad m] [MonadExceptOf Error m] {s : Scope α}
    {call call' : Call → m α} {chosen : Selection}
    (h : ∀ c ∈ chosen.calls, call c = call' c) :
    evalSelection s call chosen = evalSelection s call' chosen := by
  cases chosen with
  | base i b => exact Expr.eval_congr _ h
  | rule ρ => exact Expr.eval_congr _ h
  | primary => rfl

/-- A case has a value only if its calls have. -/
theorem exists_ok_of_evalSelection {s : Scope α} {call : Call → Except Error α} {chosen : Selection}
    {x : α} (h : evalSelection s call chosen = .ok x) : ∀ c ∈ chosen.calls, ∃ v, call c = .ok v := by
  cases chosen with
  | base i b => exact b.value.needsCalls h
  | rule ρ => exact ρ.expr.needsCalls h
  | primary => nofun

variable {resolve : Resolver} {vars : RuntimeVars α} {r : Recurrence} {point : List α}

/-- A point has one value. -/
theorem Derivable.unique {x y : α} (hx : Derivable resolve vars r point x)
    (hy : Derivable resolve vars r point y) : x = y := by
  induction hx generalizing y with
  | @intro r point x chosen targets values bound selected callees called value ih =>
    obtain ⟨targets', values', -, selected', callees', called', value'⟩ := hy
    obtain rfl := Except.ok.inj (selected.symm.trans selected')
    have hvalues : ∀ c ∈ chosen.calls, values c = values' c := by
      intro c hc
      refine ih c hc ?_
      rw [Except.ok.inj ((callees c hc).symm.trans (callees' c hc))]
      exact called' c hc
    rw [evalSelection_congr fun c hc => congrArg Except.ok (hvalues c hc), value'] at value
    exact (Except.ok.inj value).symm

open Classical in
/-- The value at a point, if it has one. -/
noncomputable def derived (resolve : Resolver) (vars : RuntimeVars α) (r : Recurrence)
    (point : List α) : Except Error α :=
  if h : ∃ x, Derivable resolve vars r point x then .ok h.choose else .error (.fault .tooDeep)

theorem derived_eq_ok_iff {x : α} :
    derived resolve vars r point = .ok x ↔ Derivable resolve vars r point x := by
  rw [derived]
  split
  · next h =>
    rw [Except.ok.injEq]
    exact ⟨fun heq => heq ▸ h.choose_spec, fun hx => h.choose_spec.unique hx⟩
  · next h => exact ⟨nofun, fun hx => absurd ⟨x, hx⟩ h⟩

/-- One step of recursion derives a value if the values of its calls are derived. -/
theorem Derivable.of_step {value : Recurrence → List α → Except Error α} {x : α}
    (hderived : ∀ target point' v, value target point' = .ok v →
      Derivable resolve vars target point' v)
    (h : (do
      r.checkBound vars
      let chosen ← r.select (r.pointEnv point)
      evalSelection (r.pointScope vars point) (fun c => do
        let target ← r.callee resolve c
        value target (shiftPoint point c)) chosen) = .ok x) :
    Derivable resolve vars r point x := by
  obtain ⟨⟨⟩, bound, h⟩ := bind_ok h
  obtain ⟨chosen, selected, hx⟩ := bind_ok h
  have hcalls : ∀ c ∈ chosen.calls, ∃ target v, r.callee resolve c = .ok target ∧
      value target (shiftPoint point c) = .ok v := by
    intro c hc
    obtain ⟨v, hv⟩ := exists_ok_of_evalSelection hx c hc
    obtain ⟨target, htarget, hv⟩ := bind_ok hv
    exact ⟨target, v, htarget, hv⟩
  have : Nonempty Recurrence := ⟨r⟩
  have : Nonempty α := ⟨x⟩
  choose! targets values hcallee hvalue using hcalls
  refine .intro targets values bound selected hcallee
    (fun c hc => hderived _ _ _ (hvalue c hc)) ?_
  rw [← hx]
  refine evalSelection_congr fun c hc => ?_
  rw [hcallee c hc]
  exact (hvalue c hc).symm

/-- Plain recursion to a depth, which can be run. -/
def recurse (resolve : Resolver) (vars : RuntimeVars α) :
    Nat → Recurrence → List α → Except Error α
  | 0, _, _ => .error (.fault .tooDeep)
  | depth + 1, r, point => do
    r.checkBound vars
    let chosen ← r.select (r.pointEnv point)
    evalSelection (r.pointScope vars point) (fun c => do
      let target ← r.callee resolve c
      recurse resolve vars depth target (shiftPoint point c)) chosen

/-- **What plain recursion returns is derived.** -/
theorem Derivable.of_recurse {depth : Nat} {x : α}
    (h : recurse resolve vars depth r point = .ok x) : Derivable resolve vars r point x := by
  induction depth generalizing r point x with
  | zero => cases h
  | succ depth ih => exact .of_step (fun _ _ _ => ih) h

/-- One step of plain recursion, where the calls have the values that can be derived. -/
noncomputable def derivedStep (resolve : Resolver) (vars : RuntimeVars α) (r : Recurrence)
    (point : List α) : Except Error α := do
  r.checkBound vars
  let chosen ← r.select (r.pointEnv point)
  evalSelection (r.pointScope vars point) (fun c => do
    let target ← r.callee resolve c
    derived resolve vars target (shiftPoint point c)) chosen

/-- **A value can be derived if one more step gives it.** -/
theorem derivedStep_eq_ok_iff {x : α} :
    derivedStep resolve vars r point = .ok x ↔ Derivable resolve vars r point x := by
  constructor
  · exact .of_step fun _ _ _ => derived_eq_ok_iff.1
  · rintro ⟨targets, values, bound, selected, callees, called, value⟩
    rw [derivedStep, bound]
    change (r.select (r.pointEnv point) >>= _) = _
    rw [selected, ← value]
    refine evalSelection_congr fun c hc => ?_
    rw [callees c hc]
    exact derived_eq_ok_iff.2 (called c hc)

/-! ## Points that call each other -/

/-- The case that is selected at one point calls the other. -/
def CallsPoint (resolve : Resolver) (p q : Recurrence × List α) : Prop :=
  ∃ chosen, p.1.select (p.1.pointEnv p.2) = .ok chosen ∧
    ∃ c ∈ chosen.calls, p.1.callee resolve c = .ok q.1 ∧ q.2 = shiftPoint p.2 c

/-- **A derivation ends**: no chain of calls from a point with a value goes on for ever. -/
theorem Derivable.acc {x : α} (h : Derivable resolve vars r point x) :
    Acc (fun q p => CallsPoint resolve p q) (r, point) := by
  induction h with
  | @intro r point x chosen targets values bound selected callees called value ih =>
    refine .intro _ ?_
    rintro ⟨r', point'⟩ ⟨chosen', selected', c, hc, hcallee, hpoint⟩
    obtain rfl := Except.ok.inj (selected.symm.trans selected')
    obtain rfl : point' = shiftPoint point c := hpoint
    obtain rfl : targets c = r' := Except.ok.inj ((callees c hc).symm.trans hcallee)
    exact ih c hc

/-- A point with a value does not call itself, directly or through others. -/
theorem Derivable.not_calls_self {x : α} (h : Derivable resolve vars r point x) :
    ¬ Relation.TransGen (CallsPoint resolve) (r, point) (r, point) := by
  intro hcycle
  have hcycle := Relation.transGen_swap.2 hcycle
  have hacc := h.acc.transGen
  generalize (r, point) = p at hcycle hacc
  induction hacc with
  | intro p _ ih => exact ih p hcycle hcycle

end

/-! ## Texts of points -/

/-- No coordinate is negative zero, which is written like zero. -/
def NoNegativeZero (point : List Float) : Prop :=
  ∀ x ∈ point, isNegativeZero x = false

/-- Shifting brings no negative zero. -/
theorem NoNegativeZero.shiftPoint {point : List Float} (h : NoNegativeZero point) (c : Call) :
    NoNegativeZero (shiftPoint point c) := by
  intro y hy
  obtain ⟨⟨x, slot⟩, hx, rfl⟩ := List.mem_map.1 hy
  exact isNegativeZero_add (h x (List.fst_mem_of_mem_zipIdx hx))

theorem map_numberChars_inj {point point' : List Float} (hpoint : NoNegativeZero point)
    (hpoint' : NoNegativeZero point') (h : point.map numberChars = point'.map numberChars) :
    point = point' := by
  induction point generalizing point' with
  | nil => exact (List.map_eq_nil_iff.1 h.symm).symm
  | cons x point ih =>
    cases point' with
    | nil => cases h
    | cons y point' =>
      obtain ⟨hx, hpoint⟩ := List.forall_mem_cons.1 hpoint
      obtain ⟨hy, hpoint'⟩ := List.forall_mem_cons.1 hpoint'
      obtain ⟨hxy, h⟩ := List.cons.inj h
      rw [numberChars_inj hx hy hxy, ih hpoint hpoint' h]

/-- **Recurrences and points are told apart by their texts.** -/
theorem pointKey_inj {r r' : Recurrence} {point point' : List Float} (hpoint : NoNegativeZero point)
    (hpoint' : NoNegativeZero point') (h : r.pointKey point = r'.pointKey point') :
    r.name = r'.name ∧ point = point' := by
  have hkey (r : Recurrence) (point : List Float) : (r.pointKey point).toList =
      r.name.toList ++ '[' :: ([','].intercalate (point.map numberChars) ++ [']']) := by
    simp [pointKey, String.toList_intercalate, Carrier.text, numberText, Function.comp_def]
  have hjoint (x : Float) : ∀ c ∈ numberChars x, isJoint c = false := (spells_numberChars x).not_isJoint
  -- The bracket before the coordinates is the last one, and commas stand between them only.
  have hbracket (point : List Float) :
      '[' ∉ [','].intercalate (point.map numberChars) ++ [']'] := by
    intro hmem
    rcases List.mem_append.1 hmem with hmem | hmem
    · rcases mem_intercalate hmem with hcomma | ⟨l, hl, hmem⟩
      · simp at hcomma
      · obtain ⟨x, -, rfl⟩ := List.mem_map.1 hl
        cases hjoint x _ hmem
    · simp at hmem
  have hparts (point : List Float) : ∀ l ∈ point.map numberChars, l ≠ [] ∧ ',' ∉ l := by
    intro l hl
    obtain ⟨x, -, rfl⟩ := List.mem_map.1 hl
    exact ⟨(spells_numberChars x).ne_nil, fun hmem => by cases hjoint x _ hmem⟩
  have h := congrArg String.toList h
  rw [hkey, hkey] at h
  obtain ⟨hname, hbody⟩ := append_cons_inj_last (hbracket point) (hbracket point') h
  have htexts := intercalate_inj (hparts point) (hparts point') (List.append_cancel_right hbody)
  exact ⟨String.toList_injective hname, map_numberChars_inj hpoint hpoint' htexts⟩

/-! ## Interpretation -/

section
variable {resolve : Resolver} {vars : RuntimeVars Float} {root r : Recurrence} {point : List Float}

/-- The recurrence that is interpreted, or one that is found. -/
def Known (resolve : Resolver) (root r : Recurrence) : Prop :=
  r = root ∨ resolve r.name = some r

theorem Known.eq_of_name (hresolve : resolve.Faithful root) {r' : Recurrence}
    (h : Known resolve root r) (h' : Known resolve root r') (hname : r.name = r'.name) : r = r' := by
  rcases h with rfl | h
  · rcases h' with rfl | h'
    · rfl
    · rw [← hname] at h'
      exact (hresolve.root _ h').symm
  · rcases h' with rfl | h'
    · rw [hname] at h
      exact hresolve.root _ h
    · rw [hname, h'] at h
      exact (Option.some.inj h).symm

theorem Known.callee (hresolve : resolve.Faithful root) (h : Known resolve root r) {c : Call}
    {target : Recurrence} (hc : r.callee resolve c = .ok target) : Known resolve root target := by
  rw [Recurrence.callee] at hc
  split at hc
  · cases hc
    exact h
  · next t _ =>
    split at hc
    · next r' hr' =>
      cases hc
      rw [Known, hresolve.named t _ hr']
      exact .inr hr'
    · cases hc

/-- What is remembered has been derived. -/
def MemoDerived (resolve : Resolver) (vars : RuntimeVars Float) (root : Recurrence)
    (memo : Memo Float) : Prop :=
  ∀ r point v, Known resolve root r → NoNegativeZero point → memo[r.pointKey point]? = some v →
    Derivable resolve vars r point v

/-- The points whose values are being computed lead to the next one. -/
def PathLeads (resolve : Resolver) (root : Recurrence) (path : List String) (r : Recurrence)
    (point : List Float) : Prop :=
  ∀ key ∈ path, ∃ r' point', Known resolve root r' ∧ NoNegativeZero point' ∧
    key = r'.pointKey point' ∧
    Relation.TransGen (CallsPoint resolve) (r', point') (r, point)

/-- A case is simulated if its calls are. -/
theorem simulates_evalSelection {σ α : Type} [Carrier α] {Inv : σ → Prop} {Deep : Prop} {s : Scope α}
    {call : Call → StateT σ (Except Error) α} {call' : Call → Except Error α} {chosen : Selection}
    (h : ∀ c ∈ chosen.calls, Simulates Inv Deep (call c) (call' c)) :
    Simulates Inv Deep (evalSelection s call chosen) (evalSelection s call' chosen) := by
  cases chosen with
  | base i b => exact Expr.simulates_eval _ h
  | rule ρ => exact Expr.simulates_eval _ h
  | primary => exact .pure _

/-- A derived value may be remembered. -/
theorem MemoDerived.insert (hresolve : resolve.Faithful root) {memo : Memo Float}
    (h : MemoDerived resolve vars root memo) (hr : Known resolve root r)
    (hpoint : NoNegativeZero point) {v : Float} (hv : Derivable resolve vars r point v) :
    MemoDerived resolve vars root (memo.insert (r.pointKey point) v) := by
  intro r' point' v' hr' hpoint' hget
  rw [Std.HashMap.getElem?_insert] at hget
  split at hget
  · next hkey =>
    obtain ⟨hname, rfl⟩ := pointKey_inj hpoint hpoint' (beq_iff_eq.1 hkey)
    obtain rfl := hr.eq_of_name hresolve hr' hname
    cases hget
    exact hv
  · exact h r' point' v' hr' hpoint' hget

/-- A point on the path has no value: it would call itself. -/
theorem PathLeads.not_derivable (hresolve : resolve.Faithful root) {path : List String}
    (h : PathLeads resolve root path r point) (hr : Known resolve root r)
    (hpoint : NoNegativeZero point) (hmem : r.pointKey point ∈ path) {x : Float} :
    ¬ Derivable resolve vars r point x := by
  intro hx
  obtain ⟨r', point', hr', hpoint', hkey, hleads⟩ := h _ hmem
  obtain ⟨hname, rfl⟩ := pointKey_inj hpoint hpoint' hkey
  obtain rfl := hr.eq_of_name hresolve hr' hname
  exact hx.not_calls_self hleads

/-- The next point is led to as well. -/
theorem PathLeads.cons {path : List String} (h : PathLeads resolve root path r point)
    (hr : Known resolve root r) (hpoint : NoNegativeZero point) {target : Recurrence}
    {point' : List Float} (hcall : CallsPoint resolve (r, point) (target, point')) :
    PathLeads resolve root (r.pointKey point :: path) target point' := by
  refine List.forall_mem_cons.2 ⟨⟨r, point, hr, hpoint, rfl, .single hcall⟩, fun key hkey => ?_⟩
  obtain ⟨r', point'', hr', hpoint'', hkey, hleads⟩ := h key hkey
  exact ⟨r', point'', hr', hpoint'', hkey, hleads.tail hcall⟩

/-- A step of interpretation agrees with plain recursion if the calls do. -/
theorem simulates_step (hresolve : resolve.Faithful root) {Deep : Prop} {fuel : Nat}
    {path : List String} (hr : Known resolve root r) (hpoint : NoNegativeZero point)
    (hpath : PathLeads resolve root path r point)
    (hcalls : ∀ target point', CallsPoint resolve (r, point) (target, point') →
      Known resolve root target → NoNegativeZero point' →
      PathLeads resolve root (r.pointKey point :: path) target point' →
      Simulates (MemoDerived resolve vars root) Deep
        (interpretWithin resolve vars fuel (r.pointKey point :: path) target point')
        (derived resolve vars target point')) :
    Simulates (MemoDerived resolve vars root) Deep
      (interpretWithin resolve vars (fuel + 1) path r point) (derived resolve vars r point) := by
  -- Selecting the case, evaluating it and remembering its value is a step of plain recursion.
  have hbody : Simulates (MemoDerived resolve vars root) Deep
      (do
        orThrow (r.checkBound vars)
        let chosen ← orThrow (r.select (r.pointEnv point))
        let v ← evalSelection (r.pointScope vars point) (fun c => do
          let target ← orThrow (r.callee resolve c)
          interpretWithin resolve vars fuel (r.pointKey point :: path) target (shiftPoint point c))
          chosen
        modify (·.insert (r.pointKey point) v)
        return v) (derived resolve vars r point) := by
    have hcall (chosen : Selection) (hchosen : r.select (r.pointEnv point) = .ok chosen) :
        ∀ c ∈ chosen.calls, Simulates (MemoDerived resolve vars root) Deep
          (do
            let target ← orThrow (r.callee resolve c)
            interpretWithin resolve vars fuel (r.pointKey point :: path) target (shiftPoint point c))
          (do
            let target ← r.callee resolve c
            derived resolve vars target (shiftPoint point c)) := by
      intro c hc
      refine (Simulates.orThrow _).bind fun target htarget => ?_
      have hcall : CallsPoint resolve (r, point) (target, shiftPoint point c) :=
        ⟨chosen, hchosen, c, hc, htarget, rfl⟩
      exact hcalls target _ hcall (hr.callee hresolve htarget) (hpoint.shiftPoint c)
        (hpath.cons hr hpoint hcall)
    have hremember (v : Float) (hv : Derivable resolve vars r point v) :
        Simulates (MemoDerived resolve vars root) Deep
          (do
            modify (·.insert (r.pointKey point) v)
            return v) (.ok v) := by
      refine fun memo hmemo => ⟨fun b memo' hrun => ?_, fun b hb => ?_⟩
      · cases hrun
        exact ⟨rfl, hmemo.insert hresolve hr hpoint hv⟩
      · cases hb
        exact .inl ⟨_, rfl⟩
    have hstep : Simulates (MemoDerived resolve vars root) Deep _ (derivedStep resolve vars r point) :=
      (Simulates.orThrow _).bind fun u hu => (Simulates.orThrow _).bind fun chosen hchosen =>
        (simulates_evalSelection (hcall chosen hchosen)).followed fun v hv => hremember v (by
          rw [← derivedStep_eq_ok_iff, derivedStep, hu]
          change (r.select (r.pointEnv point) >>= _) = _
          rw [hchosen]
          exact hv)
    exact hstep.congr fun b => derivedStep_eq_ok_iff.trans derived_eq_ok_iff.symm
  intro memo hmemo
  rw [interpretWithin]
  simp only [StateT.run_bind, StateT.run_get, pure_bind]
  cases hget : memo[r.pointKey point]? with
  | some v =>
    have hv := derived_eq_ok_iff.2 (hmemo r point v hr hpoint hget)
    refine ⟨fun b memo' hrun => ?_, fun b hb => .inl ⟨memo, ?_⟩⟩
    · cases hrun
      exact ⟨hv, hmemo⟩
    · rw [Except.ok.inj (hb.symm.trans hv)]
      rfl
  | none =>
    dsimp only
    split
    · next hmem =>
      refine ⟨fun b memo' hrun => (nomatch hrun), fun b hb => ?_⟩
      exact absurd (derived_eq_ok_iff.1 hb)
        (hpath.not_derivable hresolve hr hpoint (List.contains_iff_mem.1 hmem))
    · exact hbody memo hmemo

/-- **Interpretation agrees with plain recursion**, as long as it does not run out of depth. -/
theorem simulates_interpretWithin (hresolve : resolve.Faithful root) (fuel : Nat) {path : List String}
    (hr : Known resolve root r) (hpoint : NoNegativeZero point)
    (hpath : PathLeads resolve root path r point) :
    Simulates (MemoDerived resolve vars root) True (interpretWithin resolve vars fuel path r point)
      (derived resolve vars r point) := by
  induction fuel generalizing path r point with
  | zero => exact fun memo _ => ⟨nofun, fun _ _ => .inr ⟨trivial, rfl⟩⟩
  | succ fuel ih =>
    exact simulates_step hresolve hr hpoint hpath fun target point' _ hr' hpoint' hpath' =>
      ih hr' hpoint' hpath'

/-- **A derivation needs a certain depth**, and with it interpretation does not stop before. -/
theorem Derivable.exists_depth (hresolve : resolve.Faithful root) {x : Float}
    (h : Derivable resolve vars r point x) (hr : Known resolve root r)
    (hpoint : NoNegativeZero point) : ∃ depth, ∀ fuel ≥ depth, ∀ path,
      PathLeads resolve root path r point → Simulates (MemoDerived resolve vars root) False
        (interpretWithin resolve vars fuel path r point) (derived resolve vars r point) := by
  induction h with
  | @intro r point x chosen targets values bound selected callees called value ih =>
    have hcalls : ∀ c ∈ chosen.calls, ∃ depth, ∀ fuel ≥ depth, ∀ path,
        PathLeads resolve root path (targets c) (shiftPoint point c) →
        Simulates (MemoDerived resolve vars root) False
          (interpretWithin resolve vars fuel path (targets c) (shiftPoint point c))
          (derived resolve vars (targets c) (shiftPoint point c)) := fun c hc =>
      ih c hc (hr.callee hresolve (callees c hc)) (hpoint.shiftPoint c)
    choose! depth hdepth using hcalls
    refine ⟨(chosen.calls.map depth).sum + 1, fun fuel hfuel path hpath => ?_⟩
    obtain ⟨fuel, rfl⟩ : ∃ n, fuel = n + 1 := ⟨fuel - 1, by omega⟩
    refine simulates_step hresolve hr hpoint hpath ?_
    rintro target point' ⟨chosen', selected', c, hc, htarget, hpoint'⟩ - - hpath'
    obtain rfl := Except.ok.inj (selected.symm.trans selected')
    obtain rfl : point' = shiftPoint point c := hpoint'
    obtain rfl : targets c = target := Except.ok.inj ((callees c hc).symm.trans htarget)
    have hle : depth c ≤ (chosen.calls.map depth).sum :=
      List.single_le_sum (by simp) _ (List.mem_map_of_mem hc)
    exact hdepth c hc fuel (by omega) _ hpath'

/-- Nothing is remembered at first. -/
theorem memoDerived_empty : MemoDerived resolve vars root {} := by
  intro r point v _ _ hget
  simp at hget

/-- What interpretation to a depth returns, from what it simulates. -/
theorem interpretTo_cases {Deep : Prop} {depth : Nat} (hrank : point.length = root.indices.length)
    (h : Simulates (MemoDerived resolve vars root) Deep
      (interpretWithin resolve vars depth [] root point) (derived resolve vars root point)) :
    (∀ x, root.interpretTo depth resolve vars point = .ok x → Derivable resolve vars root point x) ∧
      ∀ x, Derivable resolve vars root point x → root.interpretTo depth resolve vars point = .ok x ∨
        Deep ∧ root.interpretTo depth resolve vars point = .error (.fault .tooDeep) := by
  obtain ⟨hsound, hcomplete⟩ := h {} memoDerived_empty
  rw [interpretTo, if_pos (by simpa using hrank), StateT.run'_eq]
  constructor
  · intro x hx
    cases hrun : (interpretWithin resolve vars depth [] root point).run {} with
    | error e =>
      rw [hrun] at hx
      cases hx
    | ok p =>
      rw [hrun] at hx
      cases hx
      exact derived_eq_ok_iff.1 (hsound _ _ hrun).1
  · intro x hx
    rcases hcomplete x (derived_eq_ok_iff.2 hx) with ⟨memo, hrun⟩ | ⟨hdeep, hrun⟩
    · rw [hrun]
      exact .inl rfl
    · rw [hrun]
      exact .inr ⟨hdeep, rfl⟩

/-- What can be derived is returned where the depth of calls is not limited. -/
theorem Derivable.interpretTo_eq_ok (hresolve : resolve.Faithful root) {x : Float}
    (h : Derivable resolve vars root point x) (hrank : point.length = root.indices.length)
    (hpoint : NoNegativeZero point) :
    ∃ depth, root.interpretTo depth resolve vars point = .ok x := by
  obtain ⟨depth, hdepth⟩ := h.exists_depth hresolve (.inl rfl) hpoint
  have hcases := interpretTo_cases hrank (hdepth depth le_rfl [] nofun)
  exact ⟨depth, (hcases.2 x h).resolve_right fun hdeep => hdeep.1⟩

/-- **Interpretation returns exactly what plain recursion derives**, where the depth of calls is not
limited; up to the limit it returns the derived value or runs out of depth. A point that is said to
depend on itself has no derivation. -/
theorem interpret_eq_ok_iff (hresolve : resolve.Faithful root) (vars : RuntimeVars Float)
    {indices : List Int} (hrank : indices.length = root.indices.length) :
    (∀ x, (∃ depth, root.interpretTo depth resolve vars (indices.map ofInt) = .ok x) ↔
      Derivable resolve vars root (indices.map ofInt) x) ∧
    (∀ x, root.interpret resolve vars (indices.map ofInt) = .ok x →
      Derivable resolve vars root (indices.map ofInt) x) ∧
    (∀ x, Derivable resolve vars root (indices.map ofInt) x →
      root.interpret resolve vars (indices.map ofInt) = .ok x ∨
        root.interpret resolve vars (indices.map ofInt) = .error (.fault .tooDeep)) ∧
    ∀ depth key, root.interpretTo depth resolve vars (indices.map ofInt) =
        .error (.evaluation (.dependsOnItself key)) →
      ¬ ∃ x, Derivable resolve vars root (indices.map ofInt) x := by
  have hpoint : NoNegativeZero (indices.map ofInt) := by
    intro x hx
    obtain ⟨i, -, rfl⟩ := List.mem_map.1 hx
    exact isNegativeZero_ofInt i
  have hrank : (indices.map ofInt).length = root.indices.length := by rwa [List.length_map]
  have hpath : PathLeads resolve root [] root (indices.map ofInt) := nofun
  have hsimulates (depth : Nat) : Simulates (MemoDerived resolve vars root) True
      (interpretWithin resolve vars depth [] root (indices.map ofInt))
      (derived resolve vars root (indices.map ofInt)) :=
    simulates_interpretWithin hresolve depth (.inl rfl) hpoint hpath
  have hto (depth : Nat) := interpretTo_cases hrank (hsimulates depth)
  refine ⟨fun x => ⟨fun ⟨depth, hx⟩ => (hto depth).1 x hx, fun hx => ?_⟩, (hto depthLimit).1,
    fun x hx => ((hto depthLimit).2 x hx).imp_right And.right, ?_⟩
  · exact hx.interpretTo_eq_ok hresolve hrank hpoint
  · rintro depth key herror ⟨x, hx⟩
    rcases (hto depth).2 x hx with h | ⟨-, h⟩
    · cases herror.symm.trans h
    · cases herror.symm.trans h

end

/-- A recurrence with one index that calls itself. -/
def doubling : Except Error Recurrence := do
  let r ← create "Power" ["n"] [] {}
  r.build [.base [("n", 0)] (.number 1), .rule "n > 0" "2*E[n-1]" none none]

/-- At one the value is derived through a call, and interpretation returns it. -/
theorem interpret_eq_ok_iff_doubling : ∃ r x, doubling = .ok r ∧
    Resolver.Faithful (fun _ => none) r ∧ [(1 : Int)].length = r.indices.length ∧
    (x == 2) = true ∧ Derivable (fun _ => none) (fun _ => none) r ([(1 : Int)].map ofInt) x ∧
    ∃ depth, r.interpretTo depth (fun _ => none) (fun _ => none) ([(1 : Int)].map ofInt) = .ok x := by
  have hcheck : (doubling.toOption.any fun r => decide ([(1 : Int)].length = r.indices.length) &&
      (recurse (fun _ => none) (fun _ => (none : Option (RuntimeValue Float))) 2 r
        ([(1 : Int)].map ofInt)).toOption.any (· == 2)) = true := by
    decide +kernel
  obtain ⟨r, hrun, hcheck⟩ := exists_ok_of_any hcheck
  obtain ⟨hrank, hcheck⟩ := Bool.and_eq_true_iff.1 hcheck
  have hrank := of_decide_eq_true hrank
  obtain ⟨x, hx, htwo⟩ := exists_ok_of_any hcheck
  have hresolve : Resolver.Faithful (fun _ => none) r := ⟨nofun, nofun⟩
  have hderivable := Derivable.of_recurse hx
  exact ⟨r, x, hrun, hresolve, hrank, htwo, hderivable,
    ((interpret_eq_ok_iff hresolve _ hrank).1 x).2 hderivable⟩

end Recurrence

end RecurrenceCompiler
