import RecurrenceCompiler.Proofs.Catalog.Generation
import RecurrenceCompiler.Proofs.Recurrence.Derivation
import RecurrenceCompiler.Proofs.Recurrence.Selection
import RecurrenceCompiler.Proofs.Recurrence.Shape

/-!
# Errors about calls

Interpretation goes wrong about a call in two ways: the target is not found, or it is evaluated at a
point with another number of coordinates than it has indices. Nobody looks at the second below the
outermost point, so `interpretRanked` is interpretation with a look at every nested evaluation.

Nothing else in a step of interpretation goes wrong about a call (`callsWell_step`): arithmetic, the
choice of a case and the entries of tables fail with errors of their own. A set of points that calls do
not leave (`CallsKept`) is one where interpretation never goes wrong about a call, by induction on the
depth.

Validation walks the rules of each entry and looks at every cross call once. Interpretation meets the
calls of the cases that it selects, and these are calls of rules: base values make none
(`exists_rule_of_mem_calls`). So in a catalog without problems every call finds an entry with as many
indices as the caller has (`callee_of_valid`), a call shifts a point without changing its length, and
the entries with points of their rank are never left (`callsKept_of_valid`).
-/

namespace RecurrenceCompiler

open Arith

/-- Errors about a call: its target is not found, or has another number of indices. -/
def Error.IsBadCall : Error → Prop
  | .evaluation (.callsUnknown _ _) => True
  | .evaluation (.wrongRank _ _ _) => True
  | _ => False

/-- A result that is no error about a call. -/
def CallsWell {β : Type} (x : Except Error β) : Prop :=
  ∀ e, x = .error e → ¬e.IsBadCall

section
variable {β γ : Type}

theorem callsWell_ok (b : β) : CallsWell (.ok b) := nofun

theorem callsWell_error {e : Error} (h : ¬e.IsBadCall) : CallsWell (.error e : Except Error β) := by
  rintro _ ⟨⟩
  exact h

theorem CallsWell.bind {x : Except Error β} {f : β → Except Error γ} (hx : CallsWell x)
    (hf : ∀ b, x = .ok b → CallsWell (f b)) : CallsWell (x >>= f) := by
  intro e h
  obtain h | ⟨b, hb, h⟩ := bind_error h
  · exact hx e h
  · exact hf b hb e h

/-- A computation with a state that ends in no error about a call, wherever it starts. -/
def CallsWellIn {σ : Type} (f : StateT σ (Except Error) β) : Prop :=
  ∀ s, CallsWell (f.run s)

variable {σ : Type}

theorem CallsWellIn.pure (b : β) : CallsWellIn (pure b : StateT σ (Except Error) β) :=
  fun _ => callsWell_ok _

theorem CallsWellIn.bind {f : StateT σ (Except Error) β} {f' : β → StateT σ (Except Error) γ}
    (hf : CallsWellIn f) (hf' : ∀ b, CallsWellIn (f' b)) : CallsWellIn (f >>= f') :=
  fun s => (hf s).bind fun p _ => hf' p.1 p.2

/-- A plain result and what is made of it. -/
theorem CallsWellIn.orThrow_bind {x : Except Error β} {f : β → StateT σ (Except Error) γ}
    (hx : CallsWell x) (hf : ∀ b, x = .ok b → CallsWellIn (f b)) :
    CallsWellIn (orThrow x >>= f) := by
  cases x with
  | ok b => exact hf b rfl
  | error e => exact fun s => callsWell_error (hx e rfl)

theorem CallsWellIn.orThrow {x : Except Error β} (hx : CallsWell x) :
    CallsWellIn (orThrow x : StateT σ (Except Error) β) := by
  cases x with
  | ok b => exact .pure b
  | error e => exact fun s => callsWell_error (hx e rfl)

end

/-! ## Arithmetic, guards and leaves -/

section
variable {α : Type} [Carrier α] {env : Env α}

theorem callsWell_eval (t : String) : CallsWell (eval env t) := by
  have htokens : CallsWell (tokenize t) := by
    rw [tokenize]
    split
    · exact callsWell_ok _
    · exact callsWell_error id
  refine htokens.bind fun ts _ => ?_
  cases evalTokens env ts with
  | ok v => exact callsWell_ok v
  | error f => cases f <;> exact callsWell_error id

theorem callsWell_evalIndex (t : String) : CallsWell (evalIndex env t) := by
  refine (callsWell_eval t).bind fun v _ => ?_
  split
  · exact callsWell_ok v
  · exact callsWell_error id

theorem Constraint.callsWell_holds (c : Constraint) : CallsWell (c.holds env) :=
  (callsWell_eval c.left).bind fun _ _ => (callsWell_eval c.right).bind fun _ _ => callsWell_ok _

theorem Guard.callsWell_holds (g : Guard) : CallsWell (g.holds env) := by
  obtain ⟨cs⟩ := g
  change CallsWell (allHold env cs)
  induction cs with
  | nil => exact callsWell_ok true
  | cons c cs ih =>
    refine c.callsWell_holds.bind fun b _ => ?_
    cases b with
    | true => exact ih
    | false => exact callsWell_ok false

theorem Expr.LeafResult.callsWell {s : Scope α} {x : Except Error α} (h : LeafResult s x) :
    CallsWell x := by
  cases h with
  | text t => exact callsWell_eval t
  | lookup table index =>
    rw [evalLookup]
    split
    · exact callsWell_error id
    · refine (callsWell_evalIndex index).bind fun i _ => ?_
      split
      · exact callsWell_ok _
      · exact callsWell_error id
  | ref n =>
    rw [evalRef]
    split
    · exact callsWell_ok _
    · exact callsWell_error id

end

namespace Recurrence

section
variable {α : Type} [Carrier α] {env : Env α} {r : Recurrence} {resolve : Resolver}
  {vars : RuntimeVars α} {point : List α} {path : List String}

/-! ## The choice of a case -/

omit [Carrier α] in
theorem callsWell_checkBound (r : Recurrence) (vars : RuntimeVars α) :
    CallsWell (r.checkBound vars) := by
  rw [checkBound]
  split
  · exact callsWell_error id
  · exact callsWell_ok ()

theorem callsWell_matchesBase (b : BaseCase) : CallsWell (r.matchesBase env b) := by
  refine (Guard.callsWell_holds _).bind fun h _ => ?_
  dsimp only
  split
  · exact callsWell_error id
  · exact callsWell_ok h

theorem callsWell_selectBase (i : Nat) (bases : List BaseCase) :
    CallsWell (r.selectBase env i bases) := by
  induction bases generalizing i with
  | nil => exact callsWell_ok none
  | cons b bases ih =>
    refine (callsWell_matchesBase b).bind fun m _ => ?_
    cases m with
    | true => exact callsWell_ok _
    | false => exact ih (i + 1)

theorem callsWell_selectRule (rules : List Rule) : CallsWell (r.selectRule env rules) := by
  induction rules with
  | nil => exact callsWell_ok none
  | cons rule rules ih =>
    refine (Guard.callsWell_holds _).bind fun h _ => ?_
    cases h with
    | true => exact callsWell_ok _
    | false => exact ih

theorem callsWell_select (r : Recurrence) (env : Env α) : CallsWell (r.select env) := by
  refine (callsWell_selectBase 0 r.bases).bind fun b _ => ?_
  cases b with
  | some p => exact callsWell_ok _
  | none =>
    refine (callsWell_selectRule r.sortedRules).bind fun o _ => ?_
    cases o with
    | some rule => exact callsWell_ok _
    | none => exact callsWell_ok _

/-! ## A step of interpretation -/

/-- One step of interpretation, whose nested evaluations are given. -/
def interpretStep (resolve : Resolver) (vars : RuntimeVars α)
    (nested : List String → Recurrence → List α → StateT (Memo α) (Except Error) α)
    (path : List String) (r : Recurrence) (point : List α) : StateT (Memo α) (Except Error) α := do
  let key := r.pointKey point
  let memo ← get
  match memo[key]? with
  | some v => return v
  | none =>
    if path.contains key then throw (.evaluation (.dependsOnItself key))
    orThrow (r.checkBound vars)
    let chosen ← orThrow (r.select (r.pointEnv point))
    let v ← evalSelection (r.pointScope vars point) (fun c => do
      let target ← orThrow (r.callee resolve c)
      nested (key :: path) target (shiftPoint point c)) chosen
    modify (·.insert key v)
    return v

/-- An evaluation at a point that must have a coordinate for each index. -/
def atRank (evaluate : Recurrence → List α → StateT (Memo α) (Except Error) α) (r : Recurrence)
    (point : List α) : StateT (Memo α) (Except Error) α :=
  if point.length == r.indices.length then evaluate r point
  else throw (.evaluation (.wrongRank r.name r.indices.length point.length))

/-- Interpretation that looks at the number of coordinates in every nested evaluation. -/
def rankedWithin (resolve : Resolver) (vars : RuntimeVars α) :
    Nat → List String → Recurrence → List α → StateT (Memo α) (Except Error) α
  | 0, _, _, _ => throw (.fault .tooDeep)
  | fuel + 1, path, r, point =>
    interpretStep resolve vars (fun path => atRank (rankedWithin resolve vars fuel path)) path r point

/-- The value at a point, with a look at the number of coordinates in every evaluation. -/
def interpretRanked (depth : Nat) (r : Recurrence) (resolve : Resolver) (vars : RuntimeVars α)
    (point : List α) : Except Error α :=
  (atRank (rankedWithin resolve vars depth []) r point).run' {}

theorem interpretWithin_succ (fuel : Nat) : interpretWithin resolve vars (fuel + 1) path r point =
    interpretStep resolve vars (interpretWithin resolve vars fuel) path r point := rfl

/-- A case goes wrong about a call only where one of its calls does. -/
theorem callsWell_evalSelection {σ : Type} {s : Scope α}
    {call : Call → StateT σ (Except Error) α} {chosen : Selection}
    (h : ∀ c ∈ chosen.calls, CallsWellIn (call c)) : CallsWellIn (evalSelection s call chosen) := by
  have hR : Expr.Relates s fun β (f _ : StateT σ (Except Error) β) => CallsWellIn f := {
    pure := CallsWellIn.pure
    bind := CallsWellIn.bind
    leaf := fun hx => .orThrow hx.callsWell
    noBranch := fun _ => callsWell_error id }
  cases chosen with
  | base i b => exact hR.eval call call b.value h
  | rule ρ => exact hR.eval call call ρ.expr h
  | primary => exact .pure _

/-- A step depends on the nested evaluations at the points that are called. -/
theorem interpretStep_congr
    {nested nested' : List String → Recurrence → List α → StateT (Memo α) (Except Error) α}
    (h : ∀ q, CallsPoint resolve (r, point) q →
      nested (r.pointKey point :: path) q.1 q.2 = nested' (r.pointKey point :: path) q.1 q.2) :
    interpretStep resolve vars nested path r point =
      interpretStep resolve vars nested' path r point := by
  have hcase (chosen : Selection) (hchosen : r.select (r.pointEnv point) = .ok chosen) :
      evalSelection (r.pointScope vars point) (fun c => do
        let target ← orThrow (r.callee resolve c)
        nested (r.pointKey point :: path) target (shiftPoint point c)) chosen =
      evalSelection (r.pointScope vars point) (fun c => do
        let target ← orThrow (r.callee resolve c)
        nested' (r.pointKey point :: path) target (shiftPoint point c)) chosen := by
    refine evalSelection_congr fun c hc => ?_
    cases hcallee : r.callee resolve c with
    | error e => rfl
    | ok target => exact h (target, _) ⟨chosen, hchosen, c, hc, hcallee, rfl⟩
  rw [interpretStep, interpretStep]
  cases hchosen : r.select (r.pointEnv point) with
  | error e => rfl
  | ok chosen =>
    have hpure : (orThrow (.ok chosen) : StateT (Memo α) (Except Error) Selection) = pure chosen := rfl
    simp only [hpure, pure_bind, hcase chosen hchosen]

/-- A step goes wrong about a call only where a callee is not found or a nested evaluation does. -/
theorem callsWell_step
    {nested : List String → Recurrence → List α → StateT (Memo α) (Except Error) α}
    (hcallee : ∀ chosen, r.select (r.pointEnv point) = .ok chosen →
      ∀ c ∈ chosen.calls, CallsWell (r.callee resolve c))
    (h : ∀ q, CallsPoint resolve (r, point) q →
      CallsWellIn (nested (r.pointKey point :: path) q.1 q.2)) :
    CallsWellIn (interpretStep resolve vars nested path r point) := by
  have hcase (chosen : Selection) (hchosen : r.select (r.pointEnv point) = .ok chosen) :
      CallsWellIn (evalSelection (r.pointScope vars point) (fun c => do
        let target ← orThrow (r.callee resolve c)
        nested (r.pointKey point :: path) target (shiftPoint point c)) chosen) :=
    callsWell_evalSelection fun c hc => .orThrow_bind (hcallee chosen hchosen c hc)
      fun target htarget => h (target, _) ⟨chosen, hchosen, c, hc, htarget, rfl⟩
  have hget : CallsWellIn (get : StateT (Memo α) (Except Error) (Memo α)) := fun _ => callsWell_ok _
  have hstore (v : α) : CallsWellIn (do
      modify fun memo : Memo α => memo.insert (r.pointKey point) v
      return v) := fun _ => callsWell_ok _
  refine hget.bind fun memo => ?_
  dsimp only
  split
  · exact .pure _
  · have hrest := CallsWellIn.orThrow_bind (callsWell_checkBound r vars) fun _ _ =>
      .orThrow_bind (callsWell_select r (r.pointEnv point)) fun chosen hchosen =>
        (hcase chosen hchosen).bind hstore
    split
    · exact .bind (fun _ => callsWell_error id) fun _ => hrest
    · exact hrest

/-! ## Runs -/

/-- Points that have a coordinate for each index, whose calls find their callees, and which call only
such points. -/
structure CallsKept (resolve : Resolver) (S : Recurrence × List α → Prop) : Prop where
  rank {p : Recurrence × List α} : S p → p.2.length = p.1.indices.length
  callee {p : Recurrence × List α} {chosen : Selection} : S p →
    p.1.select (p.1.pointEnv p.2) = .ok chosen → ∀ c ∈ chosen.calls, CallsWell (p.1.callee resolve c)
  next {p q : Recurrence × List α} : S p → CallsPoint resolve p q → S q

variable {S : Recurrence × List α → Prop}

/-- A nested evaluation at such a point passes the look at its coordinates. -/
theorem CallsKept.atRank_eq (hS : CallsKept resolve S) (h : S (r, point))
    (evaluate : Recurrence → List α → StateT (Memo α) (Except Error) α) :
    atRank evaluate r point = evaluate r point :=
  if_pos (beq_iff_eq.2 (hS.rank h))

/-- No look ever finds anything, however deep. -/
theorem CallsKept.rankedWithin_eq (hS : CallsKept resolve S) (fuel : Nat) (h : S (r, point)) :
    rankedWithin resolve vars fuel path r point = interpretWithin resolve vars fuel path r point := by
  induction fuel generalizing path r point with
  | zero => rfl
  | succ fuel ih =>
    rw [rankedWithin, interpretWithin_succ]
    refine interpretStep_congr fun q hq => ?_
    have hq : S q := hS.next h hq
    rw [hS.atRank_eq hq]
    exact ih hq

theorem CallsKept.callsWell_within (hS : CallsKept resolve S) (fuel : Nat) (h : S (r, point)) :
    CallsWellIn (interpretWithin resolve vars fuel path r point) := by
  induction fuel generalizing path r point with
  | zero => exact fun _ => callsWell_error id
  | succ fuel ih =>
    rw [interpretWithin_succ]
    refine callsWell_step (fun chosen hchosen => hS.callee h hchosen) fun q hq => ?_
    exact ih (hS.next h hq)

theorem CallsKept.interpretRanked_eq (hS : CallsKept resolve S) (depth : Nat) (h : S (r, point)) :
    r.interpretRanked depth resolve vars point = r.interpretTo depth resolve vars point := by
  rw [interpretRanked, hS.atRank_eq h, hS.rankedWithin_eq depth h, interpretTo,
    if_pos (beq_iff_eq.2 (hS.rank h))]

theorem CallsKept.callsWell_interpretTo (hS : CallsKept resolve S) (depth : Nat) (h : S (r, point)) :
    CallsWell (r.interpretTo depth resolve vars point) := by
  rw [interpretTo, if_pos (beq_iff_eq.2 (hS.rank h))]
  exact (hS.callsWell_within depth h {}).bind fun p _ => callsWell_ok p.1

/-- All points that are reached are such points. -/
theorem CallsKept.reached (hS : CallsKept resolve S) {p q : Recurrence × List α} (h : S p)
    (hq : Relation.ReflTransGen (CallsPoint resolve) p q) : S q := by
  induction hq with
  | refl => exact h
  | tail _ hcall ih => exact hS.next ih hcall

end

end Recurrence

/-! ## Validated catalogs -/

namespace Recurrence

/-- The calls of a case that is selected are calls of a rule. -/
theorem exists_rule_of_mem_calls {α : Type} [Carrier α] {r : Recurrence} (hr : r.Built) {env : Env α}
    {chosen : Selection} (hchosen : r.select env = .ok chosen) {call : Call}
    (hcall : call ∈ chosen.calls) : ∃ ρ ∈ r.rules, call ∈ ρ.expr.calls := by
  have hmem := mem_of_select hchosen
  cases chosen with
  | base i b =>
    rw [Selection.calls, Expr.calls_of_isArithmetic (hr.readShaped.values b hmem)] at hcall
    cases hcall
  | rule ρ => exact ⟨ρ, hmem, hcall⟩
  | primary => cases hcall

@[simp] theorem length_shiftPoint {α : Type} [Carrier α] (point : List α) (call : Call) :
    (shiftPoint point call).length = point.length := by
  simp [shiftPoint]

end Recurrence

namespace Catalog

variable {c : Catalog}

/-- A call without a problem goes to the caller or to an entry with as many indices. -/
theorem callee_of_callProblem? {r : Recurrence} (hr : r ∈ c.all) {rule : Nat} {call : Call}
    (h : c.callProblem? r rule call = none) :
    ∃ target ∈ c.all, r.callee c.resolver call = .ok target ∧
      target.indices.length = r.indices.length := by
  rw [callProblem?] at h
  rw [Recurrence.callee]
  cases ht : call.target with
  | none => exact ⟨r, hr, rfl, rfl⟩
  | some t =>
    rw [ht, Option.bind_some] at h
    dsimp only [resolver]
    split at h
    · cases h
    · next target hget =>
      split at h
      · next hrank => exact ⟨target, mem_all_of_get? hget, by rw [hget], beq_iff_eq.1 hrank⟩
      · cases h

/-- In a catalog without problems every call of a rule finds its callee. -/
theorem callee_of_valid (hvalid : c.problems = []) {r : Recurrence} (hr : r ∈ c.all) {ρ : Rule}
    (hρ : ρ ∈ r.rules) {call : Call} (hcall : call ∈ ρ.expr.calls) :
    ∃ target ∈ c.all, r.callee c.resolver call = .ok target ∧
      target.indices.length = r.indices.length := by
  rw [problems, List.flatMap_eq_nil_iff] at hvalid
  have hrules := List.flatMap_eq_nil_iff.1 (hvalid r hr) ρ hρ
  exact callee_of_callProblem? hr (List.filterMap_eq_nil_iff.1 hrules call hcall)

/-- The entries of a catalog with points of their rank. -/
def AtRank {α : Type} (c : Catalog) (p : Recurrence × List α) : Prop :=
  p.1 ∈ c.all ∧ p.2.length = p.1.indices.length

section
variable {α : Type} [Carrier α]

/-- **A catalog without problems keeps the ranks.** -/
theorem callsKept_of_valid (hbuilt : ∀ r ∈ c.all, r.Built) (hvalid : c.problems = []) :
    Recurrence.CallsKept c.resolver (c.AtRank (α := α)) where
  rank h := h.2
  callee := by
    intro p chosen hp hchosen call hcall
    obtain ⟨ρ, hρ, hcall⟩ := Recurrence.exists_rule_of_mem_calls (hbuilt _ hp.1) hchosen hcall
    obtain ⟨target, -, htarget, -⟩ := callee_of_valid hvalid hp.1 hρ hcall
    rw [htarget]
    exact callsWell_ok target
  next := by
    rintro p ⟨r', point'⟩ hp ⟨chosen, hchosen, call, hcall, hcallee, hpoint⟩
    obtain ⟨ρ, hρ, hcall⟩ := Recurrence.exists_rule_of_mem_calls (hbuilt _ hp.1) hchosen hcall
    obtain ⟨target, hmem, htarget, hrank⟩ := callee_of_valid hvalid hp.1 hρ hcall
    obtain rfl : target = r' := Except.ok.inj (htarget.symm.trans hcallee)
    obtain rfl : point' = Recurrence.shiftPoint p.2 call := hpoint
    refine ⟨hmem, ?_⟩
    rw [Recurrence.length_shiftPoint, hrank]
    exact hp.2

/-- **A validated catalog never goes wrong about a call.** For a catalog of built recurrences without
problems, an entry, a point with a coordinate for each of its indices and any variables, interpretation
never meets an unknown recurrence. It is the same as interpretation that looks at the number of
coordinates in every nested evaluation, and none of these looks finds anything; all points that can be
reached by calls are those of entries, with a coordinate for each index. This holds to any depth, the
limit of `interpret` included. -/
theorem interpret_calls_well (c : Catalog) (hbuilt : ∀ r ∈ c.all, r.Built) (hvalid : c.problems = [])
    (r : Recurrence) (hr : r ∈ c.all) (vars : RuntimeVars α) (point : List α)
    (hpoint : point.length = r.indices.length) (depth : Nat) :
    (∀ caller target, r.interpretTo depth c.resolver vars point ≠
      .error (.evaluation (.callsUnknown caller target))) ∧
    r.interpretRanked depth c.resolver vars point = r.interpretTo depth c.resolver vars point ∧
    (∀ callee expected got, r.interpretRanked depth c.resolver vars point ≠
      .error (.evaluation (.wrongRank callee expected got))) ∧
    ∀ q, Relation.ReflTransGen (Recurrence.CallsPoint c.resolver) (r, point) q →
      q.1 ∈ c.all ∧ q.2.length = q.1.indices.length := by
  have hkept : Recurrence.CallsKept c.resolver (c.AtRank (α := α)) := callsKept_of_valid hbuilt hvalid
  have hstart : c.AtRank (r, point) := ⟨hr, hpoint⟩
  have hwell : CallsWell (r.interpretTo depth c.resolver vars point) :=
    hkept.callsWell_interpretTo depth hstart
  have hranked : r.interpretRanked depth c.resolver vars point =
      r.interpretTo depth c.resolver vars point := hkept.interpretRanked_eq depth hstart
  refine ⟨?_, hranked, ?_, fun q hq => hkept.reached hstart hq⟩
  · intro caller target h
    exact hwell _ h trivial
  · intro callee expected got h
    rw [hranked] at h
    exact hwell _ h trivial

end

/-- Two entries, one of which calls the other and itself. -/
def crossing : Except Error Catalog := do
  let inner ← sampleEntry "Inner" "2*E[n-1]"
  let outer ← sampleEntry "Outer" "Inner[n-1] + n*E[n-1]"
  (← ({} : Catalog).register outer userModule).register inner userModule

/-- The entry that calls the other at three. -/
theorem interpret_calls_well_crossing : ∃ c r, crossing = .ok c ∧ (∀ s ∈ c.all, s.Built) ∧
    c.problems = [] ∧ r ∈ c.all ∧ [(3.0 : Float)].length = r.indices.length ∧
    (∀ caller target, r.interpretTo 5 c.resolver (fun _ => none) [3.0] ≠
      .error (.evaluation (.callsUnknown caller target))) ∧
    r.interpretRanked 5 c.resolver (fun _ => none) [3.0] =
      r.interpretTo 5 c.resolver (fun _ => none) [3.0] := by
  have hcheck : (crossing.toOption.any fun c =>
      c.problems.isEmpty && c.all.all fun r => r.indices.length == 1) = true := by
    decide +kernel
  obtain ⟨c, hc, hcheck⟩ := exists_ok_of_any hcheck
  rw [Bool.and_eq_true, List.isEmpty_iff, List.all_eq_true] at hcheck
  obtain ⟨hvalid, hranks⟩ := hcheck
  obtain ⟨inner, hinner, h⟩ := bind_ok hc
  obtain ⟨outer, houter, h⟩ := bind_ok h
  obtain ⟨d, hd, h⟩ := bind_ok h
  have hall : c.all = [outer, inner] := by
    rw [all_register h, all_register hd]
    rfl
  have hbuilt : ∀ s ∈ c.all, s.Built := by
    rw [hall]
    simp [Recurrence.Built.of_create houter, Recurrence.Built.of_create hinner]
  have hmem : outer ∈ c.all := by
    rw [hall]
    exact List.mem_cons_self ..
  have hpoint : [(3.0 : Float)].length = outer.indices.length := (beq_iff_eq.1 (hranks outer hmem)).symm
  obtain ⟨hknown, hranked, -, -⟩ :=
    interpret_calls_well c hbuilt hvalid outer hmem (fun _ => none) [3.0] hpoint 5
  exact ⟨c, outer, hc, hbuilt, hvalid, hmem, hpoint, hknown, hranked⟩

end Catalog

end RecurrenceCompiler
