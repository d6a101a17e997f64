import RecurrenceCompiler.Catalog.Evaluate
import RecurrenceCompiler.Proofs.Codegen.LayerGroups
import RecurrenceCompiler.Proofs.Recurrence.Derivation

/-!
# The rule that writes a slot

Layered code tries the groups in order and uses the first whose guard holds at the layer; inside it the
blocks of the roles run one after another, and the last one that writes a slot counts (`writer?`).
-/

namespace RecurrenceCompiler

open Text Decimal Arith

/-! ## Writers -/

section
variable {α : Type} [Carrier α]

/-- The values of the layer indices at a point. -/
def Recurrence.layerEnvAt (r : Recurrence) (aux : String) (point : List α) : Env α := fun n =>
  if n == aux then none else r.pointEnv point n

/-- The blocks of a group, in the order in which they run. -/
def LayerGroup.blocks (g : LayerGroup) : List LayerRule :=
  (g.find? "zero").toList ++ (g.find? "general").toList ++ (g.find? "max").toList

/-- The first slot of a loop: slot zero is left to the rule for it, if there is one. -/
def LayerGroup.firstSlot (g : LayerGroup) (start : Int) : Int :=
  if (g.find? "zero").isSome then max 1 start else start

/-- The slot from which the loop of a rule counts. -/
def LayerGroup.loopStart (g : LayerGroup) (lr : LayerRule) : Int :=
  match lr.role with
  | .general start => g.firstSlot start
  | _ => 0

/-- The text of the one slot of a rule. -/
def LayerRule.slotText (lr : LayerRule) : String :=
  match lr.role with
  | .max e => e
  | _ => ""

theorem LayerGroup.mem_of_mem_blocks {g : LayerGroup} {lr : LayerRule} (h : lr ∈ g.blocks) :
    lr ∈ g.rules := by
  simp only [blocks, List.mem_append, Option.mem_toList] at h
  rcases h with (h | h) | h <;> exact List.mem_of_find?_eq_some h

/-- The code of the block of a rule. -/
def Recurrence.blockCode (r : Recurrence) (o : CodegenOptions) (plan : LayerPlan) (g : LayerGroup)
    (buffers : List Buffer) (lr : LayerRule) : Except Error RoleCode :=
  match lr.role with
  | .zero => r.zeroCode o plan buffers lr
  | .general start => r.generalCode o plan buffers (g.firstSlot start) lr
  | .max e => r.maxCode o plan buffers e lr

/-- **The code of a group is that of its blocks, in the order in which they run.** -/
theorem Recurrence.roleCode_eq (r : Recurrence) (o : CodegenOptions) (plan : LayerPlan)
    (g : LayerGroup) (buffers : List Buffer) :
    r.roleCode o plan g buffers = g.blocks.mapM (r.blockCode o plan g buffers) := by
  have hzero : (g.find? "zero").toList.mapM (r.blockCode o plan g buffers) =
      (g.find? "zero").toList.mapM (r.zeroCode o plan buffers) := by
    cases h : g.find? "zero" with
    | none => rfl
    | some lr => simp [blockCode, LayerGroup.zero_of_find? h]
  have hgeneral : (g.find? "general").toList.mapM (r.blockCode o plan g buffers) =
      (g.find? "general").toList.mapM fun lr => r.generalCode o plan buffers (g.loopStart lr) lr := by
    cases h : g.find? "general" with
    | none => rfl
    | some lr =>
      obtain ⟨start, hrole⟩ := LayerGroup.general_of_find? h
      simp [blockCode, hrole, LayerGroup.loopStart]
  have hmax : (g.find? "max").toList.mapM (r.blockCode o plan g buffers) =
      (g.find? "max").toList.mapM fun lr => r.maxCode o plan buffers lr.slotText lr := by
    cases h : g.find? "max" with
    | none => rfl
    | some lr =>
      obtain ⟨e, hrole⟩ := LayerGroup.max_of_find? h
      simp [blockCode, hrole, LayerRule.slotText]
  have hgroup {zeros generals maxes : Except Error (List RoleCode)} :
      (zeros >>= fun zs => generals >>= fun gs => maxes >>= fun ms => pure (zs ++ gs ++ ms)) =
        (zeros >>= fun zs => generals >>= fun gs => pure (zs ++ gs)) >>= fun bs =>
          maxes >>= fun ms => pure (bs ++ ms) := by
    cases zeros with
    | error e => rfl
    | ok zs =>
      cases generals with
      | error e => rfl
      | ok gs => cases maxes <;> rfl
  rw [LayerGroup.blocks, List.mapM_append, List.mapM_append, hzero, hgeneral, hmax, roleCode]
  exact hgroup

/-- Whether the block of a rule writes a slot of a layer of a given size. -/
def LayerGroup.writes (g : LayerGroup) (env : Env α) (size a : α) (lr : LayerRule) : Bool :=
  match lr.role with
  | .zero => Carrier.lt Carrier.zero size && Carrier.eq Carrier.zero a
  | .general start => Carrier.le (Carrier.ofInt (g.firstSlot start)) a && Carrier.lt a size
  | .max e =>
    match eval env e with
    | .ok x => Carrier.le Carrier.zero x && Carrier.lt x size && Carrier.eq x a
    | .error _ => false

/-- The rule whose block writes a slot last. -/
def LayerGroup.writer? (g : LayerGroup) (env : Env α) (size a : α) : Option Rule :=
  (g.blocks.filter (g.writes env size a)).getLast?.map (·.rule)

/-- The first group whose guard holds at a layer. -/
def LayerPlan.groupAt? (plan : LayerPlan) (r : Recurrence) (env : Env α) : Option LayerGroup :=
  plan.groups.find? fun g =>
    ((g.guard.and (r.validity.onLayer plan.aux)).holds env).toOption == some true

/-- The rule that writes a slot last in the layer's code. -/
def LayerPlan.writer? (plan : LayerPlan) (r : Recurrence) (env : Env α) (size a : α) : Option Rule :=
  (plan.groupAt? r env).bind fun g => g.writer? env size a

end

/-- What selecting one of the rules, or none, is. -/
def Selection.ofRule? : Option Rule → Selection
  | some chosen => .rule chosen
  | none => .primary

/-! ## The bound on slots -/

namespace Recurrence

/-- The comparison and the text of the first upper bound on the auxiliary index. -/
def upperLimit? (aux : String) : List Constraint → Option (Comparison × String)
  | [] => none
  | c :: cs =>
    match c.onAux? aux with
    | some (.le, rhs) => some (.le, rhs)
    | some (.lt, rhs) => some (.lt, rhs)
    | _ => upperLimit? aux cs

/-- The number of slots that an upper bound gives. -/
def limitText : Comparison × String → String
  | (.le, rhs) => "(" ++ rhs ++ ") + 1"
  | (_, rhs) => "(" ++ rhs ++ ")"

theorem validityBound?_eq (aux : String) (cs : List Constraint) :
    validityBound? aux cs = (upperLimit? aux cs).map limitText := by
  induction cs with
  | nil => rfl
  | cons c cs ih =>
    rw [validityBound?, upperLimit?]
    split <;> simp_all [limitText]

theorem upperLimit?_mem {aux : String} {cs : List Constraint} {op : Comparison} {rhs : String}
    (h : upperLimit? aux cs = some (op, rhs)) :
    (op = .le ∨ op = .lt) ∧ ∃ c ∈ cs, c.onAux? aux = some (op, rhs) := by
  induction cs with
  | nil => cases h
  | cons c cs ih =>
    rw [upperLimit?] at h
    split at h
    · next hc =>
      cases h
      exact ⟨.inl rfl, c, by simp, hc⟩
    · next hc =>
      cases h
      exact ⟨.inr rfl, c, by simp, hc⟩
    · obtain ⟨hop, d, hd, hon⟩ := ih h
      exact ⟨hop, d, by simp [hd], hon⟩

/-- The bound that a plan takes from the validity. -/
theorem Planned.bound_expr {r : Recurrence} {padding : Amount} {plan : LayerPlan}
    (h : r.Planned padding plan) {p : Comparison × String}
    (hp : upperLimit? plan.aux r.validity.constraints = some p) : plan.bound.expr = limitText p := by
  have hbound := h.bound
  rw [layerBound, validityBound?_eq, hp] at hbound
  rw [← Except.ok.inj hbound]

section
variable {env : Env Float} {x a : Float}

/-- The value of a limit with one added. -/
theorem hasValue_add_one {rhs : String} (h : HasValue env rhs.toList x) :
    HasValue env ("(" ++ rhs ++ ") + 1").toList (x + toFloat 1 0) := by
  obtain ⟨ts, t, hts, ht, hx⟩ := h
  have hparen := tokens?_paren hts
  have hone : tokens? ['+', ' ', '1'] = some [.op .plus, .num (toFloat 1 0)] := by
    refine (tokens?_op .plus [' ', '1']).trans ?_
    rw [tokens?_blank rfl, tokens?_literal (ofChars?_natural rfl)]
    rfl
  have htokens : tokens? (('(' :: rhs.toList ++ [')']) ++ ' ' :: ['+', ' ', '1']) =
      some ((.op .left :: ts ++ [.op .right]) ++ [.op .plus, .num (toFloat 1 0)]) := by
    rw [tokens?_append rfl, hparen, tokens?_blank rfl, hone]
    rfl
  have htext : ("(" ++ rhs ++ ") + 1").toList =
      ('(' :: rhs.toList ++ [')']) ++ ' ' :: ['+', ' ', '1'] := by
    simp
  refine ⟨_, .bin .add t (.num (toFloat 1 0)), htext ▸ htokens, .add ?_ (.ofUnary (.ofPrimary .num)), ?_⟩
  · exact .ofTerm (.ofUnary (.ofPrimary (.paren ht)))
  · rw [Tree.eval, hx]
    rfl

/-- A slot below the number of slots that a limit gives is within the limit. -/
theorem holds_of_lt_limit {op : Comparison} (hop : op = .le ∨ op = .lt) {rhs : String} {size : Float}
    (hx : HasValue env rhs.toList x) (hxw : isWhole x = true)
    (hsize : HasValue env (limitText (op, rhs)).toList size) (ha : IsIntegral a) (hlt : a < size) :
    op.holds a x = true := by
  obtain ⟨hfin, hxi⟩ := isIntegral_of_isWhole hxw
  rcases hop with rfl | rfl
  · -- Rounding the sum with one does not cross the slot.
    obtain rfl := hsize.unique (hasValue_add_one hx)
    exact decide_eq_true (le_of_lt_add_one hfin hxi ha hlt)
  · have htext : (limitText (.lt, rhs)).toList = '(' :: rhs.toList ++ [')'] := by simp [limitText]
    rw [htext] at hsize
    obtain rfl := hsize.unique hx.paren
    exact decide_eq_true hlt

end

/-! ## Slots of a layer -/

/-- The auxiliary index is bounded by its sign and the limit of the layers only, and no group has both
a rule for slot zero and one for a single other slot. -/
structure AuxBounded (r : Recurrence) (plan : LayerPlan) : Prop where
  validity : ∀ c ∈ r.validity.constraints, c.mentions plan.aux = true →
    c.onAux? plan.aux = some (.ge, "0") ∨
      ∃ p ∈ c.onAux? plan.aux, upperLimit? plan.aux r.validity.constraints = some p
  rules : ∀ rule ∈ r.rules, ∀ c ∈ rule.guard.constraints, ∀ p ∈ c.onAux? plan.aux, p.1 = .le →
    upperLimit? plan.aux r.validity.constraints = some p
  roles : ∀ g ∈ plan.groups, g.find? "zero" = none ∨ g.find? "max" = none

instance (r : Recurrence) (plan : LayerPlan) : Decidable (r.AuxBounded plan) :=
  decidable_of_iff
    ((∀ c ∈ r.validity.constraints, c.mentions plan.aux = true →
        c.onAux? plan.aux = some (.ge, "0") ∨
          ∃ p ∈ c.onAux? plan.aux, upperLimit? plan.aux r.validity.constraints = some p) ∧
      (∀ rule ∈ r.rules, ∀ c ∈ rule.guard.constraints, ∀ p ∈ c.onAux? plan.aux, p.1 = .le →
        upperLimit? plan.aux r.validity.constraints = some p) ∧
      ∀ g ∈ plan.groups, g.find? "zero" = none ∨ g.find? "max" = none)
    ⟨fun ⟨hv, hr, hg⟩ => ⟨hv, hr, hg⟩, fun h => ⟨h.validity, h.rules, h.roles⟩⟩

/-- A point of whole numbers whose auxiliary index is a slot of its layer. The limit of the layer is a
whole number, and so is its size, which numbers can count up to. -/
structure AtSlot (r : Recurrence) (plan : LayerPlan) (point : List Float) (size a : Float) : Prop where
  whole : ∀ x ∈ point, isWhole x = true
  limit : ∀ p, upperLimit? plan.aux r.validity.constraints = some p →
    ∃ x, eval (r.layerEnvAt plan.aux point) p.2 = .ok x ∧ isWhole x = true
  sized : eval (r.layerEnvAt plan.aux point) plan.bound.expr = .ok size
  wholeSize : isWhole size = true
  countable : toInt size ≤ exactLimit
  aux : r.pointEnv point plan.aux = some a
  nonneg : 0.0 ≤ a
  lt : a < size

section
variable {r : Recurrence} {plan : LayerPlan} {padding : Amount} {point : List Float} {size a : Float}

/-- The values of the indices at a point are those of the point. -/
theorem pointEnv_mem {α : Type} [Carrier α] {point : List α} {n : String} {x : α}
    (h : r.pointEnv point n = some x) : x ∈ point := by
  rw [pointEnv] at h
  split at h
  · exact List.mem_of_getElem? h
  · cases h

theorem AtSlot.integral (h : r.AtSlot plan point size a) {n : String} {x : Float}
    (hx : r.pointEnv point n = some x) : IsIntegral x :=
  (isIntegral_of_isWhole (h.whole x (pointEnv_mem hx))).2

/-- The auxiliary index at such a point is a slot. -/
theorem AtSlot.isSlot (h : r.AtSlot plan point size a) : IsSlot a := by
  have ha := h.integral h.aux
  have hsize := (isIntegral_of_isWhole h.wholeSize).2
  have hzero : IsIntegral 0.0 ∧ toInt 0.0 = 0 := toFloat_natural 0
  refine ⟨ha, ?_, ?_⟩
  · have := (hzero.1.le_iff ha).1 h.nonneg
    rwa [hzero.2] at this
  · exact ((ha.lt_iff hsize).1 h.lt).trans_le h.countable

/-- What does not mention the auxiliary index holds at a point exactly if it holds at its layer. -/
theorem holds_layerEnvAt {α : Type} [Carrier α] {point : List α} {c : Constraint} {aux : String}
    {b : Bool} (hc : c.mentions aux = false) :
    c.holds (r.layerEnvAt aux point) = .ok b ↔ c.holds (r.pointEnv point) = .ok b := by
  have henv : ∀ n, c.mentions n = true → r.layerEnvAt aux point n = r.pointEnv point n := by
    intro n hn
    have hne : n ≠ aux := by
      rintro rfl
      rw [hc] at hn
      cases hn
    simp [layerEnvAt, hne]
  exact ⟨Constraint.holds_congr henv, Constraint.holds_congr fun n hn => (henv n hn).symm⟩

/-- The same for the constraints of a guard on the layer. -/
theorem onLayer_holds {α : Type} [Carrier α] {point : List α} {g : Guard} {aux : String} :
    (g.onLayer aux).holds (r.layerEnvAt aux point) = .ok true ↔
      ∀ c ∈ g.constraints, c.mentions aux = false → c.holds (r.pointEnv point) = .ok true := by
  rw [Guard.holds_eq_true_iff]
  simp only [Guard.onLayer, Guard.filter, List.mem_filter, Bool.not_eq_true', and_imp]
  exact forall₃_congr fun c _ hc => holds_layerEnvAt hc

/-- A text without the auxiliary index has the same value at a point and at its layer. -/
theorem hasValue_layerEnvAt {α : Type} [Carrier α] {point : List α} {text aux : String} {x : α}
    (h : Arith.mentions text aux = false) :
    HasValue (r.layerEnvAt aux point) text.toList x ↔ HasValue (r.pointEnv point) text.toList x := by
  have henv : ∀ n, Arith.mentions text n = true → r.layerEnvAt aux point n = r.pointEnv point n := by
    intro n hn
    have hne : n ≠ aux := by
      rintro rfl
      rw [h] at hn
      cases hn
    simp [layerEnvAt, hne]
  exact ⟨fun hx => hx.congr henv, fun hx => hx.congr fun n hn => (henv n hn).symm⟩

/-- **The limit of the layer holds at its slots.** -/
theorem AtSlot.limit_holds (hr : r.WellFormed) (hplan : r.Planned padding plan)
    (h : r.AtSlot plan point size a) {c : Constraint} {p : Comparison × String}
    (hc : c.onAux? plan.aux = some p) (hp : upperLimit? plan.aux r.validity.constraints = some p) :
    c.holds (r.pointEnv point) = .ok true := by
  obtain ⟨op, rhs⟩ := p
  obtain ⟨hop, -⟩ := upperLimit?_mem hp
  obtain ⟨x, hx, hwhole⟩ := h.limit _ hp
  have hx := eval_eq_ok_iff.1 hx
  have hsize := eval_eq_ok_iff.1 h.sized
  rw [hplan.bound_expr hp] at hsize
  rw [c.holds_onAux (hr.identifiers _ (hr.aux _ hplan.aux)) h.aux hc]
  exact ⟨x, (hasValue_layerEnvAt (c.not_mentions_of_onAux hc)).1 hx,
    holds_of_lt_limit hop hx hwhole hsize h.isSlot.integral h.lt⟩

/-- The validity holds at the slots of a layer where its constraints on the layer hold. -/
theorem AtSlot.validity_holds (hr : r.WellFormed) (hplan : r.Planned padding plan)
    (haux : r.AuxBounded plan) (h : r.AtSlot plan point size a) :
    r.validity.holds (r.pointEnv point) = .ok true ↔
      (r.validity.onLayer plan.aux).holds (r.layerEnvAt plan.aux point) = .ok true := by
  rw [onLayer_holds, Guard.holds_eq_true_iff]
  refine ⟨fun hall c hc _ => hall c hc, fun hall c hc => ?_⟩
  cases hm : c.mentions plan.aux with
  | false => exact hall c hc hm
  | true =>
    rcases haux.validity c hc hm with hzero | ⟨p, hp, hlimit⟩
    · rw [c.holds_onAux (hr.identifiers _ (hr.aux _ hplan.aux)) h.aux hzero]
      obtain ⟨z, hz, hzi, hvalue⟩ := @hasValue_integer (r.pointEnv point) "0".toList rfl
      refine ⟨z, hz, (Comparison.holds_iff .ge h.isSlot.integral hzi).2 ?_⟩
      rw [hvalue]
      exact h.isSlot.nonneg
    · exact h.limit_holds hr hplan hp hlimit

/-- The constraints of a rule on the layer are those of its group, up to order. -/
theorem Planned.perm_guard (hr : r.WellFormed) (hplan : r.Planned padding plan) {g : LayerGroup}
    (hg : g ∈ plan.groups) {lr : LayerRule} (hlr : lr ∈ g.rules) :
    (lr.rule.guard.onLayer plan.aux).constraints.Perm g.guard.constraints := by
  have hspelled {ρ : Rule} (hρ : ρ ∈ r.sortedRules) :
      ∀ c ∈ (ρ.guard.onLayer plan.aux).constraints, c.Spelled := fun c hc =>
    hr.spelled ρ (r.sortedRules_perm.mem_iff.1 hρ) c (List.mem_of_mem_filter hc)
  obtain ⟨hmem, -, hkey⟩ := hplan.gathered.member g hg lr hlr
  obtain ⟨ρ, hρ, hguard⟩ := hplan.gathered.guard g hg
  rw [hguard] at hkey ⊢
  exact Guard.perm_of_key_eq (hspelled hmem) (hspelled hρ) hkey

/-- The upper bounds of a rule on the auxiliary index, which its role leaves out, hold. -/
def LimitsHold (aux : String) (env : Env Float) (ρ : Rule) : Prop :=
  ∀ c ∈ ρ.guard.constraints, ∀ rhs, c.onAux? aux = some (.le, rhs) → c.holds env = .ok true

/-- **The guard of a rule holds at a slot exactly if its group holds at the layer, the slot is of its
role, and its upper bounds hold.** -/
theorem Planned.guard_holds (hr : r.WellFormed) (hplan : r.Planned padding plan) {g : LayerGroup}
    (hg : g ∈ plan.groups) {lr : LayerRule} (hlr : lr ∈ g.rules)
    (ha : r.pointEnv point plan.aux = some a) (hslot : IsSlot a) :
    lr.rule.guard.holds (r.pointEnv point) = .ok true ↔
      g.guard.holds (r.layerEnvAt plan.aux point) = .ok true ∧
        lr.role.Holds (r.pointEnv point) a ∧ LimitsHold plan.aux (r.pointEnv point) lr.rule := by
  obtain ⟨-, hrole, -⟩ := hplan.gathered.member g hg lr hlr
  have hlayer : g.guard.holds (r.layerEnvAt plan.aux point) = .ok true ↔
      ∀ c ∈ lr.rule.guard.constraints, c.mentions plan.aux = false →
        c.holds (r.pointEnv point) = .ok true := by
    rw [← onLayer_holds, Guard.holds_eq_true_iff, Guard.holds_eq_true_iff]
    exact forall_congr' fun c => imp_congr_left (hplan.perm_guard hr hg hlr).symm.mem_iff
  have hslots (hlimits : LimitsHold plan.aux (r.pointEnv point) lr.rule) :
      (∀ c ∈ lr.rule.guard.constraints, c.mentions plan.aux = true →
        c.holds (r.pointEnv point) = .ok true) ↔ lr.role.Holds (r.pointEnv point) a := by
    have hholds := rolesOver_holds (hr.identifiers _ (hr.aux _ hplan.aux)) ha hslot hlimits hrole
    simpa only [Option.mem_def, reduceCtorEq, false_implies, implies_true, and_true] using hholds
  rw [hlayer, Guard.holds_eq_true_iff]
  constructor
  · intro hall
    have hlimits : LimitsHold plan.aux (r.pointEnv point) lr.rule := fun c hc _ _ => hall c hc
    exact ⟨fun c hc _ => hall c hc, (hslots hlimits).1 fun c hc _ => hall c hc, hlimits⟩
  · rintro ⟨hfree, hholds, hlimits⟩ c hc
    cases hm : c.mentions plan.aux with
    | false => exact hfree c hc hm
    | true => exact (hslots hlimits).2 hholds c hc hm

/-- **A rule holds at a slot exactly if its group holds at the layer and the slot is of its role.** -/
theorem AtSlot.rule_holds (hr : r.WellFormed) (hplan : r.Planned padding plan)
    (haux : r.AuxBounded plan) (h : r.AtSlot plan point size a) {g : LayerGroup} (hg : g ∈ plan.groups)
    {lr : LayerRule} (hlr : lr ∈ g.rules) :
    (r.fullGuard lr.rule).holds (r.pointEnv point) = .ok true ↔
      (g.guard.and (r.validity.onLayer plan.aux)).holds (r.layerEnvAt plan.aux point) = .ok true ∧
        lr.role.Holds (r.pointEnv point) a := by
  have hmem := (hplan.gathered.member g hg lr hlr).1
  -- The bounds that give no role are the limit of the layer.
  have hlimits : LimitsHold plan.aux (r.pointEnv point) lr.rule := fun c hc rhs hon =>
    h.limit_holds hr hplan hon (haux.rules _ (r.sortedRules_perm.mem_iff.1 hmem) c hc _ hon rfl)
  rw [fullGuard, Guard.and_holds_iff, Guard.and_holds_iff, h.validity_holds hr hplan haux,
    hplan.guard_holds hr hg hlr h.aux h.isSlot]
  tauto

/-- The equalities of a rule are those of its group and those of its role. -/
theorem Planned.equalities (hr : r.WellFormed) (hplan : r.Planned padding plan) {g : LayerGroup}
    (hg : g ∈ plan.groups) {lr : LayerRule} (hlr : lr ∈ g.rules) :
    lr.rule.guard.equalities = g.guard.equalities + lr.role.equalities := by
  obtain ⟨-, hrole, -⟩ := hplan.gathered.member g hg lr hlr
  have hcount := rolesOver_equalities hrole
  have hperm := (hplan.perm_guard hr hg hlr).countP_eq fun c => c.op == .eq
  rw [Guard.equalities, Guard.equalities, ← hperm, ← hcount, Guard.onLayer, Guard.filter,
    List.countP_filter]
  simp only [Option.map_none, Option.getD_none, add_zero]
  induction lr.rule.guard.constraints with
  | nil => rfl
  | cons c cs ih =>
    simp only [List.countP_cons, ih]
    cases c.mentions plan.aux <;> cases c.op == .eq <;> simp <;> omega

/-! ## Groups that are used -/

/-- In a group the role of a rule is its own. -/
theorem Gathered.find?_eq_some {aux : String} {rules : List Rule} {groups : List LayerGroup}
    (h : r.Gathered aux rules groups) {g : LayerGroup} (hg : g ∈ groups) {lr : LayerRule} {t : String} :
    g.find? t = some lr ↔ lr ∈ g.rules ∧ lr.role.text = t := by
  constructor
  · intro hfind
    exact ⟨List.mem_of_find?_eq_some hfind, LayerGroup.text_of_find? hfind⟩
  · rintro ⟨hlr, rfl⟩
    have hsome : (g.find? lr.role.text).isSome := List.find?_isSome.2 ⟨lr, hlr, by simp⟩
    obtain ⟨lr', hlr'⟩ := Option.isSome_iff_exists.1 hsome
    rw [hlr', List.inj_on_of_nodup_map (h.roles g hg) (List.mem_of_find?_eq_some hlr') hlr
      (LayerGroup.text_of_find? hlr')]

/-- A group that serves every slot has a rule for each. -/
theorem exists_holds_of_coversAux (env : Env Float) {g : LayerGroup} (hcover : g.coversAux = true)
    (ha : IsSlot a) : ∃ lr ∈ g.rules, lr.role.Holds env a := by
  have hnonneg := ha.nonneg
  unfold LayerGroup.coversAux at hcover
  split at hcover
  · next rule start hgeneral =>
    have hmem := List.mem_of_find?_eq_some hgeneral
    simp only [Bool.or_eq_true, beq_iff_eq, Bool.and_eq_true, decide_eq_true_eq] at hcover
    by_cases hstart : start ≤ toInt a
    · exact ⟨_, hmem, hstart⟩
    · -- Only slot zero is left, and there is a rule for it.
      obtain ⟨hzero, hone⟩ := hcover.resolve_left (by omega)
      obtain ⟨lr, hlr⟩ := Option.isSome_iff_exists.1 hzero
      refine ⟨lr, List.mem_of_find?_eq_some hlr, ?_⟩
      rw [LayerGroup.zero_of_find? hlr, Role.Holds]
      omega
  · cases hcover

/-- The group that is used holds, and none before it does. -/
theorem groupAt?_eq_some {α : Type} [Carrier α] {env : Env α} {g : LayerGroup} :
    plan.groupAt? r env = some g ↔
      (g.guard.and (r.validity.onLayer plan.aux)).holds env = .ok true ∧
        ∃ before after, plan.groups = before ++ g :: after ∧ ∀ h ∈ before,
          (h.guard.and (r.validity.onLayer plan.aux)).holds env ≠ .ok true := by
  rw [LayerPlan.groupAt?, List.find?_eq_some_iff_append]
  simp only [beq_iff_eq, toOption_eq_some_iff, Bool.not_eq_true', ← Bool.not_eq_true]

/-- Rules of a group that outranks another come no later. -/
theorem le_of_outranks {g g' : LayerGroup} (h : r.outranks g g' = true) {lr lr' : LayerRule}
    (hlr : lr ∈ g.rules) (hlr' : lr' ∈ g'.rules) :
    (r.sortedRules.findIdx fun rule => rule.index == lr.rule.index) ≤
      r.sortedRules.findIdx fun rule => rule.index == lr'.rule.index := by
  simp only [outranks, ranks, List.all_eq_true, List.mem_map, forall_exists_index, and_imp,
    forall_apply_eq_imp_iff₂, decide_eq_true_eq] at h
  exact_mod_cast h lr' hlr' lr hlr

theorem AtSlot.layer_integral (h : r.AtSlot plan point size a) (g : Guard) :
    g.BoundsIntegral (r.layerEnvAt plan.aux point) := by
  intro b _ x hx
  rw [layerEnvAt] at hx
  split at hx
  · cases hx
  · exact h.integral hx

/-- A rule with a rank up to that of another comes before it or is it. -/
theorem mem_of_rank_le (hr : r.WellFormed) {ρ σ : Rule} {before after : List Rule}
    (hsorted : r.sortedRules = before ++ ρ :: after) (hσ : σ ∈ r.sortedRules)
    (hle : (r.sortedRules.findIdx fun rule => rule.index == σ.index) ≤
      r.sortedRules.findIdx fun rule => rule.index == ρ.index) : σ ∈ before ∨ σ = ρ := by
  have hrank : (r.sortedRules.findIdx fun rule => rule.index == ρ.index) ≤ before.length := by
    by_contra hlt
    have hfalse := List.not_of_lt_findIdx (not_le.1 hlt)
    simp [hsorted] at hfalse
  have hlt : (r.sortedRules.findIdx fun rule => rule.index == σ.index) < r.sortedRules.length :=
    List.findIdx_lt_length.2 ⟨σ, hσ, by simp⟩
  have hget : r.sortedRules[r.sortedRules.findIdx fun rule => rule.index == σ.index] = σ :=
    List.inj_on_of_nodup_map hr.nodup_sortedRules (List.getElem_mem hlt) hσ
      (by simpa using List.findIdx_getElem (w := hlt))
  generalize (r.sortedRules.findIdx fun rule => rule.index == σ.index) = k at *
  have hget : r.sortedRules[k]? = some σ := by rw [List.getElem?_eq_getElem hlt, hget]
  rw [hsorted, List.getElem?_append] at hget
  split at hget
  · exact .inl (List.mem_of_getElem? hget)
  · obtain rfl : k = before.length := by omega
    exact .inr (by simpa using hget.symm)

/-- **The group of the selected rule is the one that is used**, and no rule of it that holds has more
equalities. -/
theorem AtSlot.groupAt? (hr : r.WellFormed) (hplan : r.Planned padding plan)
    (haux : r.AuxBounded plan) (h : r.AtSlot plan point size a) {ρ : Rule}
    (hselect : r.selectRule (r.pointEnv point) r.sortedRules = .ok (some ρ)) :
    ∃ g ∈ plan.groups, plan.groupAt? r (r.layerEnvAt plan.aux point) = some g ∧
      ∃ lr ∈ g.rules, lr.rule = ρ ∧ lr.role.Holds (r.pointEnv point) a ∧
        ∀ lr' ∈ g.rules, lr'.role.Holds (r.pointEnv point) a →
          lr'.role.equalities ≤ lr.role.equalities := by
  obtain ⟨before, after, hsorted, hρ, hbefore⟩ := selectRule_eq_ok hselect
  have hmem : ρ ∈ r.sortedRules := by simp [hsorted]
  obtain ⟨g, hg, lr, hlr, rfl⟩ := hplan.gathered.covers ρ hmem
  obtain ⟨hguard, hrole⟩ := (h.rule_holds hr hplan haux hg hlr).1 hρ
  have hpairs := r.pairwise_sortedRules
  rw [hsorted, List.pairwise_append, List.pairwise_cons] at hpairs
  refine ⟨g, hg, ?_, lr, hlr, rfl, hrole, ?_⟩
  · obtain ⟨g', hg'⟩ : ∃ g', plan.groupAt? r (r.layerEnvAt plan.aux point) = some g' := by
      refine Option.isSome_iff_exists.1 (List.find?_isSome.2 ⟨g, hg, ?_⟩)
      rw [hguard]
      rfl
    obtain ⟨hguard', first, later, hgroups, hfirst⟩ := groupAt?_eq_some.1 hg'
    have hgmem' : g' ∈ plan.groups := by simp [hgroups]
    have hagree := hplan.agree
    have hg₀ := hg
    rw [hgroups, List.pairwise_append, List.pairwise_cons] at hagree
    rw [hgroups, List.mem_append, List.mem_cons] at hg₀
    rcases hg₀ with hg₀ | rfl | hg₀
    · exact absurd hguard (hfirst g hg₀)
    · exact hg'
    · rcases hagree.2.1.1 g hg₀ with hdisjoint | ⟨hrank, hcover⟩
      · exact absurd (Guard.and_holds_iff.1 hguard).1
          (Guard.disjoint_of_provablyDisjoint (h.layer_integral _) (h.layer_integral _) hdisjoint
            (Guard.and_holds_iff.1 hguard').1)
      · -- The earlier group has a rule for the slot, which is tried no later than the selected one.
        obtain ⟨lr', hlr', hrole'⟩ := exists_holds_of_coversAux (r.pointEnv point) hcover h.isSlot
        have hholds := (h.rule_holds hr hplan haux hgmem' hlr').2 ⟨hguard', hrole'⟩
        obtain ⟨hmem', -, hkey'⟩ := hplan.gathered.member g' hgmem' lr' hlr'
        rcases mem_of_rank_le hr hsorted hmem' (le_of_outranks hrank hlr' hlr) with hin | heq
        · exact absurd hholds (hbefore _ hin)
        · have hkey := (hplan.gathered.member g hg lr hlr).2.2
          rw [heq] at hkey'
          rw [hg', List.inj_on_of_nodup_map hplan.gathered.keys hgmem' hg (hkey'.symm.trans hkey)]
  · intro lr' hlr' hrole'
    have hholds := (h.rule_holds hr hplan haux hg hlr').2 ⟨hguard, hrole'⟩
    have heq := hplan.equalities hr hg hlr
    have heq' := hplan.equalities hr hg hlr'
    have hmem' := (hplan.gathered.member g hg lr' hlr').1
    rw [hsorted, List.mem_append, List.mem_cons] at hmem'
    rcases hmem' with hmem' | hmem' | hmem'
    · exact absurd hholds (hbefore _ hmem')
    · rw [hmem'] at heq'
      omega
    · have hle := priorityLe_iff.1 (hpairs.2.1.1 _ hmem')
      omega

/-! ## The last block -/

/-- Doubles that are equal are numbers of one value. -/
theorem doubleValue_of_beq {x y : Float} (hy : IsNumber y) (h : (x == y) = true) :
    IsNumber x ∧ doubleValue x = doubleValue y := by
  have hx : IsNumber x := by
    intro hnan
    change (x.toModel.unpack.compare y.toModel.unpack == some .eq) = true at h
    rw [hnan] at h
    cases h
  exact ⟨hx, (Decimal.beq_iff hx hy).1 h⟩

/-- What is above a double is a number. -/
theorem isNumber_of_lt {x y : Float} (h : x < y) : IsNumber y := by
  intro hnan
  have hcompare : x.toModel.unpack.compare y.toModel.unpack = none := by
    rw [hnan]
    cases x.toModel.unpack <;> rfl
  change decide ((x.toModel.unpack.compare y.toModel.unpack == some .lt) = true) = true at h
  rw [hcompare] at h
  cases h

/-- **A block writes the slots of its role**, but a loop leaves slot zero to the rule for it. -/
theorem Planned.writes_iff (hplan : r.Planned padding plan) {g : LayerGroup} (hg : g ∈ plan.groups)
    {lr : LayerRule} (hlr : lr ∈ g.rules) (hslot : IsSlot a) (hlt : a < size) :
    g.writes (r.layerEnvAt plan.aux point) size a lr = true ↔ lr.role.Holds (r.pointEnv point) a ∧
      (lr.role.text = "general" → (g.find? "zero").isSome → toInt a ≠ 0) := by
  have hsize := isNumber_of_lt hlt
  have hzero : IsIntegral 0.0 ∧ toInt 0.0 = 0 := toFloat_natural 0
  have hnonneg : (0.0 : Float) ≤ a := (hzero.1.le_iff hslot.integral).2 (by rw [hzero.2]; exact hslot.nonneg)
  have hvalues := (Decimal.lt_iff hslot.integral.1 hsize).1 hlt
  rw [LayerGroup.writes]
  cases hrole : lr.role with
  | zero =>
    have hpos : (0.0 : Float) < size := (Decimal.lt_iff hzero.1.1 hsize).2 <|
      ((Decimal.le_iff hzero.1.1 hslot.integral.1).1 hnonneg).trans_lt hvalues
    change (decide ((0.0 : Float) < size) && (0.0 : Float) == a) = true ↔ _
    rw [decide_eq_true hpos, Bool.true_and, hzero.1.beq_iff hslot.integral, hzero.2, eq_comm]
    simp [Role.Holds, Role.text]
  | general start =>
    have hstart := (rounds_ofInt (g.firstSlot start)).isIntegral
    have hpos := hslot.nonneg
    change (decide (ofInt (g.firstSlot start) ≤ a) && decide (a < size)) = true ↔ _
    rw [decide_eq_true hlt, Bool.and_true, decide_eq_true_iff, hstart.le_iff hslot.integral,
      toInt_ofInt, hslot.grid_le_iff, LayerGroup.firstSlot]
    cases hz : (g.find? "zero").isSome <;> simp [Role.Holds, Role.text]
    omega
  | max e =>
    have he : Arith.mentions e plan.aux = false := by
      obtain ⟨-, hrole', -⟩ := hplan.gathered.member g hg lr hlr
      rw [hrole] at hrole'
      exact not_mentions_of_auxRole hrole'
    have hvalue (x : Float) : eval (r.layerEnvAt plan.aux point) e = .ok x ↔
        HasValue (r.pointEnv point) e.toList x := eval_eq_ok_iff.trans (hasValue_layerEnvAt he)
    -- What equals the slot is a slot of the layer itself.
    have hin {x : Float} (hx : (x == a) = true) : (0.0 : Float) ≤ x ∧ x < size := by
      obtain ⟨hxn, hxa⟩ := doubleValue_of_beq hslot.integral.1 hx
      rw [Decimal.le_iff hzero.1.1 hxn, Decimal.lt_iff hxn hsize, hxa]
      exact ⟨(Decimal.le_iff hzero.1.1 hslot.integral.1).1 hnonneg, hvalues⟩
    have htext : (Role.max e).text ≠ "general" := by simp [Role.text]
    simp only [Role.Holds, htext, false_implies, and_true, ← hvalue]
    constructor
    · intro hwrites
      split at hwrites
      · next x hx => exact ⟨x, hx, (Bool.and_eq_true_iff.1 hwrites).2⟩
      · cases hwrites
    · rintro ⟨x, hx, hxa⟩
      rw [hx]
      change (decide ((0.0 : Float) ≤ x) && decide (x < size) && (x == a)) = true
      rw [decide_eq_true (hin hxa).1, decide_eq_true (hin hxa).2, hxa]
      rfl

/-- The last block of a group that writes a slot. -/
theorem writer?_eq {α : Type} [Carrier α] (g : LayerGroup) (env : Env α) (size a : α) :
    g.writer? env size a =
      (((g.find? "max").filter (g.writes env size a)).or
        (((g.find? "general").filter (g.writes env size a)).or
          ((g.find? "zero").filter (g.writes env size a)))).map (·.rule) := by
  have hlast (o : Option LayerRule) (p : LayerRule → Bool) :
      (o.toList.filter p).getLast? = o.filter p := by
    cases o with
    | none => rfl
    | some lr => cases h : p lr <;> simp [Option.filter, h]
  rw [LayerGroup.writer?, LayerGroup.blocks]
  simp only [List.filter_append, List.getLast?_append, hlast]

/-- No rule of a group writes a slot if none of them holds there. -/
theorem writer?_eq_none {α : Type} [Carrier α] {g : LayerGroup} {env : Env α} {size a : α}
    (h : ∀ lr ∈ g.rules, g.writes env size a lr = false) : g.writer? env size a = none := by
  have hfind (t : String) : (g.find? t).filter (g.writes env size a) = none := by
    rw [Option.filter_eq_none_iff]
    intro lr hlr
    rw [h lr (List.mem_of_find?_eq_some hlr)]
    exact Bool.false_ne_true
  rw [writer?_eq, hfind, hfind, hfind]
  rfl

/-- With a rule for slot zero, no loop writes that slot. -/
theorem Planned.general_leaves_zero (hplan : r.Planned padding plan) {g : LayerGroup}
    (hg : g ∈ plan.groups) (hzero : (g.find? "zero").isSome) (hslot : IsSlot a) (hlt : a < size)
    (ha : toInt a = 0) :
    (g.find? "general").filter (g.writes (r.layerEnvAt plan.aux point) size a) = none := by
  rw [Option.filter_eq_none_iff]
  intro lr hlr hw
  obtain ⟨hmem, htext⟩ := (hplan.gathered.find?_eq_some hg).1 hlr
  exact ((hplan.writes_iff hg hmem hslot hlt).1 hw).2 htext hzero ha

/-- **The rule of a group that holds with the most equalities writes last.** -/
theorem AtSlot.writer?_eq_some (hplan : r.Planned padding plan) (haux : r.AuxBounded plan)
    (h : r.AtSlot plan point size a) {g : LayerGroup} (hg : g ∈ plan.groups) {lr : LayerRule}
    (hlr : lr ∈ g.rules) (hrole : lr.role.Holds (r.pointEnv point) a)
    (hmost : ∀ lr' ∈ g.rules, lr'.role.Holds (r.pointEnv point) a →
      lr'.role.equalities ≤ lr.role.equalities) :
    g.writer? (r.layerEnvAt plan.aux point) size a = some lr.rule := by
  have hfind {lr : LayerRule} {t : String} : g.find? t = some lr ↔ lr ∈ g.rules ∧ lr.role.text = t :=
    hplan.gathered.find?_eq_some hg
  have hwrites {lr : LayerRule} (hlr : lr ∈ g.rules) :=
    @Planned.writes_iff r plan padding point size a hplan g hg lr hlr h.isSlot h.lt
  rw [writer?_eq]
  cases hr : lr.role with
  | max e =>
    have hmax : g.find? "max" = some lr := hfind.2 ⟨hlr, by rw [hr]; rfl⟩
    have hw := (hwrites hlr).2 ⟨hrole, by simp [hr, Role.text]⟩
    simp [hmax, hw, Option.filter]
  | zero =>
    have hzero : g.find? "zero" = some lr := hfind.2 ⟨hlr, by rw [hr]; rfl⟩
    have hmax : g.find? "max" = none := (haux.roles g hg).resolve_left (by simp [hzero])
    have hw := (hwrites hlr).2 ⟨hrole, by simp [hr, Role.text]⟩
    rw [hr] at hrole
    rw [hmax, hplan.general_leaves_zero hg (by simp [hzero]) h.isSlot h.lt hrole, hzero]
    simp [hw, Option.filter]
  | general start =>
    have hgeneral : g.find? "general" = some lr := hfind.2 ⟨hlr, by rw [hr]; rfl⟩
    have hmax : (g.find? "max").filter (g.writes (r.layerEnvAt plan.aux point) size a) = none := by
      rw [Option.filter_eq_none_iff]
      intro lr' hlr' hw
      obtain ⟨hmem, htext⟩ := hfind.1 hlr'
      have hle := hmost lr' hmem ((hwrites hmem).1 hw).1
      cases hr' : lr'.role <;> simp_all [Role.text, Role.equalities]
    have hslot : (g.find? "zero").isSome → toInt a ≠ 0 := by
      intro hsome ha
      obtain ⟨lr', hlr'⟩ := Option.isSome_iff_exists.1 hsome
      have hr' := LayerGroup.zero_of_find? hlr'
      have hle := hmost lr' (hfind.1 hlr').1 (by rw [hr']; exact ha)
      rw [hr, hr'] at hle
      simp [Role.equalities] at hle
    have hw := (hwrites hlr).2 ⟨hrole, fun _ => hslot⟩
    rw [hmax, hgeneral]
    simp [hw, Option.filter]

/-- A point whose layer is one of the base cases'. -/
def AtBaseLayer (r : Recurrence) (plan : LayerPlan) (point : List Float) : Prop :=
  ∃ l ∈ plan.baseLayers, (BaseLayer.guard plan.layerIndices l).holds (r.pointEnv point) = .ok true

instance (r : Recurrence) (plan : LayerPlan) (point : List Float) :
    Decidable (r.AtBaseLayer plan point) :=
  decidable_of_iff (∃ l ∈ plan.baseLayers,
    ((BaseLayer.guard plan.layerIndices l).holds (r.pointEnv point)).toOption = some true)
    (exists_congr fun _ => and_congr_right fun _ => toOption_eq_some_iff)

/-- **The rule that writes a slot last is the first that holds there**, and no block writes it if none does. -/
theorem AtSlot.writer?_eq_selected (hr : r.WellFormed) (hplan : r.Planned padding plan) (haux : r.AuxBounded plan)
    (h : r.AtSlot plan point size a) {o : Option Rule}
    (ho : r.selectRule (r.pointEnv point) r.sortedRules = .ok o) :
    plan.writer? r (r.layerEnvAt plan.aux point) size a = o := by
  cases o with
  | some ρ =>
    obtain ⟨g, hg, hgroup, lr, hlr, rfl, hrole, hmost⟩ := h.groupAt? hr hplan haux ho
    rw [LayerPlan.writer?, hgroup]
    exact h.writer?_eq_some hplan haux hg hlr hrole hmost
  | none =>
    have hnone := selectRule_eq_ok ho
    rw [LayerPlan.writer?, Option.bind_eq_none_iff]
    intro g hgroup
    obtain ⟨hguard, -⟩ := groupAt?_eq_some.1 hgroup
    have hg : g ∈ plan.groups := List.mem_of_find?_eq_some hgroup
    refine writer?_eq_none fun lr hlr => ?_
    rw [← Bool.not_eq_true, hplan.writes_iff hg hlr h.isSlot h.lt]
    rintro ⟨hrole, -⟩
    exact hnone _ (hplan.gathered.member g hg lr hlr).1
      ((h.rule_holds hr hplan haux hg hlr).2 ⟨hguard, hrole⟩)

/-- Outside the base layers the first rule that holds is selected. -/
theorem Planned.selected_rule {s : Selection} (hr : r.WellFormed) (hplan : r.Planned padding plan)
    (hbase : ¬ r.AtBaseLayer plan point) (hs : r.select (r.pointEnv point) = .ok s) :
    ∃ o, r.selectRule (r.pointEnv point) r.sortedRules = .ok o ∧ s = .ofRule? o := by
  obtain ⟨ob, hob, hs⟩ := bind_ok hs
  cases ob with
  | some b =>
    obtain ⟨hmem, hmatch⟩ := selectBase_eq_some hob
    exact absurd (hplan.baseLayer_of_matches hr hmem hmatch) hbase
  | none =>
    obtain ⟨o, ho, hs⟩ := bind_ok hs
    refine ⟨o, ho, ?_⟩
    cases o <;> exact (Except.ok.inj hs).symm

/-- **Layered code and selection choose the same rule**: outside the base layers, the rule that writes
a slot last in the first group whose guard holds is the one that is selected at the slot, and no block
writes it exactly if none is. -/
theorem select_eq_writer {s : Selection} (hr : r.Built) (hplan : r.planLayers padding = .ok plan)
    (haux : r.AuxBounded plan) (h : r.AtSlot plan point size a) (hbase : ¬ r.AtBaseLayer plan point)
    (hs : r.select (r.pointEnv point) = .ok s) :
    s = .ofRule? (plan.writer? r (r.layerEnvAt plan.aux point) size a) := by
  have hr := hr.wellFormed
  have hplan := planned_of_planLayersIn hplan
  obtain ⟨o, ho, rfl⟩ := hplan.selected_rule hr hbase hs
  rw [h.writer?_eq_selected hr hplan haux ho]

end

/-! ## A layer where they agree, and one beyond exact numbers -/

/-- A recurrence on layers `n` with slots `t`, and its plan. -/
def planOf (steps : List Step) : Except Error (Recurrence × LayerPlan) := do
  let r ← create "Path" ["n", "t"] [] { auxIndex := some "t" }
  let r ← r.build steps
  let plan ← r.planLayers (.whole 0)
  return (r, plan)

theorem planOf_eq_ok {steps : List Step} {p : Recurrence × LayerPlan} (h : planOf steps = .ok p) :
    p.1.Built ∧ p.1.planLayers (.whole 0) = .ok p.2 := by
  obtain ⟨r, hr, h⟩ := bind_ok h
  obtain ⟨r', hr', h⟩ := bind_ok h
  obtain ⟨plan, hplan, h⟩ := bind_ok h
  cases h
  exact ⟨(Built.create hr).build hr', hplan⟩

/-- A rule for slot zero and one for the others. -/
def pathSteps : List Step :=
  [.validity ["n >= 0", "t >= 0", "t <= n"], .base [("n", 0), ("t", 0)] (.number 1),
    .rule "n > 0 && t == 0" "E[n-1, t+1]" none none,
    .rule "n > 0 && t > 0" "E[n-1, t-1]" none none]

/-- In layer one of the path, slot one is written by the rule that is selected. -/
theorem select_eq_writer_path : ∃ r plan size s,
    planOf pathSteps = .ok (r, plan) ∧ r.AtSlot plan [1, 1] size 1 ∧
      r.select (r.pointEnv [(1 : Float), 1]) = .ok s ∧
      s = .ofRule? (plan.writer? r (r.layerEnvAt plan.aux [1, 1]) size 1) := by
  have hcheck : ((planOf pathSteps).toOption.any fun p =>
      decide (p.1.AuxBounded p.2) && !decide (p.1.AtBaseLayer p.2 [1, 1]) &&
      p.1.indices == ["n", "t"] && p.2.aux == "t" &&
      (upperLimit? p.2.aux p.1.validity.constraints).all (fun l =>
        (eval (p.1.layerEnvAt p.2.aux [1, 1]) l.2).toOption.any isWhole) &&
      (eval (p.1.layerEnvAt p.2.aux [1, 1]) p.2.bound.expr).toOption.any (fun size =>
        isWhole size && decide (toInt size ≤ exactLimit) && decide ((1 : Float) < size)) &&
      (p.1.select (p.1.pointEnv [(1 : Float), 1])).toOption.any fun _ => true) = true := by
    decide +kernel
  obtain ⟨⟨r, plan⟩, hrun, hcheck⟩ := exists_ok_of_any hcheck
  obtain ⟨hbuilt, hplan⟩ := planOf_eq_ok hrun
  simp only [Bool.and_eq_true, decide_eq_true_eq, Bool.not_eq_true', decide_eq_false_iff_not,
    beq_iff_eq] at hcheck
  obtain ⟨⟨⟨⟨⟨⟨haux, hbase⟩, hindices⟩, hname⟩, hlimit⟩, hsize⟩, hselect⟩ := hcheck
  obtain ⟨size, hsize, hbounds⟩ := exists_ok_of_any hsize
  obtain ⟨s, hs, -⟩ := exists_ok_of_any hselect
  simp only [Bool.and_eq_true, decide_eq_true_eq] at hbounds
  have hslot : r.AtSlot plan [1, 1] size 1 := {
    whole := by decide +kernel
    limit := fun l hl => exists_ok_of_any (by rw [hl] at hlimit; exact hlimit)
    sized := hsize
    wholeSize := hbounds.1.1
    countable := hbounds.1.2
    aux := by simp [pointEnv, hindices, hname]
    nonneg := by decide +kernel
    lt := hbounds.2 }
  exact ⟨r, plan, size, s, hrun, hslot, hs, select_eq_writer hbuilt hplan haux hslot hbase hs⟩

/-- Layers whose limit is a little below the layer. -/
def roundedLimitSteps : List Step :=
  [.validity ["t >= 0", "t <= n - 1e-20"], .base [("n", 1), ("t", 0)] (.number 7),
    .rule "n <= 0 && n >= 0" "E[n+1, t]" none none]

/-- **The limit must be a whole number**: in layer zero it is `-1e-20`, one more is rounded to one,
and so there is a slot zero, which the rule writes but which is outside of the validity. -/
theorem select_ne_writer : ∃ r plan size,
    planOf roundedLimitSteps = .ok (r, plan) ∧ r.AuxBounded plan ∧ ¬ r.AtBaseLayer plan [0, 0] ∧
      eval (r.layerEnvAt plan.aux [(0 : Float), 0]) plan.bound.expr = .ok size ∧
      isWhole size = true ∧ (0 : Float) < size ∧
      r.select (r.pointEnv [(0 : Float), 0]) = .ok .primary ∧
      (plan.writer? r (r.layerEnvAt plan.aux [0, 0]) size 0).isSome := by
  have hcheck : ((planOf roundedLimitSteps).toOption.any fun p =>
      decide (p.1.AuxBounded p.2) && !decide (p.1.AtBaseLayer p.2 [0, 0]) &&
      (p.1.select (p.1.pointEnv [(0 : Float), 0])).toOption.any (· matches .primary) &&
      (eval (p.1.layerEnvAt p.2.aux [(0 : Float), 0]) p.2.bound.expr).toOption.any fun size =>
        isWhole size && decide ((0 : Float) < size) &&
        (p.2.writer? p.1 (p.1.layerEnvAt p.2.aux [0, 0]) size 0).isSome) = true := by
    decide +kernel
  obtain ⟨⟨r, plan⟩, hrun, hcheck⟩ := exists_ok_of_any hcheck
  simp only [Bool.and_eq_true, decide_eq_true_eq, Bool.not_eq_true', decide_eq_false_iff_not]
    at hcheck
  obtain ⟨⟨⟨haux, hbase⟩, hselect⟩, hsize⟩ := hcheck
  obtain ⟨size, hsize, hbounds⟩ := exists_ok_of_any hsize
  obtain ⟨s, hs, hprimary⟩ := exists_ok_of_any hselect
  have hs : r.select (r.pointEnv [(0 : Float), 0]) = .ok .primary := by
    cases s with
    | primary => exact hs
    | base | rule => cases hprimary
  simp only [Bool.and_eq_true, decide_eq_true_eq] at hbounds
  exact ⟨r, plan, size, hrun, haux, hbase, hsize, hbounds.1.1, hbounds.1.2, hs, hbounds.2⟩

/-- Layer zero reads layer one, in a rule for the one slot `-n`. -/
def oppositeSteps : List Step :=
  [.validity ["t >= 0", "t <= n"], .base [("n", 1), ("t", 0)] (.number 1),
    .rule "n <= 0 && n >= 0 && t == -n" "(1/t)*E[n+1, t]" none none]

/-- **The right rule for a slot is not enough for its value**: in layer zero the slot `-n` is computed as
a negative zero. The rule that is selected there writes it, but what it divides by has the other sign
than the index of the point has. -/
theorem negative_zero_slot : ∃ r plan c x y, planOf oppositeSteps = .ok (r, plan) ∧
    ({} : Catalog).register r userModule = .ok c ∧
    (plan.writer? r (r.layerEnvAt plan.aux [(0 : Float), 0]) 1 0).isSome ∧
    (∃ rule, r.select (r.pointEnv [(0 : Float), 0]) = .ok (.rule rule)) ∧
    c.evaluate r.name [(0 : Float), 0] (fun _ => none) true = .ok x ∧ x < 0 ∧
    (∃ depth, r.interpretTo depth (fun _ => none) (fun _ => none) [(0 : Float), 0] = .ok y) ∧
    0 < y := by
  have hcheck : ((planOf oppositeSteps).toOption.any fun p =>
      (({} : Catalog).register p.1 userModule).toOption.any fun c =>
        (p.2.writer? p.1 (p.1.layerEnvAt p.2.aux [(0 : Float), 0]) 1 0).isSome &&
        decide ([(0 : Float), 0].length = p.1.indices.length) &&
        (p.1.select (p.1.pointEnv [(0 : Float), 0])).toOption.any (· matches .rule _) &&
        (c.evaluate p.1.name [(0 : Float), 0] (fun _ => none) true).toOption.any (· < 0) &&
        (recurse (fun _ => none) (fun _ => none) 2 p.1 [(0 : Float), 0]).toOption.any (0 < ·)) =
      true := by
    decide +kernel
  obtain ⟨⟨r, plan⟩, hrun, hcheck⟩ := exists_ok_of_any hcheck
  obtain ⟨c, hc, hcheck⟩ := exists_ok_of_any hcheck
  simp only [Bool.and_eq_true, decide_eq_true_eq] at hcheck
  obtain ⟨⟨⟨⟨hwriter, hrank⟩, hselect⟩, hlayered⟩, hrecurse⟩ := hcheck
  obtain ⟨s, hs, hrule⟩ := exists_ok_of_any hselect
  obtain ⟨x, hx, hneg⟩ := exists_ok_of_any hlayered
  obtain ⟨y, hy, hpos⟩ := exists_ok_of_any hrecurse
  have hresolve : Resolver.Faithful (fun _ => none) r := ⟨nofun, nofun⟩
  have hpoint : NoNegativeZero [0, 0] := List.forall_mem_iff_get.2 (by decide +kernel)
  have hinterpret := (Derivable.of_recurse hy).interpretTo_eq_ok hresolve hrank hpoint
  cases s with
  | rule rule =>
    exact ⟨r, plan, c, x, y, hrun, hc, hwriter, ⟨rule, hs⟩, hx, of_decide_eq_true hneg, hinterpret,
      of_decide_eq_true hpos⟩
  | base | primary => cases hrule

end Recurrence

end RecurrenceCompiler
