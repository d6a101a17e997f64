import RecurrenceCompiler.Proofs.Constraint.Bounds
import RecurrenceCompiler.Proofs.Recurrence.Built
import RecurrenceCompiler.Recurrence.Selection

/-!
# Selection by order and by exclusive guards

Selection tries the cases in order. Code that cannot do so tests for each rule its full guard and that
none of its exclusions holds (`RuleGuard.Enabled`). The exclusions leave out earlier cases that are
provably disjoint, and the validity of earlier rules; where the constraints can be decided at integral
indices this changes nothing, and a rule is enabled exactly where it is selected
(`enabled_iff_selected`).
-/

namespace RecurrenceCompiler

open Text Decimal Arith

/-- The guard of a rule holds and none of the cases that it excludes does. -/
def RuleGuard.Enabled {α : Type} [Carrier α] (g : RuleGuard) (env : Env α) : Prop :=
  g.guard.holds env = .ok true ∧ ∀ e ∈ g.exclusions, e.holds env ≠ .ok true

namespace Recurrence

/-! ## Priority -/

/-- More equalities come first, then more constraints, then the smaller index. -/
theorem priorityLe_iff {g h : Guard} {i j : Nat} :
    priorityLe g i h j = true ↔ h.equalities < g.equalities ∨ g.equalities = h.equalities ∧
      (h.size < g.size ∨ g.size = h.size ∧ i ≤ j) := by
  rw [priorityLe]
  split
  · next he =>
    have he : g.equalities ≠ h.equalities := by simpa using he
    simp [he]
  · next he =>
    have he : g.equalities = h.equalities := by simpa using he
    split
    · next hs =>
      have hs : g.size ≠ h.size := by simpa using hs
      simp [he, hs]
    · next hs =>
      have hs : g.size = h.size := by simpa using hs
      simp [he, hs]

/-- Sorting puts rules in the order of priority. -/
theorem pairwise_sortRules (rules : List Rule) :
    (sortRules rules).Pairwise fun a b => priorityLe a.guard a.index b.guard b.index = true := by
  refine pairwise_sortBy (fun a b c hab hbc => ?_) (fun a b => ?_) rules
  · rw [priorityLe_iff] at *
    omega
  · rw [priorityLe_iff, priorityLe_iff]
    omega

/-- Rules are tried in the order of priority. -/
theorem pairwise_sortedRules (r : Recurrence) :
    r.sortedRules.Pairwise fun a b => priorityLe a.guard a.index b.guard b.index = true :=
  pairwise_sortRules r.rules

theorem sortedRules_perm (r : Recurrence) : r.sortedRules.Perm r.rules :=
  sortBy_perm _ _

/-- The rules that are tried have distinct indices. -/
theorem WellFormed.nodup_sortedRules {r : Recurrence} (hr : r.WellFormed) :
    (r.sortedRules.map (·.index)).Nodup := by
  rw [(r.sortedRules_perm.map _).nodup_iff, hr.numbered]
  exact List.nodup_range

/-! ## The case that is selected -/

section
variable {α : Type} [Carrier α] {r : Recurrence} {env : Env α}

/-- With one slot for each index, matching is that the equalities hold. -/
theorem matchesBase_eq {b : BaseCase} (hslots : b.slots.length = r.indices.length) :
    r.matchesBase env b = (r.baseGuard b).holds env := by
  rw [matchesBase, ← hslots, List.take_length, List.drop_length]
  change ((r.baseGuard b).holds env >>= _) = _
  cases h : (r.baseGuard b).holds env with
  | error e => rfl
  | ok m => cases m <;> rfl

/-- A base case that is selected matches. -/
theorem selectBase_eq_some {bases : List BaseCase} {i : Nat} {p : Nat × BaseCase}
    (h : r.selectBase env i bases = .ok (some p)) :
    p.2 ∈ bases ∧ r.matchesBase env p.2 = .ok true := by
  induction bases generalizing i with
  | nil => cases h
  | cons b bases ih =>
    obtain ⟨m, hm, h⟩ := bind_ok h
    cases m with
    | true =>
      cases h
      exact ⟨List.mem_cons_self .., hm⟩
    | false =>
      obtain ⟨hmem, hmatch⟩ := ih h
      exact ⟨List.mem_cons_of_mem _ hmem, hmatch⟩

/-- No base case is selected exactly if each is found not to match. -/
theorem selectBase_eq_none {bases : List BaseCase} {i : Nat} :
    r.selectBase env i bases = .ok none ↔ ∀ b ∈ bases, r.matchesBase env b = .ok false := by
  induction bases generalizing i with
  | nil => simp [selectBase]
  | cons b bases ih =>
    rw [List.forall_mem_cons, ← ih (i := i + 1)]
    constructor
    · intro h
      obtain ⟨m, hm, h⟩ := bind_ok h
      cases m with
      | true => cases h
      | false => exact ⟨hm, h⟩
    · rintro ⟨hb, hbases⟩
      rw [selectBase, hb]
      exact hbases

/-- The rule that is selected is the first that holds. -/
theorem selectRule_eq_ok {rules : List Rule} {o : Option Rule}
    (h : r.selectRule env rules = .ok o) :
    match o with
    | some ρ => ∃ before after, rules = before ++ ρ :: after ∧
        (r.fullGuard ρ).holds env = .ok true ∧ ∀ σ ∈ before, (r.fullGuard σ).holds env ≠ .ok true
    | none => ∀ σ ∈ rules, (r.fullGuard σ).holds env ≠ .ok true := by
  induction rules with
  | nil =>
    cases h
    simp
  | cons rule rules ih =>
    obtain ⟨b, hb, h⟩ := bind_ok h
    cases b with
    | true =>
      cases h
      exact ⟨[], rules, rfl, hb, by simp⟩
    | false =>
      have hfalse : (r.fullGuard rule).holds env ≠ .ok true := by
        rw [hb]
        simp
      have ih := ih h
      cases o with
      | none => exact List.forall_mem_cons.2 ⟨hfalse, ih⟩
      | some ρ =>
        obtain ⟨before, after, heq, hρ, hbefore⟩ := ih
        exact ⟨rule :: before, after, by rw [heq]; rfl, hρ,
          List.forall_mem_cons.2 ⟨hfalse, hbefore⟩⟩

/-- A rule that holds is selected if those before it are found not to hold. -/
theorem selectRule_of_first {before after : List Rule} {ρ : Rule}
    (hbefore : ∀ σ ∈ before, (r.fullGuard σ).holds env = .ok false)
    (hρ : (r.fullGuard ρ).holds env = .ok true) :
    r.selectRule env (before ++ ρ :: after) = .ok (some ρ) := by
  induction before with
  | nil =>
    rw [List.nil_append, selectRule, hρ]
    rfl
  | cons σ before ih =>
    obtain ⟨hσ, hbefore⟩ := List.forall_mem_cons.1 hbefore
    rw [List.cons_append, selectRule, hσ]
    exact ih hbefore

/-- A case that is selected is one of the recurrence. -/
theorem mem_of_select {chosen : Selection} (h : r.select env = .ok chosen) :
    match chosen with
    | .base _ b => b ∈ r.bases
    | .rule ρ => ρ ∈ r.rules
    | .primary => True := by
  obtain ⟨ob, hob, h⟩ := bind_ok h
  cases ob with
  | some p =>
    cases h
    exact (selectBase_eq_some hob).1
  | none =>
    obtain ⟨o, ho, h⟩ := bind_ok h
    cases o with
    | none =>
      cases h
      trivial
    | some ρ =>
      cases h
      obtain ⟨before, after, heq, -⟩ := selectRule_eq_ok ho
      exact r.sortedRules_perm.mem_iff.1 (heq ▸ List.mem_append_right _ (List.mem_cons_self ..))

/-- A rule is selected where no base case matches and it is the first rule that holds. -/
theorem select_eq_rule_iff {ρ : Rule} : r.select env = .ok (.rule ρ) ↔
    r.selectBase env 0 r.bases = .ok none ∧ r.selectRule env r.sortedRules = .ok (some ρ) := by
  constructor
  · intro h
    obtain ⟨ob, hob, h⟩ := bind_ok h
    cases ob with
    | some b => cases h
    | none =>
      obtain ⟨o, ho, h⟩ := bind_ok h
      cases o with
      | none => cases h
      | some σ =>
        cases h
        exact ⟨hob, ho⟩
  · rintro ⟨hbase, hrule⟩
    rw [select, hbase]
    change (r.selectRule env r.sortedRules >>= _) = _
    rw [hrule]
    rfl

end

/-! ## Guards with exclusions -/

/-- What an entry of a rule's guards is made of: the rules before it and the cases that it excludes. -/
theorem mem_guardsAfter {r : Recurrence} {earlier : List Guard} {rules : List Rule} {g : RuleGuard}
    (h : g ∈ r.guardsAfter earlier rules) : ∃ before after, rules = before ++ g.rule :: after ∧
      g.guard = r.fullGuard g.rule ∧
      g.exclusions = (earlier ++ before.map (·.guard)).filter fun e => !g.guard.provablyDisjoint e := by
  induction rules generalizing earlier with
  | nil => cases h
  | cons rule rules ih =>
    rw [guardsAfter, List.mem_cons] at h
    rcases h with rfl | h
    · exact ⟨[], rules, rfl, rfl, by simp⟩
    · obtain ⟨before, after, rfl, hguard, hex⟩ := ih h
      exact ⟨rule :: before, after, rfl, hguard, by simpa using hex⟩

/-- There is one entry for each rule, by priority. -/
theorem map_rule_ruleGuards (r : Recurrence) : r.ruleGuards.map (·.rule) = r.sortedRules := by
  have h : ∀ (rules : List Rule) (earlier : List Guard),
      (r.guardsAfter earlier rules).map (·.rule) = rules := by
    intro rules
    induction rules with
    | nil => exact fun _ => rfl
    | cons rule rules ih => exact fun earlier => congrArg (rule :: ·) (ih _)
  exact h _ _

/-! ## Environments that decide -/

/-- The guards of a recurrence: its validity and those of its rules and base cases. -/
def guards (r : Recurrence) : List Guard :=
  r.validity :: r.rules.map (·.guard) ++ r.bases.map r.baseGuard

/-- The indices have integral values, and every constraint can be evaluated. -/
structure Decides (r : Recurrence) (env : Env Float) : Prop where
  whole : ∀ i ∈ r.indices, ∃ x, env i = some x ∧ isWhole x = true
  evaluates : ∀ g ∈ r.guards, ∀ c ∈ g.constraints, ∃ b, c.holds env = .ok b

/-- A guard whose constraints can be evaluated holds or does not. -/
theorem holds_eq_false_of_ne {α : Type} [Carrier α] {env : Env α} {g : Guard}
    (h : ∀ c ∈ g.constraints, ∃ b, c.holds env = .ok b) (hne : g.holds env ≠ .ok true) :
    g.holds env = .ok false := by
  obtain ⟨cs⟩ := g
  change Guard.allHold env cs ≠ .ok true at hne
  change Guard.allHold env cs = .ok false
  induction cs with
  | nil => exact absurd rfl hne
  | cons c cs ih =>
    obtain ⟨⟨b, hb⟩, hcs⟩ := List.forall_mem_cons.1 h
    rw [Guard.allHold, hb] at hne ⊢
    cases b with
    | false => rfl
    | true => exact ih hcs hne

section
variable {r : Recurrence} {env : Env Float}

/-- The name of a bound stands on one of the sides, where the other is an integer. -/
theorem name_of_bound? {c : Constraint} {b : Bound} (h : c.bound? = some b) :
    isIdentifier b.name ∧ (b.name = c.left ∨ b.name = c.right ∧ isInteger c.left.toList) := by
  rw [Constraint.bound?] at h
  split at h
  · next hname =>
    cases h
    exact ⟨(Bool.and_eq_true_iff.1 hname).1, .inl rfl⟩
  · split at h
    · next hname =>
      cases h
      obtain ⟨hid, hint⟩ := Bool.and_eq_true_iff.1 hname
      exact ⟨hid, .inr ⟨rfl, hint⟩⟩
    · cases h

/-- A name mentions itself. -/
theorem mem_namesIn_identifier {n : String} (h : isIdentifier n) : n ∈ namesIn n := by
  rw [isIdentifier] at h
  cases hn : n.toList with
  | nil =>
    rw [hn] at h
    cases h
  | cons c cs =>
    rw [hn] at h
    obtain ⟨hc, hcs⟩ := Bool.and_eq_true_iff.1 h
    have hpieces : pieces (c :: cs ++ []) = .name (c :: cs) :: pieces [] :=
      pieces_name hc hcs (by simp)
    rw [List.append_nil] at hpieces
    rw [namesIn, mem_distinct, hn, hpieces, ← hn]
    simp [Piece.name?]

/-- An integer is no name. -/
theorem not_isInteger_of_isIdentifier {n : String} (h : isIdentifier n) :
    isInteger n.toList = false := by
  rw [← Bool.not_eq_true]
  intro hint
  obtain ⟨x, hx, -⟩ := hasValue_integer (fun _ => none) hint
  exact absurd ((hasValue_identifier h).1 hx) (by simp)

/-- A bound in a guard that mentions indices only is on an index. -/
theorem mem_indices_of_over {g : Guard} (hg : g.Over r.indices) {b : Bound} (hb : b ∈ g.bounds) :
    b.name ∈ r.indices := by
  obtain ⟨c, hc, hcb⟩ := List.mem_filterMap.1 hb
  obtain ⟨hid, hname⟩ := name_of_bound? hcb
  have hmem := mem_namesIn_identifier hid
  refine hg c hc _ (List.mem_append.2 ?_)
  rcases hname with hname | ⟨hname, -⟩
  · exact .inl (hname ▸ hmem)
  · exact .inr (hname ▸ hmem)

/-- The equalities of a list of slots are those of the indices that are bound. -/
theorem mem_slotEqualities_iff {indices : List String} {slots : List (Option Whole)} {c : Constraint}
    (hlen : slots.length = indices.length) : c ∈ slotEqualities indices slots ↔
      ∃ (k : Nat) (i : String) (w : Whole), indices[k]? = some i ∧ slots[k]? = some (some w) ∧
        c = .equals i w.toInt := by
  fun_induction slotEqualities indices slots with
  | case1 i indices v slots ih =>
    rw [List.mem_cons, ih (by simpa using hlen)]
    constructor
    · rintro (rfl | ⟨k, h⟩)
      · exact ⟨0, i, v, rfl, rfl, rfl⟩
      · exact ⟨k + 1, h⟩
    · rintro ⟨k, j, w, hi, hw, rfl⟩
      cases k with
      | zero =>
        cases hi
        cases hw
        exact .inl rfl
      | succ k => exact .inr ⟨k, j, w, hi, hw, rfl⟩
  | case2 i indices slots ih =>
    rw [ih (by simpa using hlen)]
    constructor
    · rintro ⟨k, h⟩
      exact ⟨k + 1, h⟩
    · rintro ⟨k, j, w, hi, hw, rfl⟩
      cases k with
      | zero => cases hw
      | succ k => exact ⟨k, j, w, hi, hw, rfl⟩
  | case3 | case4 => simp at hlen
  | case5 => simp

/-- The equalities of a list of slots are between indices and the integers in the slots. -/
theorem mem_slotEqualities {indices : List String} {slots : List (Option Whole)} {c : Constraint}
    (hlen : slots.length = indices.length) (h : c ∈ slotEqualities indices slots) :
    ∃ i ∈ indices, ∃ w, some w ∈ slots ∧ c = .equals i w.toInt := by
  obtain ⟨_, i, w, hi, hw, hc⟩ := (mem_slotEqualities_iff hlen).1 h
  exact ⟨i, List.mem_of_getElem? hi, w, List.mem_of_getElem? hw, hc⟩

/-- Only indices are bounded, by validity, rules and base cases alike. -/
theorem WellFormed.mem_indices_of_bound (hr : r.WellFormed) {g : Guard} (hg : g ∈ r.guards)
    {b : Bound} (hb : b ∈ g.bounds) : b.name ∈ r.indices := by
  rcases List.mem_append.1 hg with hg | hg
  · refine mem_indices_of_over ?_ hb
    rcases List.mem_cons.1 hg with rfl | hg
    · exact hr.validity
    · obtain ⟨ρ, hρ, rfl⟩ := List.mem_map.1 hg
      exact hr.guards ρ hρ
  · obtain ⟨base, hbase, rfl⟩ := List.mem_map.1 hg
    obtain ⟨c, hc, hcb⟩ := List.mem_filterMap.1 hb
    obtain ⟨i, hi, w, -, rfl⟩ := mem_slotEqualities (hr.slots base hbase) hc
    rcases (name_of_bound? hcb).2 with hname | ⟨-, hint⟩
    · exact hname ▸ hi
    · rw [Constraint.equals, not_isInteger_of_isIdentifier (hr.identifiers i hi)] at hint
      cases hint

theorem Decides.boundsIntegral (henv : r.Decides env) (hr : r.WellFormed) {g : Guard}
    (hg : g ∈ r.guards) : g.BoundsIntegral env := by
  intro b hb x hx
  obtain ⟨y, hy, hwhole⟩ := henv.whole _ (hr.mem_indices_of_bound hg hb)
  obtain rfl := Option.some.inj (hx.symm.trans hy)
  exact (isIntegral_of_isWhole hwhole).2

theorem rule_mem_guards {ρ : Rule} (h : ρ ∈ r.sortedRules) : ρ.guard ∈ r.guards := by
  have hmem := List.mem_map_of_mem (f := (·.guard)) (r.sortedRules_perm.mem_iff.1 h)
  simp only [guards, List.mem_append, List.mem_cons]
  exact .inl (.inr hmem)

theorem base_mem_guards {b : BaseCase} (h : b ∈ r.bases) : r.baseGuard b ∈ r.guards :=
  List.mem_append_right _ (List.mem_map_of_mem h)

theorem Decides.fullGuard (henv : r.Decides env) {ρ : Rule} (h : ρ ∈ r.sortedRules) :
    ∀ c ∈ (r.fullGuard ρ).constraints, ∃ b, c.holds env = .ok b :=
  List.forall_mem_append.2 ⟨henv.evaluates _ (rule_mem_guards h),
    henv.evaluates _ (by simp [guards])⟩

/-- The constraints of a rule's entry, exclusions included, are those of the recurrence. -/
theorem constraints_of_ruleGuard {g : RuleGuard} (hg : g ∈ r.ruleGuards) {e : Guard}
    (he : e ∈ g.guard :: g.exclusions) {c : Constraint} (hc : c ∈ e.constraints) :
    ∃ h ∈ r.guards, c ∈ h.constraints := by
  obtain ⟨before, after, hsorted, hguard, hex⟩ := mem_guardsAfter hg
  rcases List.mem_cons.1 he with rfl | he
  · rw [hguard] at hc
    rcases List.mem_append.1 hc with hc | hc
    · exact ⟨_, rule_mem_guards (by simp [hsorted]), hc⟩
    · exact ⟨_, by simp [guards], hc⟩
  · rw [hex, List.mem_filter, List.mem_append] at he
    rcases he.1 with he | he
    · obtain ⟨b, hb, rfl⟩ := List.mem_map.1 he
      exact ⟨_, base_mem_guards hb, hc⟩
    · obtain ⟨ρ, hρ, rfl⟩ := List.mem_map.1 he
      exact ⟨_, rule_mem_guards (by simp [hsorted, hρ]), hc⟩

/-! ## Exclusive guards -/

/-- Leaving out provably disjoint cases changes nothing: **an enabled rule excludes every earlier
case**. -/
theorem enabled_iff (hr : r.WellFormed) (henv : r.Decides env) {g : RuleGuard}
    (hg : g ∈ r.ruleGuards) : ∃ before after, r.sortedRules = before ++ g.rule :: after ∧
      (g.Enabled env ↔ (r.fullGuard g.rule).holds env = .ok true ∧
        (∀ b ∈ r.bases, (r.baseGuard b).holds env ≠ .ok true) ∧
        ∀ ρ ∈ before, ρ.guard.holds env ≠ .ok true) := by
  obtain ⟨before, after, hsorted, hguard, hex⟩ := mem_guardsAfter hg
  refine ⟨before, after, hsorted, ?_⟩
  have hmem : ∀ ρ ∈ before ++ [g.rule], ρ ∈ r.sortedRules := by
    intro ρ hρ
    rw [hsorted]
    rcases List.mem_append.1 hρ with hρ | hρ
    · exact List.mem_append_left _ hρ
    · exact List.mem_append_right _ (by simp_all)
  have hintegral : g.guard.BoundsIntegral env := by
    rw [hguard]
    exact (henv.boundsIntegral hr (rule_mem_guards (hmem _ (by simp)))).and
      (henv.boundsIntegral hr (by simp [guards]))
  -- An earlier case that holds together with the guard is not provably disjoint, so it is kept.
  have hkept (e : Guard) (he : e ∈ r.guards) (hcase : e ∈ r.bases.map r.baseGuard ++
      before.map (·.guard)) (hguards : g.guard.holds env = .ok true) (hholds : e.holds env = .ok true) :
      e ∈ g.exclusions := by
    rw [hex, List.mem_filter]
    refine ⟨hcase, ?_⟩
    rw [Bool.not_eq_true', ← Bool.not_eq_true]
    intro hdisjoint
    exact Guard.disjoint_of_provablyDisjoint hintegral (henv.boundsIntegral hr he) hdisjoint hguards
      hholds
  rw [RuleGuard.Enabled, ← hguard]
  refine and_congr_right fun hholds => ⟨fun hnone => ⟨fun b hb hbase => ?_, fun ρ hρ hrule => ?_⟩,
    fun ⟨hbases, hrules⟩ e he => ?_⟩
  · exact hnone _ (hkept _ (base_mem_guards hb)
      (List.mem_append_left _ (List.mem_map_of_mem hb)) hholds hbase) hbase
  · exact hnone _ (hkept _ (rule_mem_guards (hmem ρ (List.mem_append_left _ hρ)))
      (List.mem_append_right _ (List.mem_map_of_mem (f := (·.guard)) hρ)) hholds hrule) hrule
  · rw [hex, List.mem_filter, List.mem_append] at he
    rcases he.1 with he | he
    · obtain ⟨b, hb, rfl⟩ := List.mem_map.1 he
      exact hbases b hb
    · obtain ⟨ρ, hρ, rfl⟩ := List.mem_map.1 he
      exact hrules ρ hρ

/-- **A rule is enabled exactly where it is selected.** -/
theorem enabled_iff_select (hr : r.WellFormed) (henv : r.Decides env) {g : RuleGuard}
    (hg : g ∈ r.ruleGuards) : g.Enabled env ↔ r.select env = .ok (.rule g.rule) := by
  obtain ⟨before, after, hsorted, henabled⟩ := enabled_iff hr henv hg
  have hmem {ρ : Rule} (hρ : ρ ∈ before) : ρ ∈ r.sortedRules := by simp [hsorted, hρ]
  have hbase {b : BaseCase} (hb : b ∈ r.bases) :
      r.matchesBase env b = .ok false ↔ (r.baseGuard b).holds env ≠ .ok true := by
    rw [matchesBase_eq (hr.slots b hb)]
    exact ⟨fun h => by simp [h], holds_eq_false_of_ne (henv.evaluates _ (base_mem_guards hb))⟩
  rw [henabled, select_eq_rule_iff, selectBase_eq_none]
  constructor
  · rintro ⟨hholds, hbases, hbefore⟩
    refine ⟨fun b hb => (hbase hb).2 (hbases b hb), ?_⟩
    rw [hsorted]
    refine selectRule_of_first (fun ρ hρ => ?_) hholds
    exact holds_eq_false_of_ne (henv.fullGuard (hmem hρ))
      fun h => hbefore ρ hρ (Guard.and_holds_iff.1 h).1
  · rintro ⟨hbases, hrule⟩
    obtain ⟨before', after', hsorted', hholds, hbefore⟩ := selectRule_eq_ok hrule
    -- The rules have distinct indices, so the selected rule stands at one place only.
    obtain rfl : before' = before := by
      have hnodup := hr.nodup_sortedRules.of_map
      exact (List.append_cons_inj_of_notMem (by grind) (by grind)).1 (hsorted'.symm.trans hsorted) |>.1
    refine ⟨hholds, fun b hb => (hbase hb).1 (hbases b hb), fun ρ hρ h => ?_⟩
    -- The validity holds with the selected rule, so it does not tell an earlier one apart.
    exact hbefore ρ hρ (Guard.and_holds_iff.2 ⟨h, (Guard.and_holds_iff.1 hholds).2⟩)

/-- **Exclusive guards are selection by order**: where the constraints can be decided, a rule is enabled
exactly if it is selected. So no two rules are enabled together, and none where a base case matches. -/
theorem enabled_iff_selected (hr : r.Built) (henv : r.Decides env) :
    (∀ g ∈ r.ruleGuards, g.Enabled env ↔ r.select env = .ok (.rule g.rule)) ∧
      (r.ruleGuards.Pairwise fun g h => ¬ (g.Enabled env ∧ h.Enabled env)) ∧
      ∀ b ∈ r.bases, (r.baseGuard b).holds env = .ok true → ∀ g ∈ r.ruleGuards, ¬ g.Enabled env := by
  have hr := hr.wellFormed
  have hselect {g : RuleGuard} (hg : g ∈ r.ruleGuards) := enabled_iff_select hr henv hg
  refine ⟨fun g hg => hselect hg, ?_, ?_⟩
  · have hnodup : (r.ruleGuards.map (·.rule)).Nodup := by
      rw [map_rule_ruleGuards]
      exact hr.nodup_sortedRules.of_map
    refine (List.pairwise_map.1 hnodup).imp_of_mem fun hg hh hne ⟨hg', hh'⟩ => hne ?_
    have heq := ((hselect hg).1 hg').symm.trans ((hselect hh).1 hh')
    exact Selection.rule.inj (Except.ok.inj heq)
  · intro b hb hbase g hg henabled
    obtain ⟨_, _, _, henabled'⟩ := enabled_iff hr henv hg
    exact (henabled'.1 henabled).2.1 b hb hbase

end

/-- A recurrence with one index whose rules overlap: the second is tried first. -/
def overlapping : Except Error Recurrence := do
  let r ← create "Count" ["n"] [] {}
  r.build [.validity ["n >= 0"], .base [("n", 0)] (.number 1), .rule "n > 0" "E[n-1]" none none,
    .rule "n == 5" "2*E[n-1]" none none]

/-- At five both rules hold. The one for five excludes nothing, for it is provably disjoint from the
base case; the general one excludes it. -/
theorem enabled_iff_selected_overlapping : ∃ r, overlapping = .ok r ∧
    r.Decides (fun _ => some 5) ∧
    r.ruleGuards.map (·.exclusions.length) = [0, 1] ∧
    (∀ g ∈ r.ruleGuards, g.guard.holds (fun _ => some (5 : Float)) = .ok true) ∧
    (∀ g ∈ r.ruleGuards, g.Enabled (fun _ => some (5 : Float)) ↔
      r.select (fun _ => some (5 : Float)) = .ok (.rule g.rule)) ∧
    (r.ruleGuards.Pairwise fun g h => ¬ (g.Enabled (fun _ => some (5 : Float)) ∧
      h.Enabled fun _ => some (5 : Float))) ∧
    ∀ b ∈ r.bases, (r.baseGuard b).holds (fun _ => some (5 : Float)) = .ok true →
      ∀ g ∈ r.ruleGuards, ¬ g.Enabled fun _ => some (5 : Float) := by
  have hcheck : (overlapping.toOption.any fun r =>
      (r.guards.all fun g => g.constraints.all fun c =>
        (c.holds fun _ => some (5 : Float)).toOption.any fun _ => true) &&
      r.ruleGuards.map (·.exclusions.length) == [0, 1] &&
      r.ruleGuards.all fun g =>
        (g.guard.holds fun _ => some (5 : Float)).toOption.any (· == true)) = true := by
    decide +kernel
  obtain ⟨r, hrun, hcheck⟩ := exists_ok_of_any hcheck
  simp only [Bool.and_eq_true, List.all_eq_true, beq_iff_eq] at hcheck
  obtain ⟨⟨hdecided, hexclusions⟩, hboth⟩ := hcheck
  have hbuilt : r.Built := by
    obtain ⟨r₀, hr₀, hrun⟩ := bind_ok hrun
    exact (Built.create hr₀).build hrun
  have henv : r.Decides (fun _ => some 5) := {
    whole := fun i _ => ⟨5, rfl, by decide +kernel⟩
    evaluates := fun g hg c hc => (exists_ok_of_any (hdecided g hg c hc)).imp fun _ h => h.1 }
  refine ⟨r, hrun, henv, hexclusions, fun g hg => ?_, enabled_iff_selected hbuilt henv⟩
  obtain ⟨b, hb, htrue⟩ := exists_ok_of_any (hboth g hg)
  rw [hb, beq_iff_eq.1 htrue]

end Recurrence

/-!
## The order of priority

The priority of a rule is a triple that is compared from left to right: more equalities come first, then
more constraints, then the rule that was declared first. Rules of one recurrence have different places in
the order of declaration, so the order is strict on them, and sorting gives one list whatever order the
rules are handed over in (`Built.sortRules_eq`).
-/

/-- The priority of a rule. What comes first is smaller. -/
def Rule.priority (ρ : Rule) : ℤ ×ₗ ℤ ×ₗ ℕ :=
  toLex (-(ρ.guard.equalities : ℤ), toLex (-(ρ.guard.size : ℤ), ρ.index))

namespace Recurrence

variable {ρ σ : Rule} {rules l : List Rule}

/-- Priorities are compared component by component. -/
theorem priority_le_iff : ρ.priority ≤ σ.priority ↔ σ.guard.equalities < ρ.guard.equalities ∨
    ρ.guard.equalities = σ.guard.equalities ∧ (σ.guard.size < ρ.guard.size ∨
      ρ.guard.size = σ.guard.size ∧ ρ.index ≤ σ.index) := by
  simp only [Rule.priority, Prod.Lex.le_iff, ofLex_toLex, neg_lt_neg_iff, neg_inj, Nat.cast_lt,
    Nat.cast_inj]

/-- Rules of one priority were declared at one place. -/
theorem index_eq_of_priority_eq (h : ρ.priority = σ.priority) : ρ.index = σ.index :=
  congrArg (fun p => (ofLex (ofLex p).2).2) h

/-- Sorting compares priorities. -/
theorem priorityLe_iff_priority_le :
    priorityLe ρ.guard ρ.index σ.guard σ.index = true ↔ ρ.priority ≤ σ.priority :=
  priorityLe_iff.trans priority_le_iff.symm

/-- Between rules from different places the order is strict. -/
theorem pairwise_lt_sortRules (hnodup : (rules.map (·.index)).Nodup) :
    (sortRules rules).Pairwise fun ρ σ => ρ.priority < σ.priority := by
  have hplaces : ((sortRules rules).map (·.index)).Nodup :=
    ((sortBy_perm _ rules).map _).nodup_iff.2 hnodup
  refine ((pairwise_sortRules rules).and (List.pairwise_map.1 hplaces)).imp fun h => ?_
  exact lt_of_le_of_ne (priorityLe_iff_priority_le.1 h.1)
    fun heq => h.2 (index_eq_of_priority_eq heq)

/-- Rules from different places have one order only. -/
theorem eq_sortRules (hnodup : (rules.map (·.index)).Nodup) (hperm : l.Perm rules)
    (h : l.Pairwise fun ρ σ => ρ.priority < σ.priority) : l = sortRules rules := by
  refine (hperm.trans (sortBy_perm _ rules).symm).eq_of_pairwise ?_ h
    (pairwise_lt_sortRules hnodup)
  intro ρ σ _ _ hlt hgt
  exact absurd hgt hlt.asymm

/-- **Sorting does not depend on the order of the rules.** Whatever order the rules of a recurrence are in,
sorting gives one list: a permutation of the rules in which the priority increases strictly, and the only
one. -/
theorem Built.sortRules_eq {r : Recurrence} (hr : r.Built) (hperm : rules.Perm r.rules) :
    sortRules rules = r.sortedRules ∧ (sortRules rules).Perm r.rules ∧
      ((sortRules rules).Pairwise fun ρ σ => ρ.priority < σ.priority) ∧
      ∀ l : List Rule, l.Perm r.rules → (l.Pairwise fun ρ σ => ρ.priority < σ.priority) →
        l = sortRules rules := by
  have hplaces : (r.rules.map (·.index)).Nodup := by
    rw [hr.wellFormed.numbered]
    exact List.nodup_range
  have hnodup : (rules.map (·.index)).Nodup := (hperm.map _).nodup_iff.2 hplaces
  have hsorted : (sortRules rules).Perm r.rules := (sortBy_perm _ rules).trans hperm
  have hlt := pairwise_lt_sortRules hnodup
  exact ⟨eq_sortRules hplaces hsorted hlt, hsorted, hlt,
    fun l hl h => eq_sortRules hnodup (hl.trans hperm.symm) h⟩

/-- Three guarded rules and one without a guard, which comes last although it is declared second; the last
rule is not accepted. -/
def grid : List Step :=
  [.rule "n > 0" "x*E[n-1,k]" none none, .rule "" "E[n,k]" none none,
    .average "n > 0 && k > 0" ["E[n-1,k]", "E[n,k-1]"] none, .rule "n == k" "E[n-1,k-1]" none none,
    .rule "m > 0" "E[n-1,k]" none none]

/-- The rules in reverse are sorted into the order of the rules as declared. -/
theorem sortRules_eq_grid : ∃ r r', create "Grid" ["n", "k"] ["x"] {} = .ok r ∧
    r' = grid.foldl (fun r s => (s.run r).1) r ∧ r'.Built ∧
    (r'.rules.reverse.map (·.index) = [3, 2, 1, 0] ∧
      (sortRules r'.rules.reverse).map (·.index) = [3, 2, 0, 1]) ∧
    sortRules r'.rules.reverse = r'.sortedRules := by
  have hcheck : ((create "Grid" ["n", "k"] ["x"] {}).toOption.any fun r =>
      (grid.foldl (fun r s => (s.run r).1) r).rules.reverse.map (·.index) == [3, 2, 1, 0] &&
        (sortRules (grid.foldl (fun r s => (s.run r).1) r).rules.reverse).map (·.index) ==
          [3, 2, 0, 1]) = true := by
    decide +kernel
  obtain ⟨r, hr, hcheck⟩ := Arith.exists_ok_of_any hcheck
  simp only [Bool.and_eq_true, beq_iff_eq] at hcheck
  have hbuilt : (grid.foldl (fun r s => (s.run r).1) r).Built :=
    .step _ (.step _ (.step _ (.step _ (.step _ (.create hr)))))
  exact ⟨r, _, hr, rfl, hbuilt, hcheck, (hbuilt.sortRules_eq (List.reverse_perm _)).1⟩

end Recurrence

end RecurrenceCompiler
