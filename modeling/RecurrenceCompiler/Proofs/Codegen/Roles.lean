import RecurrenceCompiler.Codegen.LayerPlan
import RecurrenceCompiler.Proofs.Constraint.Bounds
import RecurrenceCompiler.Proofs.Recurrence.Built

/-!
# Roles of rules

Where the bound on the auxiliary index holds, the constraints of a rule on that index hold exactly
for the slots of its role (`rolesOver_holds`), and they are as many equalities as the role has
(`rolesOver_equalities`).
-/

namespace RecurrenceCompiler

open Text Decimal Arith

/-- Equality of doubles does not depend on the order. -/
theorem float_beq_comm (x y : Float) : (x == y) = (y == x) := by
  have hnan {u v : Float.Model.UnpackedFloat} (h : u = .notANumber ∨ v = .notANumber) :
      u.compare v = none := by
    rcases h with rfl | rfl
    · rfl
    · cases u <;> rfl
  by_cases h : IsNumber x ∧ IsNumber y
  · rw [Bool.eq_iff_iff, Decimal.beq_iff h.1 h.2, Decimal.beq_iff h.2 h.1, eq_comm]
  · have h : x.toModel.unpack = .notANumber ∨ y.toModel.unpack = .notANumber := by
      simpa only [IsNumber, not_and_or, not_not] using h
    change (x.toModel.unpack.compare y.toModel.unpack == some .eq) =
      (y.toModel.unpack.compare x.toModel.unpack == some .eq)
    rw [hnan h, hnan h.symm]

/-- Exchanging the sides of a comparison. -/
theorem Comparison.holds_flip (op : Comparison) (x y : Float) : op.flip.holds x y = op.holds y x := by
  cases op with
  | eq => exact float_beq_comm x y
  | ne => exact congrArg Bool.not (float_beq_comm x y)
  | lt | le | gt | ge => rfl

/-- The slots of a role, at a value of the auxiliary index. -/
def Role.Holds (env : Env Float) (a : Float) : Role → Prop
  | .zero => toInt a = 0
  | .general start => start ≤ toInt a
  | .max e => ∃ x, HasValue env e.toList x ∧ (x == a) = true

/-- The number of equalities that give a role. -/
def Role.equalities : Role → Nat
  | .general _ => 0
  | _ => 1

/-- A value of an index that a layer can count up to: natural, and less than two to the power 53. -/
structure IsSlot (a : Float) : Prop where
  integral : IsIntegral a
  nonneg : 0 ≤ toInt a
  lt : toInt a < 2 ^ 53

/-- Moving a number to the grid of doubles does not change whether a slot is beyond it. -/
theorem IsSlot.grid_le_iff {a : Float} (ha : IsSlot a) (s : Int) :
    onDoubleGrid s ≤ toInt a ↔ s ≤ toInt a := by
  constructor
  · intro h
    by_contra hlt
    obtain ⟨g, hg, hvalue⟩ := exists_double_int (k := toInt a + 1) (by have := ha.nonneg; have := ha.lt; omega)
    have hint : IsIntegral g := ⟨hg, _, hvalue⟩
    have hg : toInt g = toInt a + 1 := by
      have := hint.doubleValue_eq
      rw [hvalue] at this
      exact_mod_cast this.symm
    have := le_onDoubleGrid hint (k := s) (by omega)
    omega
  · exact onDoubleGrid_le ha.integral

section
variable {env : Env Float} {a : Float} {aux : String} {r : Recurrence}

/-- A constraint on the auxiliary index compares its value. -/
theorem Constraint.holds_onAux {c : Constraint} {op : Comparison} {rhs : String}
    (haux : isIdentifier aux) (ha : env aux = some a) (hc : c.onAux? aux = some (op, rhs)) :
    c.holds env = .ok true ↔ ∃ y, HasValue env rhs.toList y ∧ op.holds a y = true := by
  rw [onAux?] at hc
  rw [holds_eq_ok_iff]
  split at hc
  · next h =>
    cases hc
    have hleft : c.left = aux := by simpa using (Bool.and_eq_true_iff.1 h).1
    rw [hleft]
    constructor
    · rintro ⟨x, y, hx, hy, hop⟩
      obtain rfl : a = x := Option.some.inj (ha.symm.trans ((hasValue_identifier haux).1 hx))
      exact ⟨y, hy, hop⟩
    · rintro ⟨y, hy, hop⟩
      exact ⟨a, y, (hasValue_identifier haux).2 ha, hy, hop⟩
  · split at hc
    · next h =>
      cases hc
      have hright : c.right = aux := by simpa using (Bool.and_eq_true_iff.1 h).1
      rw [hright]
      constructor
      · rintro ⟨x, y, hx, hy, hop⟩
        obtain rfl : a = y := Option.some.inj (ha.symm.trans ((hasValue_identifier haux).1 hy))
        exact ⟨x, hx, by rwa [c.op.holds_flip]⟩
      · rintro ⟨x, hx, hop⟩
        exact ⟨x, a, hx, (hasValue_identifier haux).2 ha, by rwa [c.op.holds_flip] at hop⟩
    · cases hc

/-- The text that the auxiliary index is compared with does not mention it. -/
theorem Constraint.not_mentions_of_onAux {c : Constraint} {op : Comparison} {rhs : String}
    (hc : c.onAux? aux = some (op, rhs)) : Arith.mentions rhs aux = false := by
  rw [onAux?] at hc
  split at hc
  · next h =>
    cases hc
    simpa using (Bool.and_eq_true_iff.1 h).2
  · split at hc
    · next h =>
      cases hc
      simpa using (Bool.and_eq_true_iff.1 h).2
    · cases hc

/-- An equality on the auxiliary index is an equality. -/
theorem Constraint.eq_of_onAux {c : Constraint} {op : Comparison} {rhs : String}
    (hc : c.onAux? aux = some (op, rhs)) : c.op = .eq ↔ op = .eq := by
  rw [onAux?] at hc
  split at hc
  · cases hc
    rfl
  · split at hc
    · cases hc
      cases c.op <;> simp [Comparison.flip]
    · cases hc

/-- **A comparison that gives a role holds for its slots.** -/
theorem roleOf_holds {rule : Nat} {op : Comparison} {rhs : String} {role : Role}
    (ha : IsSlot a) (h : r.roleOf rule aux op rhs = .ok (some role)) :
    (∃ y, HasValue env rhs.toList y ∧ op.holds a y = true) ↔ role.Holds env a := by
  -- Compared with an integer text, the slot is compared with its integer.
  have hint (hi : isInteger rhs.toList) :
      (∃ y, HasValue env rhs.toList y ∧ op.holds a y = true) ↔
        op.onInts (toInt a) (readInteger rhs.toList) := by
    obtain ⟨z, hz, hzi, hvalue⟩ := hasValue_integer env hi
    rw [← hvalue, ← op.holds_iff ha.integral hzi]
    exact ⟨fun ⟨y, hy, hop⟩ => hy.unique hz ▸ hop, fun hop => ⟨z, hz, hop⟩⟩
  have hnonneg := ha.nonneg
  unfold Recurrence.roleOf at h
  dsimp only at h
  split at h
  · cases h
  · next hzero =>
    cases h
    split at hzero
    · next hi =>
      rw [hint hi, Option.some.inj hzero]
      rfl
    · cases hzero
  · cases h
    refine exists_congr fun x => and_congr_right fun _ => ?_
    change (a == x) = true ↔ (x == a) = true
    rw [float_beq_comm]
  · next n hn =>
    cases h
    split at hn
    · next hi =>
      rw [hint hi, Option.some.inj hn]
      change n < toInt a ↔ max 0 (onDoubleGrid (n + 1)) ≤ toInt a
      rw [max_le_iff, ha.grid_le_iff]
      omega
    · cases hn
  · next n hn =>
    cases h
    split at hn
    · next hi =>
      rw [hint hi, Option.some.inj hn]
      change n ≤ toInt a ↔ max 0 n ≤ toInt a
      omega
    · cases hn
  · cases h

/-- A comparison that gives a role is an equality exactly if the role has one. -/
theorem roleOf_equalities {rule : Nat} {op : Comparison} {rhs : String} {role : Option Role}
    (h : r.roleOf rule aux op rhs = .ok role) :
    (if op = .eq then 1 else 0) = (role.map Role.equalities).getD 0 := by
  unfold Recurrence.roleOf at h
  dsimp only at h
  split at h <;> cases h <;> rfl

/-- A comparison that gives no role is an upper bound. -/
theorem roleOf_none {rule : Nat} {op : Comparison} {rhs : String}
    (h : r.roleOf rule aux op rhs = .ok none) : op = .le := by
  unfold Recurrence.roleOf at h
  dsimp only at h
  split at h <;> cases h
  rfl

/-- **The constraints on the auxiliary index hold for the slots of the role they give**, if those that
give none hold. -/
theorem rolesOver_holds {rule : Nat} (haux : isIdentifier aux) (ha : env aux = some a)
    (hslot : IsSlot a) {cs : List Constraint} {before : Option Role} {role : Role}
    (hle : ∀ c ∈ cs, ∀ rhs, c.onAux? aux = some (.le, rhs) → c.holds env = .ok true)
    (h : r.rolesOver rule aux before cs = .ok role) :
    ((∀ c ∈ cs, c.mentions aux = true → c.holds env = .ok true) ∧
      ∀ ρ ∈ before, ρ.Holds env a) ↔ role.Holds env a := by
  induction cs generalizing before with
  | nil =>
    cases h
    cases before with
    | none => simpa [Role.Holds] using hslot.nonneg
    | some ρ => simp
  | cons c cs ih =>
    have ih {before : Option Role} := @ih before fun d hd => hle d (by simp [hd])
    rw [Recurrence.rolesOver] at h
    split at h
    · next hm =>
      rw [← ih h]
      have hm : c.mentions aux = false := by simpa using hm
      simp [hm]
    · next hm =>
      have hm : c.mentions aux = true := by simpa using hm
      split at h
      · cases h
      · next op rhs hon =>
        obtain ⟨next, hnext, hrest⟩ := bind_ok h
        cases next with
        | none =>
          obtain rfl := roleOf_none hnext
          have hc := hle c (by simp) rhs hon
          rw [← ih hrest]
          simp [hc]
        | some ρ =>
          dsimp only at hrest
          split at hrest
          · cases hrest
          · next hbefore =>
            obtain rfl : before = none := by simpa using hbefore
            rw [← ih hrest, List.forall_mem_cons, c.holds_onAux haux ha hon, roleOf_holds hslot hnext]
            simp [hm, and_comm]

/-- The equalities among the constraints on the auxiliary index are those of the role. -/
theorem rolesOver_equalities {rule : Nat} {cs : List Constraint} {before : Option Role} {role : Role}
    (h : r.rolesOver rule aux before cs = .ok role) :
    cs.countP (fun c => c.op == .eq && c.mentions aux) + (before.map Role.equalities).getD 0 =
      role.equalities := by
  induction cs generalizing before with
  | nil =>
    cases h
    cases before <;> simp [Role.equalities]
  | cons c cs ih =>
    rw [Recurrence.rolesOver] at h
    split at h
    · next hm =>
      have hm : c.mentions aux = false := by simpa using hm
      rw [← ih h]
      simp [hm]
    · next hm =>
      have hm : c.mentions aux = true := by simpa using hm
      split at h
      · cases h
      · next op rhs hon =>
        obtain ⟨next, hnext, hrest⟩ := bind_ok h
        have hcount : List.countP (fun c => c.op == .eq && c.mentions aux) (c :: cs) =
            List.countP (fun c => c.op == .eq && c.mentions aux) cs +
              (next.map Role.equalities).getD 0 := by
          rw [List.countP_cons, hm, ← roleOf_equalities hnext]
          simp [c.eq_of_onAux hon]
        rw [hcount]
        cases next with
        | none => exact ih hrest
        | some ρ =>
          dsimp only at hrest
          split at hrest
          · cases hrest
          · next hbefore =>
            obtain rfl : before = none := by simpa using hbefore
            exact ih hrest

/-- A role is the one that was found before, the one without constraints, or that of a constraint. -/
theorem rolesOver_cases {rule : Nat} {cs : List Constraint} {before : Option Role} {role : Role}
    (h : r.rolesOver rule aux before cs = .ok role) :
    before.getD (.general 0) = role ∨
      ∃ c ∈ cs, ∃ op rhs, c.onAux? aux = some (op, rhs) ∧ r.roleOf rule aux op rhs = .ok (some role) := by
  induction cs generalizing before with
  | nil =>
    cases h
    exact .inl rfl
  | cons c cs ih =>
    rw [Recurrence.rolesOver] at h
    have hlater (hrest : ∃ d ∈ cs, ∃ op rhs, d.onAux? aux = some (op, rhs) ∧
        r.roleOf rule aux op rhs = .ok (some role)) :
        ∃ d ∈ c :: cs, ∃ op rhs, d.onAux? aux = some (op, rhs) ∧
          r.roleOf rule aux op rhs = .ok (some role) := by
      obtain ⟨d, hd, hon⟩ := hrest
      exact ⟨d, List.mem_cons_of_mem _ hd, hon⟩
    split at h
    · exact (ih h).imp_right hlater
    · split at h
      · cases h
      · next op rhs hon =>
        obtain ⟨next, hnext, hrest⟩ := bind_ok h
        cases next with
        | none => exact (ih hrest).imp_right hlater
        | some ρ =>
          dsimp only at hrest
          split at hrest
          · cases hrest
          · rcases ih hrest with hρ | hrest
            · obtain rfl : ρ = role := hρ
              exact .inr ⟨c, List.mem_cons_self .., op, rhs, hon, hnext⟩
            · exact .inr (hlater hrest)

/-- The one slot of a rule is what a constraint compares the auxiliary index with. -/
theorem auxRole_max {rule : Rule} {e : String} (h : r.auxRole rule aux = .ok (.max e)) :
    ∃ c ∈ rule.guard.constraints, ∃ op, c.onAux? aux = some (op, e) := by
  rcases rolesOver_cases h with h | ⟨c, hc, op, rhs, hon, hrole⟩
  · cases h
  · unfold Recurrence.roleOf at hrole
    dsimp only at hrole
    split at hrole <;> cases hrole
    exact ⟨c, hc, _, hon⟩

/-- The slots of a rule do not start below zero. -/
theorem auxRole_general {rule : Rule} {start : Int} (h : r.auxRole rule aux = .ok (.general start)) :
    0 ≤ start := by
  rcases rolesOver_cases h with h | ⟨c, -, op, rhs, -, hrole⟩
  · cases h
    exact le_rfl
  · unfold Recurrence.roleOf at hrole
    dsimp only at hrole
    split at hrole <;> cases hrole <;> exact le_max_left _ _

/-- The text of a role's one slot does not mention the auxiliary index. -/
theorem not_mentions_of_auxRole {rule : Rule} {e : String} (h : r.auxRole rule aux = .ok (.max e)) :
    Arith.mentions e aux = false := by
  obtain ⟨c, -, op, hc⟩ := auxRole_max h
  exact c.not_mentions_of_onAux hc

end

end RecurrenceCompiler
