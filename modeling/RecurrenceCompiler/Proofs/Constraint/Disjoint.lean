import RecurrenceCompiler.Proofs.Constraint.Bounds

/-!
# Guards that exclude each other

Guards that are found disjoint do not both hold at integers (`Guard.provablyDisjoint_sound`). The search
is for contradicting bounds, and among bounds that exclude at most one integer of an index it misses none
(`Guard.unsatisfiable_iff`): a bound leaves of a range just the integers that satisfy it
(`Range.mem_add_iff`), and a range that is not empty then has an integer left (`Range.exists_mem`). For
this direction the values are below two to the power 53, where strict bounds move by exactly one.
-/

namespace RecurrenceCompiler

open Decimal Arith

/-! ## Guards whose texts have values -/

/-- Both sides of every constraint have a value. -/
def Guard.Evaluates {α : Type} [Carrier α] (g : Guard) (env : Env α) : Prop :=
  ∀ c ∈ g.constraints, (∃ x, eval env c.left = .ok x) ∧ ∃ y, eval env c.right = .ok y

/-- A guard whose texts have values holds or does not hold. -/
theorem Guard.Evaluates.exists_holds {α : Type} [Carrier α] {g : Guard} {env : Env α}
    (h : g.Evaluates env) : ∃ b, g.holds env = .ok b := by
  obtain ⟨cs⟩ := g
  change ∃ b, allHold env cs = .ok b
  induction cs with
  | nil => exact ⟨true, rfl⟩
  | cons c cs ih =>
    obtain ⟨⟨⟨x, hx⟩, y, hy⟩, hcs⟩ := List.forall_mem_cons.1 h
    have hc : c.holds env = .ok (c.op.holds x y) := by
      rw [Constraint.holds, hx, hy]
      rfl
    rw [allHold, hc]
    cases hop : c.op.holds x y with
    | true => exact ih hcs
    | false => exact ⟨false, rfl⟩

/-! ## Small bounds -/

section
variable {r : Range} {b : Bound} {i : Int}

/-- Near zero every integer is on the grid. -/
theorem onDoubleGrid_of_small {k : Int} (hk : k.natAbs ≤ 2 ^ 53) : onDoubleGrid k = k := by
  rw [← toInt_ofInt]
  exact (rounds_ofInt k).toInt_eq hk

/-- A small bound leaves exactly the integers that satisfy it. -/
theorem Range.mem_add_iff (hb : b.value.natAbs < 2 ^ 53) :
    (r.add b).Mem i ↔ r.Mem i ∧ b.op.onInts i b.value := by
  have hup : onDoubleGrid (b.value + 1) = b.value + 1 := onDoubleGrid_of_small (by omega)
  have hdown : onDoubleGrid (b.value - 1) = b.value - 1 := onDoubleGrid_of_small (by omega)
  rw [Range.add]
  cases hop : b.op <;>
    simp only [Mem, atLeast, atMost, Comparison.onInts, hup, hdown, max_le_iff, le_min_iff,
      List.mem_cons, not_or]
  case ne => tauto
  all_goals grind

/-- Small bounds leave exactly the integers that satisfy all of them. -/
theorem Range.mem_foldl_add {bs : List Bound} (hbs : ∀ b ∈ bs, b.value.natAbs < 2 ^ 53) :
    (bs.foldl Range.add r).Mem i ↔ r.Mem i ∧ ∀ b ∈ bs, b.op.onInts i b.value := by
  induction bs generalizing r with
  | nil => simp
  | cons b bs ih =>
    obtain ⟨hb, hbs⟩ := List.forall_mem_cons.1 hbs
    rw [List.foldl_cons, ih hbs, mem_add_iff hb, List.forall_mem_cons, and_assoc]

theorem Range.length_excluded (r : Range) (bs : List Bound) :
    (bs.foldl Range.add r).excluded.length = r.excluded.length + bs.countP fun b => b.op == .ne := by
  induction bs generalizing r with
  | nil => rfl
  | cons b bs ih =>
    rw [List.foldl_cons, ih, List.countP_cons, Range.add]
    cases b.op <;> simp [atLeast, atMost]
    omega

/-- A range that is not empty and excludes one integer at most has an integer left. -/
theorem Range.exists_mem (hr : r.empty = false) (hex : r.excluded.length ≤ 1) : ∃ i, r.Mem i := by
  rw [Range.empty, Bool.or_eq_false_iff, decide_eq_false_iff_not, Bool.and_eq_false_iff] at hr
  obtain ⟨hle, hends⟩ := hr
  by_cases hlow : r.low ∈ r.excluded
  · have hlt : r.low ≠ r.high := by simpa [hlow] using hends
    obtain ⟨j, hj⟩ : ∃ j, r.excluded = [j] :=
      List.length_eq_one_iff.1 (hex.antisymm (List.length_pos_of_mem hlow))
    rw [hj, List.mem_singleton] at hlow
    refine ⟨r.low + 1, by omega, by omega, ?_⟩
    rw [hj, List.mem_singleton, hlow]
    omega
  · exact ⟨r.low, le_refl _, by omega, hlow⟩

end

/-! ## Contradicting bounds -/

/-- Integers for the indices that satisfy the bounds of a guard. -/
def Guard.BoundsHold (g : Guard) (values : String → Int) : Prop :=
  ∀ b ∈ g.bounds, b.op.onInts (values b.name) b.value

/-- What satisfies small bounds may be taken from the range of doubles. -/
theorem Comparison.onInts_clamp (op : Comparison) {i v : Int} (hv : v.natAbs < 2 ^ 53)
    (h : op.onInts i v) : op.onInts (max (-2 ^ 53) (min i (2 ^ 53))) v := by
  cases op <;> simp only [onInts] at h ⊢ <;> omega

theorem Range.mem_unbounded_of_small {i : Int} (hi : i.natAbs ≤ 2 ^ 53) : Range.Mem {} i := by
  have hover : (2 : Int) ^ 53 ≤ overflow := by decide +kernel
  exact ⟨by simp only; omega, by simp only; omega, List.not_mem_nil⟩

/-- **Contradicting bounds are found exactly**, as long as they are small and exclude at most one integer
of each index. -/
theorem Guard.unsatisfiable_iff {g : Guard} (hsmall : ∀ b ∈ g.bounds, b.value.natAbs < 2 ^ 53)
    (hex : ∀ n, (g.bounds.countP fun b => b.op == .ne && b.name == n) ≤ 1) :
    g.unsatisfiable = true ↔ ¬∃ values, g.BoundsHold values := by
  have hmem (n : String) (i : Int) : (g.range n).Mem i ↔
      Range.Mem {} i ∧ ∀ b ∈ g.bounds, b.name = n → b.op.onInts i b.value := by
    have hbs : ∀ b ∈ g.bounds.filter (fun b => b.name == n), b.value.natAbs < 2 ^ 53 :=
      fun b hb => hsmall b (List.mem_filter.1 hb).1
    rw [range, Range.mem_foldl_add hbs]
    simp
  rw [← Bool.not_eq_false, not_iff_not]
  constructor
  · intro hsat
    have hleft (n : String) : ∃ i, (g.range n).Mem i := by
      by_cases hn : ∃ b ∈ g.bounds, b.name = n
      · obtain ⟨b, hb, rfl⟩ := hn
        refine Range.exists_mem ?_ ?_
        · rw [unsatisfiable, List.any_eq_false] at hsat
          exact Bool.not_eq_true _ ▸ hsat b hb
        · rw [range, Range.length_excluded, List.countP_filter]
          simpa using hex b.name
      · exact ⟨0, (hmem n 0).2 ⟨Range.mem_unbounded_of_small (by decide),
          fun b hb hname => absurd ⟨b, hb, hname⟩ hn⟩⟩
    choose values hvalues using hleft
    exact ⟨values, fun b hb => ((hmem b.name _).1 (hvalues b.name)).2 b hb rfl⟩
  · rintro ⟨values, hvalues⟩
    rw [unsatisfiable, List.any_eq_false]
    intro b hb
    have hclamped : (g.range b.name).Mem (max (-2 ^ 53) (min (values b.name) (2 ^ 53))) := by
      refine (hmem _ _).2 ⟨Range.mem_unbounded_of_small (by omega), fun d hd hname => ?_⟩
      exact hname ▸ d.op.onInts_clamp (hsmall d hd) (hvalues d hd)
    rw [Range.not_empty_of_mem hclamped]
    exact Bool.false_ne_true

/-- Integers excluded one by one are not added up. -/
example : (Guard.unsatisfiable ⟨[⟨"n", .ge, "1"⟩, ⟨"n", .le, "2"⟩, ⟨"n", .ne, "1"⟩, ⟨"n", .ne, "2"⟩]⟩) =
    false := by
  decide +kernel

/-! ## Disjoint guards -/

/-- **What is found disjoint is disjoint over the integers.** Where every name stands for an integer and
all texts have values, each of two guards holds or does not hold, and guards that are found disjoint do
not both hold; a guard that is found unsatisfiable does not hold. -/
theorem Guard.provablyDisjoint_sound (g h : Guard) (env : Env Float)
    (henv : ∀ n x, env n = some x → IsIntegral x) (hg : g.Evaluates env) (hh : h.Evaluates env) :
    (g.provablyDisjoint h = true →
      ∃ a b, g.holds env = .ok a ∧ h.holds env = .ok b ∧ (a && b) = false) ∧
    (g.unsatisfiable = true → g.holds env = .ok false) := by
  have hbounds (g : Guard) : g.BoundsIntegral env := fun b _ x hx => henv b.name x hx
  obtain ⟨a, ha⟩ := hg.exists_holds
  obtain ⟨b, hb⟩ := hh.exists_holds
  constructor
  · intro hdisjoint
    refine ⟨a, b, ha, hb, ?_⟩
    rw [Bool.and_eq_false_iff]
    cases a with
    | false => exact .inl rfl
    | true =>
      right
      have hnot := disjoint_of_provablyDisjoint (hbounds g) (hbounds h) hdisjoint ha
      rw [hb] at hnot
      exact Bool.eq_false_iff.2 fun htrue => hnot (congrArg Except.ok htrue)
  · intro hunsat
    cases a with
    | false => exact ha
    | true =>
      rw [unsatisfiable_of_holds (hbounds g) ha] at hunsat
      cases hunsat

/-- Bounds in either orientation exclude each other at five. -/
theorem Guard.provablyDisjoint_sound_three :
    let g : Guard := ⟨[⟨"n", .ge, "3"⟩]⟩
    let h : Guard := ⟨[⟨"3", .gt, "n"⟩]⟩
    let env : Env Float := fun n => if n = "n" then some (ofInt 5) else none
    (∃ a b, g.holds env = .ok a ∧ h.holds env = .ok b ∧ (a && b) = false) ∧
      (g.and h).holds env = .ok false := by
  intro g h env
  have henv : ∀ n x, env n = some x → IsIntegral x := by
    intro n x hx
    simp only [env] at hx
    split at hx
    · cases hx
      exact (rounds_ofInt 5).isIntegral
    · cases hx
  have hname : ∃ x, eval env "n" = .ok x :=
    ⟨ofInt 5, eval_eq_ok_iff.2 ((hasValue_identifier (by decide)).2 rfl)⟩
  have hthree : ∃ x, eval env "3" = .ok x := by
    have hinteger : Text.isInteger "3".toList := by decide
    obtain ⟨x, hx, -⟩ := hasValue_integer env hinteger
    exact ⟨x, eval_eq_ok_iff.2 hx⟩
  have hg : g.Evaluates env := by simpa [Evaluates, g] using ⟨hname, hthree⟩
  have hh : h.Evaluates env := by simpa [Evaluates, h] using ⟨hthree, hname⟩
  have hboth : (g.and h).Evaluates env := List.forall_mem_append.2 ⟨hg, hh⟩
  have hfound : g.provablyDisjoint h = true := by decide +kernel
  exact ⟨(provablyDisjoint_sound g h env henv hg hh).1 hfound,
    (provablyDisjoint_sound (g.and h) h env henv hboth hh).2 hfound⟩

end RecurrenceCompiler
