import RecurrenceCompiler.Proofs.Recurrence.Built
import RecurrenceCompiler.Proofs.RuleText.Reading

/-!
# The shape of what is built

Generators, planner and interpreter take the parts of a recurrence by position: the shifts of a call
and the slots of a base case by index, the rules by their number. `WellShaped` is what they rely on. It
holds of whatever the builder made, whichever of the steps failed (`Built.wellShaped`).
-/

namespace RecurrenceCompiler

open Text Decimal Arith

namespace Recurrence

variable {r r' : Recurrence}

/-- What is relied on when a recurrence is read. -/
structure WellShaped (r : Recurrence) : Prop where
  /-- A rule has the number of its place. -/
  numbered : ∀ (k : Nat) (hk : k < r.rules.length), r.rules[k].index = k
  /-- A rule is a sum of terms, a scaled one or an average of such sums, with calls that have one shift
  for each index and with coefficients that make no calls. -/
  rules : ∀ rule ∈ r.rules, rule.expr.isRuleShaped r.indices.length
  /-- A base case has one slot for each index, and binds one at least. -/
  slots : ∀ b ∈ r.bases, b.slots.length = r.indices.length ∧ ∃ w, some w ∈ b.slots
  /-- The value of a base case makes no calls. -/
  values : ∀ b ∈ r.bases, b.value.isArithmetic
  validity : r.validity.Over r.indices
  guards : ∀ rule ∈ r.rules, rule.guard.Over r.indices

/-- The part of the shape that is not in `WellFormed`: what is read from texts, and that something is
bound. -/
structure ReadShaped (r : Recurrence) : Prop where
  rules : ∀ rule ∈ r.rules, rule.expr.isRuleShaped r.indices.length
  bound : ∀ b ∈ r.bases, ∃ w, some w ∈ b.slots
  values : ∀ b ∈ r.bases, b.value.isArithmetic

/-- A rule of the right shape may be added. -/
theorem ReadShaped.withRule (hr : r.ReadShaped) (g : Guard) {e : Expr}
    (he : e.isRuleShaped r.indices.length) (name : Option String) (ds : List Diagnostic) :
    (r.withRule g e name ds).ReadShaped where
  rules := List.forall_mem_append.2 ⟨hr.rules, List.forall_mem_singleton.2 he⟩
  bound := hr.bound
  values := hr.values

/-- What is averaged is a sum for each branch. -/
theorem isRuleShaped_average (hvars : ∀ v ∈ r.runtimeVars, isIdentifier v) {branches : List String}
    {es : List Expr} (hne : branches ≠ [])
    (hes : List.Forall₂ (fun b e => RuleText.parseBody r.nextContext b = .ok e) branches es)
    (scale : Float) : (Expr.average es (.number scale)).isRuleShaped r.indices.length := by
  have hsome : es ≠ [] := by
    rintro rfl
    exact hne (List.forall₂_nil_right_iff.1 hes)
  have hsums : ∀ e ∈ es, e.isSumShaped r.indices.length := fun e he => by
    obtain ⟨b, -, hb⟩ := exists_of_forall₂ hes he
    exact @RuleText.isSumShaped_parseBody r.nextContext hvars b e hb
  rw [Expr.isRuleShaped, Expr.isArithmetic_number]
  simpa [hsome] using hsums

/-- What a step that runs through does keeps the shape. -/
theorem ReadShaped.performs {s : Step} (hr : r.ReadShaped)
    (hvars : ∀ v ∈ r.runtimeVars, isIdentifier v) (h : r.Performs s r') : r'.ReadShaped := by
  cases h with
  | validity => exact { hr with }
  | base _ hbound he =>
    exact { hr with
      bound := List.forall_mem_append.2 ⟨hr.bound, List.forall_mem_singleton.2 hbound⟩
      values := List.forall_mem_append.2 ⟨hr.values,
        List.forall_mem_singleton.2 (RuleText.isArithmetic_parseValue he)⟩ }
  | rule _ he =>
    exact hr.withRule _ (@RuleText.isRuleShaped_parseRule r.nextContext hvars _ _ _ he) _ _
  | average hne _ hes => exact hr.withRule _ (isRuleShaped_average hvars hne hes _) _ _

theorem Built.readShaped (h : r.Built) : r.ReadShaped := by
  induction h with
  | create h =>
    have hr := created_of_create h
    exact ⟨by simp [hr.rules], by simp [hr.bases], by simp [hr.bases]⟩
  | @step r s hr ih =>
    rcases r.run_cases s with h | ⟨ds, h⟩
    · exact ih.performs hr.wellFormed.runtime h
    · rw [h]
      exact { ih with }

/-- **What is built is well-shaped**, whichever of the steps failed. -/
theorem Built.wellShaped (h : r.Built) : r.WellShaped where
  numbered k hk := by
    have hnumber := congrArg (·[k]?) h.wellFormed.numbered
    simpa [hk] using hnumber
  rules := h.readShaped.rules
  slots b hb := ⟨h.wellFormed.slots b hb, h.readShaped.bound b hb⟩
  values := h.readShaped.values
  validity := h.wellFormed.validity
  guards := h.wellFormed.guards

/-- A base case, a rule that mentions an unknown index, a scaled rule and an average. -/
def mixed : List Step :=
  [.base [("n", 0.0)] (.raw "2*x"), .rule "k > 0" "E[n-1,m]" none none,
    .rule "n > 0" "x*E[n-1,m] - E[n-1,m-1]" (some "1/(2*n)") none,
    .average "m > 0" ["E[n,m-1]", "-E[n-1,m]"] none]

/-- The rule that fails gets no number. -/
theorem wellShaped_mixed : ∃ r r', create "Tri" ["n", "m"] ["x"] {} = .ok r ∧
    r' = mixed.foldl (fun r s => (s.run r).1) r ∧ r'.Built ∧
    (r'.rules.length = 2 ∧ r'.bases.length = 1) ∧ r'.WellShaped := by
  have hcheck : ((create "Tri" ["n", "m"] ["x"] {}).toOption.any fun r =>
      (mixed.foldl (fun r s => (s.run r).1) r).rules.length == 2 &&
        (mixed.foldl (fun r s => (s.run r).1) r).bases.length == 1) = true := by
    decide +kernel
  obtain ⟨r, hr, hcheck⟩ := exists_ok_of_any hcheck
  simp only [Bool.and_eq_true, beq_iff_eq] at hcheck
  have hbuilt : (mixed.foldl (fun r s => (s.run r).1) r).Built :=
    .step _ (.step _ (.step _ (.step _ (.create hr))))
  exact ⟨r, _, hr, rfl, hbuilt, hcheck, hbuilt.wellShaped⟩

end Recurrence

end RecurrenceCompiler
