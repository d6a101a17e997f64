import Mathlib
import RecurrenceCompiler.Proofs.Arith.Grammar
import RecurrenceCompiler.Recurrence.Builder

/-!
# What a step of a definition does

`Performs` says all that a step does when it runs through, one rule for each kind of step
(`performs_of_run`), and `Leaves` what it leaves when it fails (`leaves_of_run`). What building keeps
follows from these two, with no look at how a step is run.

A step that fails adds no case. It leaves the recurrence as it was, except that an average leaves the
warnings about the branches before the one that could not be read (`failed_step_leaves`,
`failed_average_warns`).
-/

namespace RecurrenceCompiler

open Text Decimal Arith

namespace Recurrence

variable {r r' : Recurrence}

/-- The context of the next rule. -/
def nextContext (r : Recurrence) : RuleText.Context :=
  r.context (some r.rules.length)

/-- The recurrence with one more rule and the warnings about it. -/
def withRule (r : Recurrence) (g : Guard) (e : Expr) (name : Option String)
    (warnings : List Diagnostic) : Recurrence :=
  { r with
    rules := r.rules ++ [⟨g, e, name, r.rules.length⟩]
    diagnostics := r.diagnostics ++ warnings }

/-- What a step does when it runs through. -/
inductive Performs (r : Recurrence) : Step → Recurrence → Prop
  | validity {texts g} : r.readGuard texts = .ok g →
      Performs r (.validity texts) { r with validity := r.validity.and g }
  | base {bound value slots e} : r.readSlots (r.indices.map fun _ => none) bound = .ok slots →
      (∃ w, some w ∈ slots) → RuleText.parseValue (r.context none) value = .ok e →
      Performs r (.base bound value) { r with
        bases := r.bases ++ [⟨slots, e⟩]
        diagnostics := r.diagnostics ++ (r.context none).warnings e }
  | rule {guard body scale name g e} : r.readGuard [guard] = .ok g →
      RuleText.parseRule r.nextContext body scale = .ok e →
      Performs r (.rule guard body scale name) (r.withRule g e name (r.nextContext.warnings e))
  | average {guard branches name g es} : branches ≠ [] → r.readGuard [guard] = .ok g →
      List.Forall₂ (fun b e => RuleText.parseBody r.nextContext b = .ok e) branches es →
      Performs r (.average guard branches name)
        (r.withRule g (.average es (.number (1.0 / Float.ofNat branches.length))) name
          (es.flatMap r.nextContext.warnings))

/-- The branches of an average are read up to the first one that cannot be. -/
theorem readBranches_spec {ctx : RuleText.Context} {branches : List String} {es : List Expr}
    {ds : List Diagnostic} {err : Option Error} (h : readBranches ctx branches = (es, ds, err)) :
    ∃ before after, branches = before ++ after ∧
      List.Forall₂ (fun b e => RuleText.parseBody ctx b = .ok e) before es ∧
      ds = es.flatMap ctx.warnings ∧ (err = none → after = []) ∧
      ∀ e, err = some e → ∃ failing rest, after = failing :: rest ∧
        RuleText.parseBody ctx failing = .error e := by
  induction branches generalizing es ds err with
  | nil =>
    cases h
    exact ⟨[], [], rfl, .nil, rfl, fun _ => rfl, nofun⟩
  | cons b bs ih =>
    rw [readBranches] at h
    split at h
    · next e hb =>
      cases h
      refine ⟨[], b :: bs, rfl, .nil, rfl, nofun, ?_⟩
      rintro _ ⟨⟩
      exact ⟨b, bs, rfl, hb⟩
    · next e hb =>
      generalize hrest : readBranches ctx bs = rest at h
      obtain ⟨es', ds', err'⟩ := rest
      cases h
      obtain ⟨before, after, rfl, hread, rfl, hall, hstop⟩ := ih hrest
      exact ⟨b :: before, after, rfl, .cons hb hread, rfl, hall, hstop⟩

/-- What is on the right of related lists stands in relation to something on the left. -/
theorem exists_of_forall₂ {α β : Type} {R : α → β → Prop} {as : List α} {bs : List β}
    (h : List.Forall₂ R as bs) {b : β} (hb : b ∈ bs) : ∃ a ∈ as, R a b := by
  induction h with
  | nil => cases hb
  | cons hab _ ih =>
    rcases List.mem_cons.1 hb with rfl | hb
    · exact ⟨_, List.mem_cons_self, hab⟩
    · obtain ⟨a, ha, hab⟩ := ih hb
      exact ⟨a, List.mem_cons_of_mem _ ha, hab⟩

/-- What a checked step leaves when it runs through. -/
theorem eq_ok_of_orKeep {x : Except Error Recurrence} (h : r.orKeep x = (r', none)) : x = .ok r' := by
  cases x with
  | ok x =>
    cases h
    rfl
  | error e => cases h

/-- **What a step that runs through does.** -/
theorem performs_of_run {s : Step} (h : s.run r = (r', none)) : r.Performs s r' := by
  cases s with
  | validity texts =>
    obtain ⟨g, hg, h⟩ := bind_ok (eq_ok_of_orKeep h)
    cases h
    exact .validity hg
  | base bound value =>
    obtain ⟨slots, hslots, h⟩ := bind_ok (eq_ok_of_orKeep h)
    split at h
    · cases h
    · next hbound =>
      obtain ⟨e, he, h⟩ := bind_ok h
      cases h
      refine .base hslots ?_ he
      simpa [List.all_eq_true, Option.ne_none_iff_exists'] using hbound
  | rule guard body scale name =>
    obtain ⟨g, hg, h⟩ := bind_ok (eq_ok_of_orKeep h)
    obtain ⟨e, he, h⟩ := bind_ok h
    cases h
    exact .rule hg he
  | average guard branches name =>
    rw [Step.run, addAverage] at h
    split at h
    · cases h
    · next hne =>
      split at h
      · cases h
      · next g hg =>
        generalize hread : readBranches (r.context (some r.rules.length)) branches = read at h
        obtain ⟨es, ds, err⟩ := read
        obtain ⟨before, after, rfl, hes, rfl, hall, hstop⟩ := readBranches_spec hread
        cases err with
        | some e => cases h
        | none =>
          obtain rfl := hall rfl
          cases h
          rw [List.append_nil] at hne ⊢
          exact .average (by simpa using hne) hg hes

/-- A step keeps the header. -/
theorem Performs.toHeader {s : Step} (h : r.Performs s r') : r'.toHeader = r.toHeader := by
  cases h <;> rfl

/-! ## Steps that fail -/

/-- What a step leaves when it fails with an error: what was there, and after an average the warnings
about the branches before the one that could not be read. -/
inductive Leaves (r : Recurrence) : Step → Error → Recurrence → Prop
  | nothing {s e} : Leaves r s e r
  | warnings {guard before failing after name es e} :
      List.Forall₂ (fun b e => RuleText.parseBody r.nextContext b = .ok e) before es →
      RuleText.parseBody r.nextContext failing = .error e →
      Leaves r (.average guard (before ++ failing :: after) name) e
        { r with diagnostics := r.diagnostics ++ es.flatMap r.nextContext.warnings }

/-- What a checked step leaves when it fails. -/
theorem eq_of_orKeep {x : Except Error Recurrence} {e : Error} (h : r.orKeep x = (r', some e)) :
    r' = r := by
  cases x with
  | ok x => cases h
  | error e =>
    cases h
    rfl

/-- **What a step that fails leaves.** -/
theorem leaves_of_run {s : Step} {e : Error} (h : s.run r = (r', some e)) : r.Leaves s e r' := by
  cases s with
  | validity | base | rule =>
    obtain rfl := eq_of_orKeep h
    exact .nothing
  | average guard branches name =>
    rw [Step.run, addAverage] at h
    split at h
    · cases h
      exact .nothing
    · split at h
      · cases h
        exact .nothing
      · generalize hread : readBranches (r.context (some r.rules.length)) branches = read at h
        obtain ⟨es, ds, err⟩ := read
        obtain ⟨before, after, rfl, hes, rfl, -, hstop⟩ := readBranches_spec hread
        cases err with
        | none => cases h
        | some e' =>
          cases h
          obtain ⟨failing, after, rfl, hfailing⟩ := hstop e rfl
          exact .warnings hes hfailing

/-- A step does what it does when it runs through, or adds warnings only. -/
theorem run_cases (r : Recurrence) (s : Step) :
    r.Performs s (s.run r).1 ∨
      ∃ ds, (s.run r).1 = { r with diagnostics := r.diagnostics ++ ds } := by
  generalize hrun : s.run r = result
  obtain ⟨r', err⟩ := result
  cases err with
  | none => exact .inl (performs_of_run hrun)
  | some e =>
    cases leaves_of_run hrun with
    | nothing => exact .inr ⟨[], by rw [List.append_nil]⟩
    | warnings => exact .inr ⟨_, rfl⟩

/-- A step keeps the header, whether it fails or not. -/
theorem toHeader_run (r : Recurrence) (s : Step) : (s.run r).1.toHeader = r.toHeader := by
  rcases r.run_cases s with h | ⟨ds, h⟩
  · exact h.toHeader
  · rw [h]

/-- What the builder adds is the rule of a step, or the average of one. -/
theorem expr_of_step {s : Step} {rule : Rule} (h : (s.run r).1.rules = r.rules ++ [rule]) :
    (∃ guard body scale name, s = .rule guard body scale name ∧
      RuleText.parseRule r.nextContext body scale = .ok rule.expr) ∨
    ∃ branches es x, branches ≠ [] ∧ rule.expr = .average es (.number x) ∧
      List.Forall₂ (fun b e => RuleText.parseBody r.nextContext b = .ok e) branches es := by
  have hkept : r.rules ≠ r.rules ++ [rule] := by simp
  rcases r.run_cases s with hstep | ⟨ds, hstep⟩
  · generalize (s.run r).1 = r' at hstep h
    cases hstep with
    | validity | base => exact absurd h hkept
    | rule _ he =>
      obtain rfl := List.singleton_inj.1 (List.append_cancel_left h)
      exact .inl ⟨_, _, _, _, rfl, he⟩
    | average hne _ hes =>
      obtain rfl := List.singleton_inj.1 (List.append_cancel_left h)
      exact .inr ⟨_, _, _, hne, rfl, hes⟩
  · rw [hstep] at h
    exact absurd h hkept

/-- **A step that fails leaves the domain, the bases and the rules as they were.** It leaves the
warnings as they were too, unless it is an average: then those about the branches before the one that
could not be read are there. -/
theorem failed_step_leaves {s : Step} {e : Error} (h : (s.run r).2 = some e) :
    ∃ ds, (s.run r).1 = { r with diagnostics := r.diagnostics ++ ds } ∧
      (ds = [] ∨ ∃ guard before failing after name es,
        s = .average guard (before ++ failing :: after) name ∧
        List.Forall₂ (fun b e => RuleText.parseBody r.nextContext b = .ok e) before es ∧
        RuleText.parseBody r.nextContext failing = .error e ∧
        ds = es.flatMap r.nextContext.warnings) := by
  generalize hrun : s.run r = result at h ⊢
  obtain ⟨r', err⟩ := result
  obtain rfl : err = some e := h
  cases leaves_of_run hrun with
  | nothing => exact ⟨[], by rw [List.append_nil], .inl rfl⟩
  | @warnings guard before failing after name es _ hes hfailing =>
    exact ⟨_, rfl, .inr ⟨guard, before, failing, after, name, es, rfl, hes, hfailing, rfl⟩⟩

/-- An average whose first branch mentions an unknown name and whose second branch cannot be read. -/
def unreadable : Step :=
  .average "n > 0" ["q*E[n-1]", "E[n-1"] none

/-- The warning about the first branch stays, and nothing else does. -/
theorem failed_step_leaves_unreadable : ∃ r e, create "Seq" ["n"] [] {} = .ok r ∧
    (unreadable.run r).2 = some e ∧
    ∃ ds, (unreadable.run r).1 = { r with diagnostics := r.diagnostics ++ ds } ∧
      (ds = [] ∨ ∃ guard before failing after name es,
        unreadable = .average guard (before ++ failing :: after) name ∧
        List.Forall₂ (fun b e => RuleText.parseBody r.nextContext b = .ok e) before es ∧
        RuleText.parseBody r.nextContext failing = .error e ∧
        ds = es.flatMap r.nextContext.warnings) := by
  have hcheck : ((create "Seq" ["n"] [] {}).toOption.any fun r =>
      (unreadable.run r).2.isSome) = true := by
    decide +kernel
  obtain ⟨r, hr, hcheck⟩ := exists_ok_of_any hcheck
  obtain ⟨e, he⟩ := Option.isSome_iff_exists.1 hcheck
  exact ⟨r, e, hr, he, failed_step_leaves he⟩

/-- **A step that fails can leave a warning**, where a rule with the same body leaves none. -/
theorem failed_average_warns : ∃ r, create "Seq" ["n"] [] {} = .ok r ∧
    (unreadable.run r).2.isSome ∧ r.diagnostics.length = 0 ∧
    (unreadable.run r).1.diagnostics.length = 1 := by
  have hcheck : ((create "Seq" ["n"] [] {}).toOption.any fun r => (unreadable.run r).2.isSome &&
      r.diagnostics.length == 0 && (unreadable.run r).1.diagnostics.length == 1) = true := by
    decide +kernel
  obtain ⟨r, hr, hcheck⟩ := exists_ok_of_any hcheck
  simp only [Bool.and_eq_true, beq_iff_eq] at hcheck
  obtain ⟨⟨hfails, hbefore⟩, hafter⟩ := hcheck
  exact ⟨r, hr, hfails, hbefore, hafter⟩

end Recurrence

end RecurrenceCompiler
