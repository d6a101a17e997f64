import RecurrenceCompiler.Proofs.Constraint.Key
import RecurrenceCompiler.Proofs.Decimal.Integers
import RecurrenceCompiler.Proofs.Json.Fields
import RecurrenceCompiler.Proofs.Recurrence.Steps

/-!
# What building guarantees

A recurrence is built by checking a header and performing steps, some of which may fail. Each step
keeps the invariant `WellFormed`: indices are distinct names, rules are numbered in the order of
declaration, guards mention indices only and can be told apart by their keys, and base cases have one
slot for each index.
-/

namespace RecurrenceCompiler

open Text Arith Decimal

/-- A guard mentions the given names only. -/
def Guard.Over (g : Guard) (names : List String) : Prop :=
  ∀ c ∈ g.constraints, ∀ n ∈ c.names, n ∈ names

theorem Guard.Over.and {g h : Guard} {names : List String} (hg : g.Over names) (hh : h.Over names) :
    (g.and h).Over names :=
  List.forall_mem_append.2 ⟨hg, hh⟩

namespace Recurrence

/-- A recurrence that the builder made, failed steps included. -/
inductive Built : Recurrence → Prop
  | create {name indices vars options r} : create name indices vars options = .ok r → Built r
  | step {r} (s : Step) : Built r → Built (s.run r).1

/-- The invariant of building. -/
structure WellFormed (r : Recurrence) : Prop where
  identifiers : ∀ i ∈ r.indices, isIdentifier i
  runtime : ∀ v ∈ r.runtimeVars, isIdentifier v
  distinct : r.indices.Nodup
  aux : ∀ aux, r.auxIndex = some aux → aux ∈ r.indices
  validity : r.validity.Over r.indices
  numbered : r.rules.map (·.index) = List.range r.rules.length
  guards : ∀ rule ∈ r.rules, rule.guard.Over r.indices
  spelled : ∀ rule ∈ r.rules, ∀ c ∈ rule.guard.constraints, c.Spelled
  slots : ∀ b ∈ r.bases, b.slots.length = r.indices.length

/-- Checked names are identifiers, distinct and new. -/
theorem names_of_check {name : String} {seen ids : List String}
    (h : checkNames name seen ids = .ok ()) :
    (∀ i ∈ ids, isIdentifier i) ∧ ids.Nodup ∧ ∀ i ∈ ids, i ∉ seen := by
  induction ids generalizing seen with
  | nil => simp
  | cons id ids ih =>
    rw [checkNames] at h
    split at h
    · cases h
    · next hid =>
      split at h
      · cases h
      · next hseen =>
        obtain ⟨hids, hnodup, hnew⟩ := ih h
        have hid : isIdentifier id := by simpa using hid
        refine ⟨by simpa using ⟨hid, hids⟩,
          List.nodup_cons.2 ⟨fun hmem => hnew id hmem (by simp), hnodup⟩, ?_⟩
        intro i hi
        rcases List.mem_cons.1 hi with rfl | hi
        · simpa using hseen
        · exact fun hs => hnew i hi (by simp [hs])

/-- An index has a largest value, which is a natural number. -/
def HasMaximum (maxima : List (String × Whole)) (i : String) : Prop :=
  ∃ w, Json.getField? maxima i = some w ∧ 0 ≤ w.toInt

theorem HasMaximum.set {maxima : List (String × Whole)} {i : String} (h : HasMaximum maxima i)
    (index : String) {w : Whole} (hw : 0 ≤ w.toInt) : HasMaximum (setMaximum maxima index w) i := by
  rw [setMaximum]
  split
  · exact h
  · rw [HasMaximum, Json.getField?_setField]
    split
    · exact ⟨w, rfl, hw⟩
    · exact h

/-- Every index has a largest value at the start, but for the one name that cannot. -/
theorem hasMaximum_defaults {indices : List String} {i : String} (hi : i ∈ indices)
    (hne : i ≠ "__proto__") (maxima : List (String × Whole)) :
    HasMaximum (indices.foldl (fun maxima i => setMaximum maxima i defaultMaxIndex) maxima) i := by
  have hkept (is : List String) {maxima : List (String × Whole)} (h : HasMaximum maxima i) :
      HasMaximum (is.foldl (fun maxima i => setMaximum maxima i defaultMaxIndex) maxima) i := by
    induction is generalizing maxima with
    | nil => exact h
    | cons j is ih => exact ih (h.set j (by decide))
  induction indices generalizing maxima with
  | nil => cases hi
  | cons j indices ih =>
    rcases List.mem_cons.1 hi with rfl | hi
    · refine hkept indices ⟨defaultMaxIndex, ?_, by decide⟩
      simp only [setMaximum]
      rw [if_neg (by simpa using hne), Json.getField?_setField, if_pos rfl]
    · exact ih hi _

/-- Reading the declared largest values keeps that they are natural numbers. -/
theorem HasMaximum.read {name i : String} {indices : List String} {declared : List (String × Float)}
    {maxima maxima' : List (String × Whole)} (h : HasMaximum maxima i)
    (hread : readMaxima name indices maxima declared = .ok maxima') : HasMaximum maxima' i := by
  induction declared generalizing maxima with
  | nil =>
    cases hread
    exact h
  | cons p declared ih =>
    obtain ⟨index, x⟩ := p
    rw [readMaxima] at hread
    split at hread
    · cases hread
    · split at hread
      · cases hread
      · next hx =>
        simp only [Bool.or_eq_true, Bool.not_eq_true', decide_eq_true_eq, not_or,
          Bool.not_eq_false] at hx
        refine ih (h.set index ?_) hread
        rw [Whole.ofFloat]
        split
        · exact le_rfl
        · have hzero : IsIntegral 0.0 ∧ toInt 0.0 = 0 := toFloat_natural 0
          rw [Whole.toInt_ofInt, ← not_lt, ← hzero.2]
          exact fun hlt => hx.2 (((isIntegral_of_isWhole hx.1).2.lt_iff hzero.1).2 hlt)

/-- What a checked header makes: names that were checked, and no cases. -/
structure Created (name : String) (indices vars : List String) (r : Recurrence) : Prop where
  named : isIdentifier r.name = true
  indices_eq : r.indices = indices
  nonempty : indices ≠ []
  runtime_eq : r.runtimeVars = vars
  checked : checkNames name [] (indices ++ vars) = .ok ()
  arrays : ∀ a ∈ r.arrayVars, a ∈ vars
  aux : ∀ aux, r.auxIndex = some aux → aux ∈ indices
  maxima : ∀ i ∈ indices, i ≠ "__proto__" → HasMaximum r.maxIndices i
  validity : r.validity = {}
  bases : r.bases = []
  rules : r.rules = []
  diagnostics : r.diagnostics = []

theorem created_of_create {name indices vars options r}
    (h : create name indices vars options = .ok r) : r.Created name indices vars := by
  unfold create at h
  cases hname : isIdentifier name with
  | false =>
    rw [hname] at h
    cases h
  | true =>
    simp only [hname, Bool.not_true, Bool.false_eq_true, if_false] at h
    cases hempty : indices.isEmpty with
    | true =>
      rw [hempty] at h
      cases h
    | false =>
      have hnonempty := List.isEmpty_eq_false_iff.1 hempty
      simp only [hempty, Bool.false_eq_true, if_false] at h
      obtain ⟨⟨⟩, hcheck, h⟩ := bind_ok h
      cases hfind : options.arrayVars.find? fun a => !vars.contains a with
      | some a =>
        rw [hfind] at h
        cases h
      | none =>
        simp only [hfind] at h
        have harrays : ∀ a ∈ options.arrayVars, a ∈ vars := by
          simpa [List.find?_eq_none] using hfind
        split at h
        · next aux haux =>
          split at h
          · cases h
          · next hmem =>
            obtain ⟨maxima, hmaxima, h⟩ := bind_ok h
            cases h
            refine ⟨hname, rfl, hnonempty, rfl, hcheck, harrays, ?_,
              fun i hi hne => (hasMaximum_defaults hi hne []).read hmaxima, rfl, rfl, rfl, rfl⟩
            rintro _ hr
            obtain rfl := Option.some.inj (haux.symm.trans hr)
            simpa using hmem
        · next hnone =>
          obtain ⟨maxima, hmaxima, h⟩ := bind_ok h
          cases h
          exact ⟨hname, rfl, hnonempty, rfl, hcheck, harrays, fun aux haux => (hnone aux haux).elim,
            fun i hi hne => (hasMaximum_defaults hi hne []).read hmaxima, rfl, rfl, rfl, rfl⟩

/-- A checked header is well-formed. -/
theorem wellFormed_create {name indices vars options r}
    (h : create name indices vars options = .ok r) : r.WellFormed := by
  have hr := created_of_create h
  obtain ⟨hids, hnodup, -⟩ := names_of_check hr.checked
  constructor
  · exact fun i hi => hids i (by simp [← hr.indices_eq, hi])
  · exact fun v hv => hids v (by simp [← hr.runtime_eq, hv])
  · exact hr.indices_eq ▸ (List.nodup_append.1 hnodup).1
  · exact hr.indices_eq ▸ hr.aux
  · simp [hr.validity, Guard.Over]
  · simp [hr.rules]
  · simp [hr.rules]
  · simp [hr.rules]
  · simp [hr.bases]

/-- Filling slots keeps their number. -/
theorem length_readSlots {r : Recurrence} {slots slots' : List (Option Decimal.Whole)}
    {bound : List (String × Float)} (h : r.readSlots slots bound = .ok slots') :
    slots'.length = slots.length := by
  induction bound generalizing slots with
  | nil =>
    cases h
    rfl
  | cons p bound ih =>
    rw [readSlots] at h
    split at h
    · cases h
    · split at h
      · cases h
      · rw [ih h, List.length_set]

/-- A guard that is read mentions indices only, and its constraints are told apart by their text. -/
theorem readGuard_ok {r : Recurrence} {texts : List String} {g : Guard}
    (h : r.readGuard texts = .ok g) : g.Over r.indices ∧ ∀ c ∈ g.constraints, c.Spelled := by
  obtain ⟨g', hg', h⟩ := bind_ok h
  obtain ⟨⟨⟩, hcheck, h⟩ := bind_ok h
  cases h
  refine ⟨fun c hc n hn => ?_, Guard.spelled_of_parse hg'⟩
  rw [checkGuard] at hcheck
  split at hcheck
  · cases hcheck
  · next hfind =>
    simpa using List.find?_eq_none.1 hfind n (List.mem_flatMap.2 ⟨c, hc, hn⟩)

/-- A rule that is read keeps the invariant. -/
theorem WellFormed.withRule {r : Recurrence} (hr : r.WellFormed) {texts : List String} {g : Guard}
    (hg : r.readGuard texts = .ok g) (e : Expr) (name : Option String) (ds : List Diagnostic) :
    (r.withRule g e name ds).WellFormed where
  identifiers := hr.identifiers
  runtime := hr.runtime
  distinct := hr.distinct
  aux := hr.aux
  validity := hr.validity
  numbered := by simp [Recurrence.withRule, hr.numbered, List.range_succ]
  guards := List.forall_mem_append.2 ⟨hr.guards, List.forall_mem_singleton.2 (readGuard_ok hg).1⟩
  spelled := List.forall_mem_append.2 ⟨hr.spelled, List.forall_mem_singleton.2 (readGuard_ok hg).2⟩
  slots := hr.slots

/-- What a step that runs through does keeps the invariant. -/
theorem WellFormed.performs {r r' : Recurrence} {s : Step} (hr : r.WellFormed)
    (h : r.Performs s r') : r'.WellFormed := by
  cases h with
  | validity hg => exact { hr with validity := hr.validity.and (readGuard_ok hg).1 }
  | base hslots _ _ =>
    exact { hr with
      slots := List.forall_mem_append.2 ⟨hr.slots, List.forall_mem_singleton.2
        ((length_readSlots hslots).trans (List.length_map _))⟩ }
  | rule hg _ | average _ hg _ => exact hr.withRule hg _ _ _

/-- **Every step keeps the invariant.** -/
theorem WellFormed.step {r : Recurrence} (hr : r.WellFormed) (s : Step) :
    (s.run r).1.WellFormed := by
  rcases r.run_cases s with h | ⟨ds, h⟩
  · exact hr.performs h
  · rw [h]
    exact { hr with }

/-- **What is built is well-formed.** -/
theorem Built.wellFormed {r : Recurrence} (h : r.Built) : r.WellFormed := by
  induction h with
  | create h => exact wellFormed_create h
  | step s _ ih => exact ih.step s

/-- **What is built has the header that was checked.** -/
theorem Built.exists_created {r : Recurrence} (h : r.Built) :
    ∃ (name : String) (r₀ : Recurrence), r₀.Created name r.indices r.runtimeVars ∧
      r.toHeader = r₀.toHeader := by
  induction h with
  | @create name indices vars options r h =>
    have hr := created_of_create h
    exact ⟨name, r, by rwa [hr.indices_eq, hr.runtime_eq], rfl⟩
  | @step r s _ ih =>
    rw [r.toHeader_run s]
    exact ih

theorem Built.indices_ne_nil {r : Recurrence} (h : r.Built) : r.indices ≠ [] := by
  obtain ⟨_, _, hr₀, -⟩ := h.exists_created
  exact hr₀.nonempty

/-- Indices and runtime variables have distinct names. -/
theorem Built.nodup_names {r : Recurrence} (h : r.Built) : (r.indices ++ r.runtimeVars).Nodup := by
  obtain ⟨_, _, hr₀, -⟩ := h.exists_created
  exact (names_of_check hr₀.checked).2.1

/-- **Every index has a largest value**, which is a natural number, but for the one name that cannot. -/
theorem Built.exists_maxOf {r : Recurrence} (h : r.Built) {i : String} (hi : i ∈ r.indices)
    (hne : i ≠ "__proto__") : ∃ m : Int, r.maxOf? i = some m ∧ 0 ≤ m := by
  obtain ⟨_, r₀, hr₀, hheader⟩ := h.exists_created
  obtain ⟨w, hw, hpos⟩ := hr₀.maxima i hi hne
  refine ⟨w.toInt, ?_, hpos⟩
  rw [hheader, Header.maxOf?, hw]
  rfl

/-- Performing steps until the end builds. -/
theorem Built.build {r r' : Recurrence} (h : r.Built) {steps : List Step}
    (hsteps : r.build steps = .ok r') : r'.Built := by
  induction steps generalizing r with
  | nil =>
    cases hsteps
    exact h
  | cons s steps ih =>
    rw [Recurrence.build] at hsteps
    split at hsteps
    · next next hrun =>
      have hnext := h.step s
      rw [hrun] at hnext
      exact ih hnext hsteps
    · cases hsteps

/-- A definition whose steps run to the end builds. -/
theorem Built.of_create {name : String} {indices vars : List String} {options : RecurrenceOptions}
    {steps : List Step} {r : Recurrence}
    (h : (Recurrence.create name indices vars options >>= fun r₀ => r₀.build steps) = .ok r) :
    r.Built := by
  obtain ⟨r₀, hr₀, h⟩ := bind_ok h
  exact (Built.create hr₀).build h

end Recurrence

end RecurrenceCompiler
