import RecurrenceCompiler.Codegen.PerValue
import RecurrenceCompiler.Proofs.Expr.Signature
import RecurrenceCompiler.Proofs.Recurrence.Reported
import RecurrenceCompiler.Proofs.Recurrence.Selection

/-!
# Specialisations of base cases

C++ code has one specialisation for each base case. An index that is bound stands in its arguments as a
literal, an index that is left open as a parameter, so the specialisation matches where the base case does
(`matches_iff`). Selection takes the first base case that matches (`select_eq_base_iff`), but among
specialisations there is no first one: they are told apart only if any two base cases bind some index to
different values (`base_specializations_distinct_iff`), which the builder does not ask for
(`shadowed_specialization_matches`).
-/

namespace RecurrenceCompiler

open Text Decimal Arith

/-! ## Values of integer texts -/

/-- The text of a double does not start with a plus sign. -/
theorem Decimal.Spells.head_ne_plus {cs : List Char} {x : Float} (h : Spells cs x) :
    cs.head? ≠ some '+' := by
  rw [Spells] at h
  cases hr : Reading.ofFloat x with
  | nan | zero =>
    rw [hr] at h
    simp [h]
  | infinite negative =>
    rw [hr] at h
    cases negative <;> simp [h, signed]
  | finite negative b =>
    rw [hr] at h
    obtain ⟨l, hl, -, rfl⟩ := h
    cases negative with
    | false => exact hl.head_ne rfl (by decide)
    | true => simp [signed]

/-- **The text of an integer has the double nearest to it as its value**, as arithmetic and as a literal. -/
theorem hasValue_intText {i : Int} (hi : IsFinite (ofInt i)) (env : Env Float) :
    signedLiteral? (intText i).toList = some (ofInt i) ∧
      HasValue env (intText i).toList (ofInt i) := by
  have hspells := spells_intText i
  have hlit := hspells.signedLiteral?_eq hi (isNegativeZero_ofInt i)
  refine ⟨hlit, ?_⟩
  unfold signedLiteral? at hlit
  split at hlit
  · next r hr =>
    obtain ⟨l, hl, hvalue⟩ := Option.map_eq_some_iff.1 hlit
    rw [hr, ← hvalue]
    exact ⟨_, _, (tokens?_op .minus r).trans (by rw [tokens?_literal hl]; rfl),
      .ofTerm (.ofUnary (.neg (.ofPrimary .num))), rfl⟩
  · next r hr => exact absurd (congrArg List.head? hr) hspells.head_ne_plus
  · obtain ⟨l, hl, hvalue⟩ := Option.map_eq_some_iff.1 hlit
    rw [← hvalue]
    exact ⟨_, _, tokens?_literal hl, .ofTerm (.ofUnary (.ofPrimary .num)), rfl⟩

/-- The text of an integer is no name. -/
theorem ne_intText_of_isIdentifier {n : String} (hn : isIdentifier n) {i : Int}
    (hi : IsFinite (ofInt i)) : n ≠ intText i := by
  rintro rfl
  exact absurd ((hasValue_identifier hn).1 (hasValue_intText hi fun _ => none).2) (by simp)

/-! ## Values that base cases bind -/

section
variable {x : Float}

/-- The whole number of a whole double is a double. -/
theorem Decimal.Whole.onGrid_ofFloat (hx : isWhole x = true) : (Whole.ofFloat x).OnGrid := by
  obtain ⟨-, hint⟩ := isIntegral_of_isWhole hx
  rw [Whole.OnGrid, Whole.ofFloat]
  split
  · decide +kernel
  · rw [Whole.toInt_ofInt]
    exact le_antisymm (onDoubleGrid_le hint le_rfl) (le_onDoubleGrid hint le_rfl)

/-- The whole number of a whole double is that double, but for the sign of zero. -/
theorem Decimal.Whole.beq_ofFloat (hx : isWhole x = true) :
    (x == Decimal.ofInt (Whole.ofFloat x).toInt) = true := by
  obtain ⟨-, hint⟩ := isIntegral_of_isWhole hx
  rw [hint.beq_iff (rounds_ofInt _).isIntegral, Decimal.toInt_ofInt, Whole.onGrid_ofFloat hx,
    Whole.ofFloat]
  split
  · next hzero =>
    rw [isNegativeZero, beq_iff_eq] at hzero
    rw [Decimal.toInt, hzero]
    rfl
  · rw [Whole.toInt_ofInt]

end

/-- A base case covers a point if the values that it binds are those of the point. -/
def BaseCase.Covers (b : BaseCase) (point : List Float) : Prop :=
  ∀ (k : Nat) w x, b.slots[k]? = some (some w) → point[k]? = some x → (x == ofInt w.toInt) = true

/-- Two base cases clash if they bind an index to different values. -/
def BaseCase.Clashes (b b' : BaseCase) : Prop :=
  ∃ (k : Nat) (v w : Whole), b.slots[k]? = some (some v) ∧ b'.slots[k]? = some (some w) ∧
    v.toInt ≠ w.toInt

namespace Recurrence

variable {r : Recurrence} {b b' : BaseCase} {point : List Float}

/-- Bound slots hold the values that were given for them. -/
theorem ofFloat_readSlots {slots slots' : List (Option Whole)} {bound : List (String × Float)}
    (h : r.readSlots slots bound = .ok slots')
    (hslots : ∀ w, some w ∈ slots → ∃ x, isWhole x = true ∧ w = .ofFloat x) :
    ∀ w, some w ∈ slots' → ∃ x, isWhole x = true ∧ w = .ofFloat x := by
  induction bound generalizing slots with
  | nil =>
    cases h
    exact hslots
  | cons p bound ih =>
    rw [readSlots] at h
    split at h
    · cases h
    · split at h
      · cases h
      · next hwhole =>
        refine ih h fun w hw => ?_
        rcases List.mem_or_eq_of_mem_set hw with hw | hw
        · exact hslots w hw
        · exact ⟨p.2, by simpa using hwhole, Option.some.inj hw⟩

/-- **What base cases bind are whole doubles.** -/
theorem Built.exists_ofFloat (h : r.Built) :
    ∀ b ∈ r.bases, ∀ w, some w ∈ b.slots → ∃ x, isWhole x = true ∧ w = .ofFloat x := by
  induction h with
  | create h => simp [(created_of_create h).bases]
  | @step r s hr ih =>
    rcases r.run_cases s with h | ⟨ds, h⟩
    · generalize (s.run r).1 = r' at h
      cases h with
      | base hslots _ _ =>
        exact List.forall_mem_append.2 ⟨ih, List.forall_mem_singleton.2
          (ofFloat_readSlots hslots (by simp))⟩
      | validity | rule | average => exact ih
    · rw [h]
      exact ih

/-! ## Where a base case matches -/

/-- The value of an index at a point. -/
theorem pointEnv_getElem (hr : r.WellFormed) {k : Nat} {i : String} (hi : r.indices[k]? = some i) :
    r.pointEnv point i = point[k]? := by
  obtain ⟨hk, rfl⟩ := List.getElem?_eq_some_iff.1 hi
  rw [pointEnv, if_pos (by simp), hr.distinct.idxOf_getElem]

/-- **A base case matches where it covers the point**, and whether it matches can be told everywhere. -/
theorem matchesBase_pointEnv (hr : r.Built) (hb : b ∈ r.bases)
    (hpoint : point.length = r.indices.length) : ∃ m, r.matchesBase (r.pointEnv point) b = .ok m ∧
      (m = true ↔ b.Covers point) := by
  have hwf := hr.wellFormed
  have hlen := hwf.slots b hb
  -- An equality compares the value at the place of its index.
  have hequals : ∀ (k : Nat) (i : String) (w : Whole) (x : Float), r.indices[k]? = some i →
      b.slots[k]? = some (some w) → point[k]? = some x →
      (Constraint.equals i w.toInt).holds (r.pointEnv point) = .ok (x == ofInt w.toInt) := by
    intro k i w x hi hw hx
    have hfinite := hr.reported.slots b hb w (List.mem_of_getElem? hw)
    refine Constraint.holds_eq_ok_iff.2 ⟨x, ofInt w.toInt, ?_, (hasValue_intText hfinite _).2, rfl⟩
    rw [Constraint.equals, hasValue_identifier (hwf.identifiers i (List.mem_of_getElem? hi)),
      pointEnv_getElem hwf hi, hx]
  have hsome : ∀ (k : Nat) (i : String), r.indices[k]? = some i → ∃ x, point[k]? = some x := by
    intro k i hi
    have hk := (List.getElem?_eq_some_iff.1 hi).1
    exact ⟨point[k], List.getElem?_eq_getElem (hpoint ▸ hk)⟩
  have htrue : (r.baseGuard b).holds (r.pointEnv point) = .ok true ↔ b.Covers point := by
    rw [Guard.holds_eq_true_iff]
    constructor
    · intro h k w x hw hx
      obtain ⟨i, hi⟩ : ∃ i, r.indices[k]? = some i :=
        ⟨_, List.getElem?_eq_getElem (hlen ▸ (List.getElem?_eq_some_iff.1 hw).1)⟩
      have hholds := h _ ((mem_slotEqualities_iff hlen).2 ⟨k, i, w, hi, hw, rfl⟩)
      rw [hequals k i w x hi hw hx] at hholds
      exact Except.ok.inj hholds
    · intro h c hc
      obtain ⟨k, i, w, hi, hw, rfl⟩ := (mem_slotEqualities_iff hlen).1 hc
      obtain ⟨x, hx⟩ := hsome k i hi
      rw [hequals k i w x hi hw hx, h k w x hw hx]
  rw [matchesBase_eq hlen]
  by_cases hcovers : b.Covers point
  · exact ⟨true, htrue.2 hcovers, by simpa using hcovers⟩
  · refine ⟨false, holds_eq_false_of_ne (fun c hc => ?_) (mt htrue.1 hcovers), by simpa using hcovers⟩
    obtain ⟨k, i, w, hi, hw, rfl⟩ := (mem_slotEqualities_iff hlen).1 hc
    obtain ⟨x, hx⟩ := hsome k i hi
    exact ⟨_, hequals k i w x hi hw hx⟩

/-- The base case that is selected is the first that matches. -/
theorem selectBase_eq_some_iff {env : Env Float} {bases : List BaseCase} {i : Nat}
    (h : ∀ b ∈ bases, ∃ m, r.matchesBase env b = .ok m) {p : Nat × BaseCase} :
    r.selectBase env i bases = .ok (some p) ↔ ∃ k, p.1 = i + k ∧ bases[k]? = some p.2 ∧
      r.matchesBase env p.2 = .ok true ∧
      ∀ (j : Nat) b, j < k → bases[j]? = some b → r.matchesBase env b ≠ .ok true := by
  induction bases generalizing i with
  | nil => simp [selectBase]
  | cons b bases ih =>
    obtain ⟨⟨m, hm⟩, hbases⟩ := List.forall_mem_cons.1 h
    rw [selectBase, hm]
    cases m with
    | true =>
      change Except.ok (some (i, b)) = .ok (some p) ↔ _
      constructor
      · rintro ⟨⟩
        exact ⟨0, rfl, rfl, hm, by simp⟩
      · rintro ⟨k, hp, hk, -, hfirst⟩
        cases k with
        | zero =>
          obtain rfl := Option.some.inj hk
          rw [← show p.1 = i from hp]
        | succ k => exact absurd hm (hfirst 0 b (by omega) rfl)
    | false =>
      refine (ih hbases (i := i + 1)).trans ⟨?_, ?_⟩
      · rintro ⟨k, hp, hk, hmatch, hfirst⟩
        refine ⟨k + 1, by omega, by simpa using hk, hmatch, fun j b' hj hb' => ?_⟩
        cases j with
        | zero =>
          obtain rfl := Option.some.inj hb'
          rw [hm]
          simp
        | succ j => exact hfirst j b' (by omega) (by simpa using hb')
      · rintro ⟨k, hp, hk, hmatch, hfirst⟩
        cases k with
        | zero =>
          obtain rfl := Option.some.inj hk
          rw [hm] at hmatch
          cases hmatch
        | succ k =>
          exact ⟨k, by omega, by simpa using hk, hmatch,
            fun j b' hj hb' => hfirst (j + 1) b' (by omega) (by simpa using hb')⟩

/-- A base case is picked where selection of base cases finds it. -/
theorem select_eq_base_iff {env : Env Float} {i : Nat} :
    r.select env = .ok (.base i b) ↔ r.selectBase env 0 r.bases = .ok (some (i, b)) := by
  constructor
  · intro h
    obtain ⟨ob, hob, h⟩ := bind_ok h
    cases ob with
    | some p =>
      cases h
      exact hob
    | none =>
      obtain ⟨o, -, h⟩ := bind_ok h
      cases o <;> cases h
  · intro h
    rw [select, h]
    rfl

/-- **Selection picks the first base case that covers the point.** -/
theorem select_base_iff_covers (hr : r.Built) (hpoint : point.length = r.indices.length) {i : Nat} :
    r.select (r.pointEnv point) = .ok (.base i b) ↔ r.bases[i]? = some b ∧ b.Covers point ∧
      ∀ (j : Nat) b', j < i → r.bases[j]? = some b' → ¬ b'.Covers point := by
  have hmatch : ∀ b ∈ r.bases, r.matchesBase (r.pointEnv point) b = .ok true ↔ b.Covers point := by
    intro b hb
    obtain ⟨m, hm, hiff⟩ := matchesBase_pointEnv hr hb hpoint
    rw [hm, ← hiff, Except.ok.injEq]
  rw [select_eq_base_iff, selectBase_eq_some_iff fun b hb =>
    (matchesBase_pointEnv hr hb hpoint).imp fun _ h => h.1]
  simp only [Nat.zero_add, exists_eq_left']
  constructor
  · rintro ⟨hi, hb, hfirst⟩
    exact ⟨hi, (hmatch b (List.mem_of_getElem? hi)).1 hb, fun j b' hj hb' =>
      mt (hmatch b' (List.mem_of_getElem? hb')).2 (hfirst j b' hj hb')⟩
  · rintro ⟨hi, hb, hfirst⟩
    exact ⟨hi, (hmatch b (List.mem_of_getElem? hi)).2 hb, fun j b' hj hb' =>
      mt (hmatch b' (List.mem_of_getElem? hb')).1 (hfirst j b' hj hb')⟩

/-! ## Base cases that clash -/

/-- Base cases that clash cover no point together. -/
theorem not_covers_of_clashes (hr : r.Built) (hb : b ∈ r.bases) (hb' : b' ∈ r.bases)
    (hlen : b.slots.length = point.length) (h : b.Clashes b') (hcovers : b.Covers point)
    (hcovers' : b'.Covers point) (hwhole : ∀ x ∈ point, isWhole x = true) : False := by
  obtain ⟨k, v, w, hv, hw, hne⟩ := h
  obtain ⟨x, hx⟩ : ∃ x, point[k]? = some x :=
    ⟨_, List.getElem?_eq_getElem (hlen ▸ (List.getElem?_eq_some_iff.1 hv).1)⟩
  have hint := (isIntegral_of_isWhole (hwhole x (List.mem_of_getElem? hx))).2
  -- What is bound stands on the grid, so the value of the index tells it.
  have hvalue {w : Whole} (hmem : ∃ x, isWhole x = true ∧ w = .ofFloat x)
      (h : (x == ofInt w.toInt) = true) : toInt x = w.toInt := by
    obtain ⟨y, hy, rfl⟩ := hmem
    rw [hint.beq_iff (rounds_ofInt _).isIntegral, toInt_ofInt, Whole.onGrid_ofFloat hy] at h
    exact h
  refine hne ?_
  rw [← hvalue (hr.exists_ofFloat b hb v (List.mem_of_getElem? hv)) (hcovers k v x hv hx),
    hvalue (hr.exists_ofFloat b' hb' w (List.mem_of_getElem? hw)) (hcovers' k w x hw hx)]

/-- Of base cases that clash with each other, at most one covers a point. -/
theorem index_eq_of_covers (hr : r.Built) (hclash : r.bases.Pairwise BaseCase.Clashes)
    (hpoint : point.length = r.indices.length) (hwhole : ∀ x ∈ point, isWhole x = true) {i j : Nat}
    (hi : r.bases[i]? = some b) (hj : r.bases[j]? = some b') (hb : b.Covers point)
    (hb' : b'.Covers point) : i = j := by
  have hlen {b : BaseCase} (hb : b ∈ r.bases) : b.slots.length = point.length :=
    (hr.wellFormed.slots b hb).trans hpoint.symm
  have hmem := List.mem_of_getElem? hi
  have hmem' := List.mem_of_getElem? hj
  obtain ⟨hlti, rfl⟩ := List.getElem?_eq_some_iff.1 hi
  obtain ⟨hltj, rfl⟩ := List.getElem?_eq_some_iff.1 hj
  rw [List.pairwise_iff_getElem] at hclash
  rcases lt_trichotomy i j with hlt | rfl | hlt
  · exact (not_covers_of_clashes hr hmem hmem' (hlen hmem) (hclash i j hlti hltj hlt) hb hb'
      hwhole).elim
  · rfl
  · exact (not_covers_of_clashes hr hmem' hmem (hlen hmem') (hclash j i hltj hlti hlt) hb' hb
      hwhole).elim

/-- Base cases that do not clash cover some point together. -/
theorem exists_covers (hr : r.Built) (hb : b ∈ r.bases) (hb' : b' ∈ r.bases) (h : ¬ b.Clashes b') :
    ∃ point : List Float, point.length = r.indices.length ∧ (∀ x ∈ point, isWhole x = true) ∧
      b.Covers point ∧ b'.Covers point := by
  have hslot : ∀ k : Fin r.indices.length, ∃ x, isWhole x = true ∧
      ∀ w, b.slots[k.val]? = some (some w) ∨ b'.slots[k.val]? = some (some w) →
        (x == ofInt w.toInt) = true := by
    intro k
    by_cases hbound : ∃ v, b.slots[k.val]? = some (some v) ∨ b'.slots[k.val]? = some (some v)
    · obtain ⟨v, hv⟩ := hbound
      obtain ⟨x, hx, rfl⟩ : ∃ x, isWhole x = true ∧ v = .ofFloat x := by
        rcases hv with hv | hv
        · exact hr.exists_ofFloat b hb v (List.mem_of_getElem? hv)
        · exact hr.exists_ofFloat b' hb' v (List.mem_of_getElem? hv)
      refine ⟨x, hx, fun w hw => ?_⟩
      have heq : (Whole.ofFloat x).toInt = w.toInt := by
        by_contra hne
        rcases hv with hv | hv <;> rcases hw with hw | hw
        · exact hne (congrArg _ (by simpa using hv.symm.trans hw))
        · exact h ⟨k, _, _, hv, hw, hne⟩
        · exact h ⟨k, _, _, hw, hv, Ne.symm hne⟩
        · exact hne (congrArg _ (by simpa using hv.symm.trans hw))
      rw [← heq]
      exact Whole.beq_ofFloat hx
    · refine ⟨0.0, by decide +kernel, fun w hw => absurd ⟨w, hw⟩ hbound⟩
  choose value hwhole hvalue using hslot
  refine ⟨List.ofFn value, by simp, by simpa [List.mem_ofFn] using hwhole, ?_, ?_⟩
  · intro k w x hw hx
    obtain ⟨hk, rfl⟩ := List.getElem?_eq_some_iff.1 hx
    rw [List.getElem_ofFn]
    exact hvalue _ w (.inl hw)
  · intro k w x hw hx
    obtain ⟨hk, rfl⟩ := List.getElem?_eq_some_iff.1 hx
    rw [List.getElem_ofFn]
    exact hvalue _ w (.inr hw)

end Recurrence

/-! ## Specialisations -/

/-- What a specialisation for a base case is for: its parameters, and its arguments, each of which is a
parameter or a literal. -/
structure Specialization where
  params : List String
  args : List String

namespace Specialization

/-- The lines that open a specialisation. -/
def head (s : Specialization) (name : String) : String :=
  "template<" ++ ", ".intercalate (s.params.map ("int " ++ ·)) ++ ">" ++ "\n" ++
    ("struct " ++ name ++ "<" ++ ", ".intercalate s.args ++ ", void> \x7b") ++ "\n"

/-- With values for the parameters, an argument stands for a number: a parameter for its value, a literal
for the number it spells. -/
def StandsFor (s : Specialization) (values : String → Float) (arg : String) (x : Float) : Prop :=
  if arg ∈ s.params then values arg = x
  else ∃ y, signedLiteral? arg.toList = some y ∧ (x == y) = true

/-- A specialisation matches the points for which its arguments stand, with any values for its parameters. -/
def Matches (s : Specialization) (point : List Float) : Prop :=
  ∃ values, List.Forall₂ (s.StandsFor values) s.args point

end Specialization

namespace Recurrence

variable {r : Recurrence} {b b' : BaseCase} {point : List Float}

/-- The specialisation of a base case. -/
def baseSpecialization (r : Recurrence) (b : BaseCase) : Specialization :=
  ⟨r.freeIndices b, r.baseArgs b⟩

/-- **The specialisation that is written for a base case.** -/
theorem exists_body_of_cppBase {o : CodegenOptions} {resolve : Resolver} {block : String}
    (h : r.cppBase o resolve b = .ok block) :
    ∃ body, block = (r.baseSpecialization b).head (coeffName r.name) ++ body := by
  have hlines (a c l : String) (ls : List String) :
      ∃ body, "\n".intercalate (a :: c :: l :: ls) = a ++ "\n" ++ c ++ "\n" ++ body :=
    ⟨"\n".intercalate (l :: ls), by
      simp only [String.intercalate_cons_cons, String.append_assoc]⟩
  obtain ⟨value, -, h⟩ := bind_ok h
  cases h
  exact hlines _ _ _ _

/-- An index that is left open stands for itself, one that is bound for its value. -/
theorem getElem?_baseArgs {k : Nat} {i : String} {s : Option Whole} (hi : r.indices[k]? = some i)
    (hs : b.slots[k]? = some s) : (r.baseArgs b)[k]? = some ((s.map Whole.text).getD i) := by
  simp [baseArgs, hi, hs]

/-- The parameters are the indices that are left open. -/
theorem mem_freeIndices {i : String} : i ∈ r.freeIndices b ↔
    ∃ k : Nat, r.indices[k]? = some i ∧ b.slots[k]? = some none := by
  rw [freeIndices, List.mem_map]
  constructor
  · rintro ⟨⟨j, s⟩, hmem, rfl⟩
    obtain ⟨hzip, hnone⟩ := List.mem_filter.1 hmem
    obtain ⟨k, hk⟩ := List.mem_iff_getElem?.1 hzip
    obtain rfl := Option.isNone_iff_eq_none.1 hnone
    exact ⟨k, List.getElem?_zip_eq_some.1 hk⟩
  · rintro ⟨k, hk⟩
    exact ⟨(i, none), List.mem_filter.2
      ⟨List.mem_of_getElem? (List.getElem?_zip_eq_some.2 hk), rfl⟩, rfl⟩

/-- The literal of a bound index stands for the value that is bound. -/
theorem standsFor_bound (hr : r.Built) (hb : b ∈ r.bases) {w : Whole} (hw : some w ∈ b.slots)
    {values : String → Float} {x : Float} :
    (r.baseSpecialization b).StandsFor values w.text x ↔ (x == ofInt w.toInt) = true := by
  have hfinite := hr.reported.slots b hb w hw
  have hfree : w.text ∉ (r.baseSpecialization b).params := by
    intro hmem
    obtain ⟨k, hi, -⟩ := mem_freeIndices.1 hmem
    exact ne_intText_of_isIdentifier
      (hr.wellFormed.identifiers _ (List.mem_of_getElem? hi)) hfinite rfl
  rw [Specialization.StandsFor, if_neg hfree, Whole.text, (hasValue_intText hfinite fun _ => none).1]
  simp

/-- **A specialisation matches where its base case covers the point.** -/
theorem matches_iff (hr : r.Built) (hb : b ∈ r.bases) (hpoint : point.length = r.indices.length) :
    (r.baseSpecialization b).Matches point ↔ b.Covers point := by
  have hwf := hr.wellFormed
  have hlen := hwf.slots b hb
  have hindex (k : Nat) (hk : k < point.length) : ∃ i, r.indices[k]? = some i :=
    ⟨_, List.getElem?_eq_getElem (hpoint ▸ hk)⟩
  rw [Specialization.Matches]
  constructor
  · rintro ⟨values, h⟩ k w x hw hx
    obtain ⟨hk, rfl⟩ := List.getElem?_eq_some_iff.1 hx
    obtain ⟨i, hi⟩ := hindex k hk
    obtain ⟨hk', harg⟩ := List.getElem?_eq_some_iff.1 (getElem?_baseArgs hi hw)
    have hstands := h.get hk' hk
    rw [List.get_eq_getElem, List.get_eq_getElem] at hstands
    rw [← standsFor_bound hr hb (List.mem_of_getElem? hw)]
    exact harg ▸ hstands
  · intro h
    -- A parameter has the value of its index.
    refine ⟨fun i => (r.pointEnv point i).getD 0, List.forall₂_iff_get.2
      ⟨by simp [baseSpecialization, baseArgs, hpoint], fun k hk hk' => ?_⟩⟩
    obtain ⟨i, hi⟩ := hindex k hk'
    obtain ⟨s, hs⟩ : ∃ s, b.slots[k]? = some s :=
      ⟨_, List.getElem?_eq_getElem (hlen ▸ hpoint ▸ hk')⟩
    obtain ⟨_, harg⟩ := List.getElem?_eq_some_iff.1 (getElem?_baseArgs hi hs)
    have hx : point[k]? = some point[k] := List.getElem?_eq_getElem hk'
    have hstands : (r.baseSpecialization b).StandsFor (fun i => (r.pointEnv point i).getD 0)
        ((s.map Whole.text).getD i) point[k] := by
      cases s with
      | none =>
        have hfree : i ∈ (r.baseSpecialization b).params := mem_freeIndices.2 ⟨k, hi, hs⟩
        rw [Option.map_none, Option.getD_none, Specialization.StandsFor, if_pos hfree,
          pointEnv_getElem hwf hi, hx, Option.getD_some]
      | some w => exact (standsFor_bound hr hb (List.mem_of_getElem? hs)).2 (h k w _ hs hx)
    change (r.baseSpecialization b).args.get ⟨k, hk⟩ = _ at harg
    rw [harg]
    exact hstands

/-- The blocks of base cases in a header for single values. -/
theorem blocks_of_generatePerValue {o : CodegenOptions} {resolve : Resolver} {u : GeneratedUnit}
    (ho : o.target = .cpp) (h : r.generatePerValue o resolve = .ok u) :
    ∃ before blocks after, u.code = r.cppFile (before ++ blocks ++ after) ∧
      List.Forall₂ (fun b block => r.cppBase o resolve b = .ok block) r.bases blocks := by
  rw [generatePerValue, ho] at h
  obtain ⟨⟨strategies, code⟩, hcode, h⟩ := bind_ok h
  rw [cppPerValue] at hcode
  obtain ⟨blocks, hblocks, hcode⟩ := bind_ok hcode
  obtain ⟨rules, -, hcode⟩ := bind_ok hcode
  cases hcode
  cases h
  exact ⟨_, blocks, _, rfl, forall₂_of_mapM hblocks⟩

/-- **The specialisations of base cases are told apart only by values that clash.** Of any recurrence that
was built, the C++ code for single values has one specialisation for each base case, in the order of
declaration. At every point of whole doubles, a base case is picked exactly if its specialisation is the
first that matches. No two specialisations match at one point if and only if any two base cases clash; where
they do, the specialisation that matches is the one of the base case that is picked. -/
theorem base_specializations_distinct_iff {o : CodegenOptions} {resolve : Resolver} {u : GeneratedUnit}
    (hr : r.Built) (ho : o.target = .cpp) (hu : r.generatePerValue o resolve = .ok u) :
    (∃ before blocks after, u.code = r.cppFile (before ++ blocks ++ after) ∧
      List.Forall₂ (fun b block =>
        ∃ body, block = (r.baseSpecialization b).head (coeffName r.name) ++ body) r.bases blocks) ∧
    (∀ point : List Float, point.length = r.indices.length → (∀ x ∈ point, isWhole x = true) →
      ∀ i b, r.select (r.pointEnv point) = .ok (.base i b) ↔
        r.bases[i]? = some b ∧ (r.baseSpecialization b).Matches point ∧
        ∀ (j : Nat) b', j < i → r.bases[j]? = some b' → ¬ (r.baseSpecialization b').Matches point) ∧
    ((∀ point : List Float, point.length = r.indices.length → (∀ x ∈ point, isWhole x = true) →
      ∀ (i j : Nat) b b', r.bases[i]? = some b → r.bases[j]? = some b' →
        (r.baseSpecialization b).Matches point → (r.baseSpecialization b').Matches point → i = j) ↔
      r.bases.Pairwise BaseCase.Clashes) ∧
    (r.bases.Pairwise BaseCase.Clashes →
      ∀ point : List Float, point.length = r.indices.length → (∀ x ∈ point, isWhole x = true) →
        ∀ (i : Nat) b, r.bases[i]? = some b → ((r.baseSpecialization b).Matches point ↔
          r.select (r.pointEnv point) = .ok (.base i b))) := by
  have hmatches {point : List Float} (hpoint : point.length = r.indices.length) {i : Nat} {b : BaseCase}
      (hi : r.bases[i]? = some b) : (r.baseSpecialization b).Matches point ↔ b.Covers point :=
    matches_iff hr (List.mem_of_getElem? hi) hpoint
  refine ⟨?blocks, ?first, ⟨?clash, ?distinct⟩, ?picked⟩
  case blocks =>
    obtain ⟨before, blocks, after, hcode, hblocks⟩ := blocks_of_generatePerValue ho hu
    exact ⟨before, blocks, after, hcode, hblocks.imp fun _ _ => exists_body_of_cppBase⟩
  case first =>
    intro point hpoint _ i b
    rw [select_base_iff_covers hr hpoint]
    constructor
    · rintro ⟨hi, hb, hfirst⟩
      exact ⟨hi, (hmatches hpoint hi).2 hb, fun j b' hj hb' =>
        mt (hmatches hpoint hb').1 (hfirst j b' hj hb')⟩
    · rintro ⟨hi, hb, hfirst⟩
      exact ⟨hi, (hmatches hpoint hi).1 hb, fun j b' hj hb' =>
        mt (hmatches hpoint hb').2 (hfirst j b' hj hb')⟩
  case clash =>
    -- Base cases that do not clash have a point in common.
    intro h
    rw [List.pairwise_iff_getElem]
    intro i j hi hj hlt
    by_contra hnot
    obtain ⟨point, hpoint, hwhole, hb, hb'⟩ :=
      exists_covers hr (List.getElem_mem hi) (List.getElem_mem hj) hnot
    have hi := List.getElem?_eq_getElem hi
    have hj := List.getElem?_eq_getElem hj
    have := h point hpoint hwhole i j _ _ hi hj ((hmatches hpoint hi).2 hb) ((hmatches hpoint hj).2 hb')
    omega
  case distinct =>
    intro hclash point hpoint hwhole i j b b' hi hj hb hb'
    exact index_eq_of_covers hr hclash hpoint hwhole hi hj ((hmatches hpoint hi).1 hb)
      ((hmatches hpoint hj).1 hb')
  case picked =>
    intro hclash point hpoint hwhole i b hi
    rw [hmatches hpoint hi, select_base_iff_covers hr hpoint]
    constructor
    · intro hb
      refine ⟨hi, hb, ?_⟩
      intro j b' hj hb' hcovers
      have := index_eq_of_covers hr hclash hpoint hwhole hi hb' hb hcovers
      omega
    · exact fun h => h.2.1

/-- A recurrence with two base cases: the first binds one index, the second both. -/
def paired (v : Float) : Except Error Recurrence := do
  let r ← create "Pair" ["n", "k"] [] {}
  r.build [.base [("n", 0)] (.number 1), .base [("n", v), ("k", 0)] (.number 2)]

theorem built_paired {v : Float} (h : paired v = .ok r) : r.Built := by
  obtain ⟨r₀, hr₀, hrun⟩ := bind_ok h
  exact (Built.create hr₀).build hrun

/-- If the first index tells the base cases apart, specialisations match where their base cases are
picked. -/
theorem base_specializations_distinct_iff_paired : ∃ r u, paired 1 = .ok r ∧ r.Built ∧
    r.generatePerValue { target := .cpp } (fun _ => none) = .ok u ∧
    r.bases.map (fun b => (r.baseSpecialization b).args) = [["0", "k"], ["1", "0"]] ∧
    (∃ before blocks after, u.code = r.cppFile (before ++ blocks ++ after) ∧
      List.Forall₂ (fun b block =>
        ∃ body, block = (r.baseSpecialization b).head (coeffName r.name) ++ body) r.bases blocks) ∧
    ∀ point : List Float, point.length = r.indices.length → (∀ x ∈ point, isWhole x = true) →
      ∀ (i : Nat) b, r.bases[i]? = some b → ((r.baseSpecialization b).Matches point ↔
        r.select (r.pointEnv point) = .ok (.base i b)) := by
  have hcheck : ((paired 1).toOption.any fun r =>
      r.bases.map (fun b => (r.baseSpecialization b).args) == [["0", "k"], ["1", "0"]] &&
      r.bases.map (·.slots[0]?.join.map Whole.toInt) == [some 0, some 1] &&
      (r.generatePerValue { target := .cpp } fun _ => none).toOption.any fun _ => true) = true := by
    decide +kernel
  obtain ⟨r, hr, hcheck⟩ := exists_ok_of_any hcheck
  simp only [Bool.and_eq_true, beq_iff_eq] at hcheck
  obtain ⟨⟨hargs, hslots⟩, hgenerate⟩ := hcheck
  obtain ⟨u, hu, -⟩ := exists_ok_of_any hgenerate
  have hclash : r.bases.Pairwise BaseCase.Clashes := by
    obtain ⟨b, b', hbases⟩ := List.length_eq_two.1 (by simpa using congrArg List.length hslots)
    rw [hbases] at hslots ⊢
    obtain ⟨⟨v, hv, hzero⟩, w, hw, hone⟩ : (∃ v, b.slots[0]?.join = some v ∧ v.toInt = 0) ∧
        ∃ w, b'.slots[0]?.join = some w ∧ w.toInt = 1 := by simpa using hslots
    exact List.pairwise_pair.2 ⟨0, v, w, Option.join_eq_some_iff.1 hv, Option.join_eq_some_iff.1 hw,
      by omega⟩
  obtain ⟨hblocks, -, -, hpicked⟩ := base_specializations_distinct_iff (built_paired hr) rfl hu
  exact ⟨r, u, hr, built_paired hr, hu, hargs, hblocks, hpicked hclash⟩

/-- **Specialisations can match together.** The second base case binds all that the first one does, and one
index more. At the point where both match the first is picked, while C++ takes the specialisation that is
more special. -/
theorem shadowed_specialization_matches : ∃ r u b b', paired 0 = .ok r ∧
    r.generatePerValue { target := .cpp } (fun _ => none) = .ok u ∧ r.bases = [b, b'] ∧
    (∃ before block block' body body' after,
      u.code = r.cppFile (before ++ [block, block'] ++ after) ∧
      block = (r.baseSpecialization b).head "PairCoeff" ++ body ∧
      block' = (r.baseSpecialization b').head "PairCoeff" ++ body') ∧
    (r.baseSpecialization b).args = ["0", "k"] ∧ (r.baseSpecialization b').args = ["0", "0"] ∧
    (r.baseSpecialization b).Matches [0, 0] ∧ (r.baseSpecialization b').Matches [0, 0] ∧
    r.select (r.pointEnv [(0 : Float), 0]) = .ok (.base 0 b) := by
  have hcheck : ((paired 0).toOption.any fun r =>
      r.bases.length == 2 && r.name == "Pair" && r.indices.length == 2 &&
      r.bases.map (fun b => (r.baseSpecialization b).args) == [["0", "k"], ["0", "0"]] &&
      (r.bases.all fun b => (r.matchesBase (r.pointEnv [(0 : Float), 0]) b).toOption == some true) &&
      (r.generatePerValue { target := .cpp } fun _ => none).toOption.any fun _ => true) = true := by
    decide +kernel
  obtain ⟨r, hr, hcheck⟩ := exists_ok_of_any hcheck
  simp only [Bool.and_eq_true, beq_iff_eq] at hcheck
  obtain ⟨⟨⟨⟨⟨hlength, hname⟩, hindices⟩, hargs⟩, hmatch⟩, hgenerate⟩ := hcheck
  obtain ⟨u, hu, -⟩ := exists_ok_of_any hgenerate
  obtain ⟨b, b', hbases⟩ := List.length_eq_two.1 hlength
  have hpoint : [(0 : Float), 0].length = r.indices.length := hindices.symm
  have hcovers : ∀ b ∈ r.bases, b.Covers [0, 0] := by
    intro b hb
    obtain ⟨m, hm, hiff⟩ := matchesBase_pointEnv (built_paired hr) hb hpoint
    have htrue := List.all_eq_true.1 hmatch b hb
    rw [hm, beq_iff_eq] at htrue
    exact hiff.1 (Option.some.inj htrue)
  have hmem : b ∈ r.bases ∧ b' ∈ r.bases := by simp [hbases]
  obtain ⟨hargs, hargs'⟩ : (r.baseSpecialization b).args = ["0", "k"] ∧
      (r.baseSpecialization b').args = ["0", "0"] := by simpa [hbases] using hargs
  obtain ⟨before, blocks, after, hcode, hblocks⟩ := blocks_of_generatePerValue rfl hu
  rw [hbases] at hblocks
  cases hblocks with
  | cons hblock hblocks =>
    cases hblocks with
    | cons hblock' hblocks =>
      cases hblocks
      obtain ⟨body, hbody⟩ := exists_body_of_cppBase hblock
      obtain ⟨body', hbody'⟩ := exists_body_of_cppBase hblock'
      rw [hname] at hbody hbody'
      have hbuilt := built_paired hr
      exact ⟨r, u, b, b', hr, hu, hbases, ⟨before, _, _, body, body', after, hcode, hbody, hbody'⟩,
        hargs, hargs', (matches_iff hbuilt hmem.1 hpoint).2 (hcovers b hmem.1),
        (matches_iff hbuilt hmem.2 hpoint).2 (hcovers b' hmem.2),
        (select_base_iff_covers hbuilt hpoint).2 ⟨by rw [hbases]; rfl, hcovers b hmem.1, by simp⟩⟩

end Recurrence

end RecurrenceCompiler
