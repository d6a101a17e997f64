import RecurrenceCompiler.Proofs.Codegen.SlotReads
import RecurrenceCompiler.Proofs.Expr.Bookkeeping
import RecurrenceCompiler.Proofs.Recurrence.Sharing

/-!
# Sharing in a rule is worth its cost

The places of a rule are calls and products (`Built.monomial_places`), whatever the brackets of its
scale. A call costs the same whatever its shifts are. A product has one colon in its signature for each
factor, since no text has a colon, and multiplication is its only operation, so what it costs can be
read off its signature (`cost_eq_of_signature`). So places that are counted together cost the same, and
the bookkeeping of sharing is exact for every rule that the builder adds (`sharing_exact`).
-/

namespace RecurrenceCompiler

open Text Decimal Arith RuleText

namespace Expr

/-! ## Monomials -/

/-- Whether an expression is a product of constants and texts: multiplication is its only operation. -/
def isMonomial : Expr → Bool
  | .const _ | .var _ | .index _ => true
  | .binop .mul l r => l.isMonomial && r.isMonomial
  | _ => false

theorem isMonomial_number (x : Float) : (number x).isMonomial = true := by
  rw [number, isMonomial]

theorem isMonomial_mul {l r : Expr} (hl : l.isMonomial = true) (hr : r.isMonomial = true) :
    (Expr.binop .mul l r).isMonomial = true := by
  rw [isMonomial, hl, hr, Bool.and_self]

theorem IsCoefficient.isMonomial {e : Expr} (h : e.IsCoefficient) : e.isMonomial = true := by
  induction h with
  | number x => exact isMonomial_number x
  | var | index => rw [Expr.isMonomial]
  | mul _ _ ihl ihr => exact isMonomial_mul ihl ihr

/-- A product of `n` factors has `n - 1` multiplications. -/
theorem cost_of_isMonomial {e : Expr} (h : e.isMonomial = true) :
    e.cost + 2 = 2 * e.leaves.length := by
  induction e using Expr.induction with
  | const | var | index => rfl
  | binop op l r ihl ihr =>
    cases op with
    | mul =>
      rw [isMonomial, Bool.and_eq_true] at h
      rw [cost_binop, leaves, List.length_append, Nat.mul_add, ← ihl h.1, ← ihr h.2]
      change 2 + l.cost + r.cost + 2 = _
      omega
    | _ => cases h
  | _ => cases h

/-- A constant or a text without a colon. -/
def Colonless : Expr → Prop
  | .const (.number _) => True
  | .var t | .index t => ':' ∉ t.toList
  | _ => False

/-- **The signature of a product has a colon for each factor.** -/
theorem count_colon_signature {e : Expr} (h : e.isMonomial = true) (hleaves : ∀ l ∈ e.leaves, l.Colonless)
    (indices : List String) : (e.signature indices).toList.count ':' = e.leaves.length := by
  induction e using Expr.induction with
  | const c =>
    cases c with
    | number x =>
      have htext := List.count_eq_zero.2 (legible_numberText x).colon
      simp [signature, leaves, Constant.text, htext]
    | raw t => exact (hleaves (.const (.raw t)) (by simp [leaves])).elim
  | var t =>
    have htext := List.count_eq_zero.2 (hleaves (.var t) (by simp [leaves]))
    simp [signature, leaves, htext]
  | index t =>
    have htext := List.count_eq_zero.2 (hleaves (.index t) (by simp [leaves]))
    simp [signature, leaves, htext]
  | binop op l r ihl ihr =>
    cases op with
    | mul =>
      rw [isMonomial, Bool.and_eq_true] at h
      rw [leaves, List.forall_mem_append] at hleaves
      rw [toList_signature_mul, leaves, List.length_append, ← ihl h.1 hleaves.1, ← ihr h.2 hleaves.2]
      simp
    | _ => cases h
  | _ => cases h

/-- **Products with one signature cost the same.** -/
theorem cost_eq_of_signature {e e' : Expr} (h : e.isMonomial = true) (h' : e'.isMonomial = true)
    (hleaves : ∀ l ∈ e.leaves, l.Colonless) (hleaves' : ∀ l ∈ e'.leaves, l.Colonless)
    {indices : List String} (heq : shareSignature indices e = shareSignature indices e') :
    e.cost = e'.cost := by
  have hshare {k : Expr} (hk : k.isMonomial = true) : shareSignature indices k = k.signature indices := by
    cases k with
    | call => cases hk
    | _ => rfl
  have hcolons : e.leaves.length = e'.leaves.length := by
    rw [← count_colon_signature h hleaves indices, ← hshare h, heq, hshare h',
      count_colon_signature h' hleaves' indices]
  have hcost := cost_of_isMonomial h
  have hcost' := cost_of_isMonomial h'
  omega

/-! ## Places -/

/-- The coefficients of an expression that take part in sharing are products. -/
def MonomialPlaces (e : Expr) : Prop :=
  ∀ k, (ShareKind.coeff, k) ∈ e.visits → k.isMonomial = true

theorem IsBody.monomialPlaces {rank : Nat} {e : Expr} (h : e.IsBody rank) : e.MonomialPlaces :=
  fun _ hk => ((h.isPlace _ hk).coeff rfl).1.isMonomial

theorem monomialPlaces_scaled {inner scale : Expr} {division : Bool} (hinner : inner.MonomialPlaces)
    (hscale : scale.isMonomial = true) : (Expr.scaled inner scale division).MonomialPlaces := by
  intro k hk
  rw [visits, List.mem_append, List.mem_singleton] at hk
  rcases hk with hk | hk
  · exact hinner k hk
  · cases hk
    exact hscale

theorem monomialPlaces_average {bs : List Expr} {scale : Expr} (hbs : ∀ b ∈ bs, b.MonomialPlaces)
    (hscale : scale.isMonomial = true) : (Expr.average bs scale).MonomialPlaces := by
  intro k hk
  rw [visits, Interpretation.visitsOfList_eq, List.mem_append, List.mem_singleton] at hk
  rcases hk with hk | hk
  · obtain ⟨b, hb, hk⟩ := List.mem_flatMap.1 hk
    exact hbs b hb k hk
  · cases hk
    exact hscale

theorem call_of_termVisit {t : Term Expr} {k : Expr} (h : (ShareKind.call, k) ∈ termVisits t) :
    ∃ c, k = .call c := by
  rw [termVisits, List.mem_append] at h
  rcases h with h | h
  · split at h
    · cases h
    · cases List.mem_singleton.1 h
  · split at h
    · cases List.mem_singleton.1 h
      exact ⟨_, rfl⟩
    · cases h

/-- A place of a call is a call. -/
theorem call_of_visit {e k : Expr} (h : (ShareKind.call, k) ∈ e.visits) : ∃ c, k = .call c := by
  induction e using Expr.induction with
  | const | var | index | lookup | ref => cases h
  | call c =>
    cases List.mem_singleton.1 h
    exact ⟨c, rfl⟩
  | binop op l r ihl ihr =>
    rw [visits, List.mem_append] at h
    exact h.elim ihl ihr
  | term t => exact call_of_termVisit h
  | sum ts =>
    obtain ⟨t, -, h⟩ := List.mem_flatMap.1 h
    exact call_of_termVisit h
  | scaled inner scale division ihi =>
    rw [visits, List.mem_append] at h
    exact h.elim ihi fun h => by cases List.mem_singleton.1 h
  | average bs scale ihb =>
    rw [visits, Interpretation.visitsOfList_eq, List.mem_append] at h
    rcases h with h | h
    · obtain ⟨b, hb, h⟩ := List.mem_flatMap.1 h
      exact ihb b hb h
    · cases List.mem_singleton.1 h

/-- **Places that are counted together cost the same.** -/
theorem cost_eq_of_placeKey {e : Expr} (hplaces : e.MonomialPlaces)
    (hleaves : ∀ k, (ShareKind.coeff, k) ∈ e.visits → ∀ l ∈ k.leaves, l.Colonless)
    {indices : List String} {p q : ShareKind × Expr} (hp : p ∈ e.visits) (hq : q ∈ e.visits)
    (hkey : placeKey indices p = placeKey indices q) : p.2.cost = q.2.cost := by
  obtain ⟨kind, a⟩ := p
  obtain ⟨kind', b⟩ := q
  obtain ⟨rfl, hsig⟩ := Prod.mk.inj hkey
  cases kind with
  | call =>
    obtain ⟨c, rfl⟩ := call_of_visit hp
    obtain ⟨d, rfl⟩ := call_of_visit hq
    rw [cost_call, cost_call]
  | coeff =>
    exact cost_eq_of_signature (hplaces a hp) (hplaces b hq) (hleaves a hp) (hleaves b hq) hsig

end Expr

/-! ## What is read -/

namespace RuleText

variable {ctx : Context}

theorem isMonomial_negate {e : Expr} (h : e.isMonomial = true) : (negate e).isMonomial = true := by
  unfold negate
  split
  · exact Expr.isMonomial_number _
  · exact Expr.isMonomial_mul (Expr.isMonomial_number _) h

/-- **What is read is a product**, if what was read before is. -/
theorem Reads.isMonomial {g : Reading} {e : Expr} (h : Reads ctx g e)
    (hacc : ∀ a ∈ g.soFar, a.isMonomial = true) : e.isMonomial = true := by
  induction h with
  | coeff _ ih | wrapped _ _ ih => exact ih nofun
  | done => exact hacc _ rfl
  | @next acc f fs a e _ _ ihf ihfs =>
    have ha := ihf nofun
    refine ihfs ?_
    rintro b ⟨⟩
    cases acc with
    | none => exact ha
    | some a' => exact Expr.isMonomial_mul (hacc a' rfl) ha
  | number => exact Expr.isMonomial_number _
  | runtime | index | name | verbatim => rw [Expr.isMonomial]
  | negated _ ih => exact isMonomial_negate (ih nofun)

/-- **The coefficients of a rule are products.** -/
theorem monomialPlaces_parseRule (hvars : ∀ v ∈ ctx.runtimeVars, isIdentifier v) {text : String}
    {scale : Option String} {e : Expr} (h : parseRule ctx text scale = .ok e) : e.MonomialPlaces := by
  obtain ⟨body, hbody, h⟩ := bind_ok h
  have hbody := (isBody_parseBody hvars hbody).monomialPlaces
  cases scale with
  | none =>
    cases h
    exact hbody
  | some s =>
    obtain ⟨⟨factor, division⟩, hscale, h⟩ := bind_ok h
    cases h
    exact Expr.monomialPlaces_scaled hbody
      ((reads_parseCoeff (parseScaleChars_eq_ok hscale)).isMonomial nofun)

/-- The texts that are read have no colon. -/
theorem Kept.colonless {vars indices : List String} (hvars : ∀ v ∈ vars, isIdentifier v) {l : Expr}
    (h : Kept vars indices [] l) (hl : ∀ c, l ≠ .call c) : l.Colonless := by
  cases h with
  | number => trivial
  | runtime hv => exact (legible_of_isIdentifier (hvars _ hv)).colon
  | text ht _ | index ht =>
    obtain ⟨ts, hts⟩ := Option.isSome_iff_exists.1 ht
    exact not_mem_of_tokens? hts rfl rfl rfl
  | lookup htable => cases htable
  | call => exact (hl _ rfl).elim

end RuleText

/-- A product has no calls. -/
theorem Expr.isArithmetic_of_isMonomial {e : Expr} (h : e.isMonomial = true) : e.isArithmetic = true := by
  induction e using Expr.induction with
  | const | var | index => rfl
  | binop op l r ihl ihr =>
    cases op with
    | mul =>
      rw [isMonomial, Bool.and_eq_true] at h
      rw [isArithmetic, ihl h.1, ihr h.2, Bool.and_self]
    | _ => cases h
  | _ => cases h

/-- No reference is read. -/
theorem RuleText.AllKept.refs_eq_nil {vars indices tables : List String} {e : Expr}
    (h : AllKept vars indices tables e) : e.refs = [] := by
  rw [Expr.refs, List.filterMap_eq_nil_iff]
  intro l hl
  cases h l hl <;> rfl

namespace Recurrence

variable {r : Recurrence}

/-- **The coefficients of the rules of a recurrence are products.** -/
theorem Built.monomial_places (h : r.Built) : ∀ rule ∈ r.rules, rule.expr.MonomialPlaces := by
  induction h with
  | create h =>
    rw [(created_of_create h).rules]
    exact nofun
  | @step r s hr ih =>
    have hvars : ∀ v ∈ r.runtimeVars, isIdentifier v := hr.wellFormed.runtime
    rcases r.run_cases s with h | ⟨ds, h⟩
    · generalize (s.run r).1 = r' at h
      cases h with
      | validity | base => exact ih
      | rule _ he =>
        exact List.forall_mem_append.2 ⟨ih, List.forall_mem_singleton.2
          (@monomialPlaces_parseRule r.nextContext hvars _ _ _ he)⟩
      | average _ _ hes =>
        refine List.forall_mem_append.2 ⟨ih, List.forall_mem_singleton.2 ?_⟩
        refine Expr.monomialPlaces_average (fun e he => ?_) (Expr.isMonomial_number _)
        obtain ⟨b, -, hb⟩ := exists_of_forall₂ hes he
        exact (@isBody_parseBody r.nextContext hvars b e hb).monomialPlaces
    · rw [h]
      exact ih

/-- Places of a rule that are counted together cost the same. -/
theorem Built.cost_eq_of_placeKey (hr : r.Built) {rule : Rule} (hrule : rule ∈ r.rules)
    {indices : List String} {p q : ShareKind × Expr} (hp : p ∈ rule.expr.visits)
    (hq : q ∈ rule.expr.visits) (hkey : Expr.placeKey indices p = Expr.placeKey indices q) :
    p.2.cost = q.2.cost := by
  have hplaces := hr.monomial_places rule hrule
  refine Expr.cost_eq_of_placeKey hplaces (fun k hk l hl => ?_) hp hq hkey
  have hkept := hr.rules_kept rule hrule l (Expr.leaves_visit_subset hk hl)
  refine hkept.colonless hr.wellFormed.runtime ?_
  rintro c rfl
  exact Expr.not_call_of_isArithmetic (Expr.isArithmetic_of_isMonomial (hplaces k hk)) hl

/-- **The bookkeeping of sharing is exact for every rule of a recurrence.** Candidates have distinct
names. Each is referred to in the result as often as it was counted, and by no candidate. What the rule
costs is what the result costs and each candidate as often as it was counted, so sharing what occurs
costs no more than the rule. -/
theorem Built.sharing_exact (hr : r.Built) {rule : Rule} (hrule : rule ∈ r.rules) (indices : List String)
    (threshold : Int) :
    let s := rule.expr.share indices threshold
    (s.candidates.map (·.name)).Nodup ∧
      (∀ c ∈ s.candidates, s.result.refs.count c.name = c.count ∧
        ∀ d ∈ s.candidates, c.name ∉ d.expr.refs) ∧
      rule.expr.cost = s.result.cost + (s.candidates.map fun c => c.count * c.expr.cost).sum ∧
      (1 ≤ threshold →
        s.result.cost + (s.candidates.map fun c => c.expr.cost).sum ≤ rule.expr.cost) := by
  intro s
  have hkept := hr.rules_kept rule hrule
  have hcost : rule.expr.cost = s.result.cost +
      (s.candidates.map fun c => c.count * c.expr.cost).sum :=
    Expr.cost_share indices threshold fun p hp q hq => hr.cost_eq_of_placeKey hrule hp hq
  refine ⟨Expr.nodup_nameFrom 1 _, fun c hc =>
    ⟨Expr.count_refs_share hkept.refs_eq_nil indices threshold hc, fun d hd => ?_⟩, hcost, fun hone => ?_⟩
  · have hplace := (Expr.mem_candidates hd).1
    have hrefs : d.expr.refs = [] :=
      AllKept.refs_eq_nil fun l hl => hkept l (Expr.leaves_visit_subset hplace hl)
    rw [hrefs]
    exact List.not_mem_nil
  · rw [hcost]
    refine Nat.add_le_add_left (List.sum_le_sum fun c hc => Nat.le_mul_of_pos_left _ ?_) _
    have hcount := (Expr.count_candidate hc).2
    omega

/-- A product and a call that occur twice are each referred to twice: the result costs 68 where the rule
costs 172, and the two candidates cost 52. -/
theorem sharing_exact_repeating : ∃ (r : Recurrence) (rule : Rule), r.Built ∧ rule ∈ r.rules ∧
    ((rule.expr.candidates r.indices 2).map (·.count) = [2, 2] ∧
      rule.expr.cost = 172 ∧ (rule.expr.share r.indices 2).result.cost = 68) ∧
    (let s := rule.expr.share r.indices 2
    (s.candidates.map (·.name)).Nodup ∧
      (∀ c ∈ s.candidates, s.result.refs.count c.name = c.count ∧
        ∀ d ∈ s.candidates, c.name ∉ d.expr.refs) ∧
      rule.expr.cost = s.result.cost + (s.candidates.map fun c => c.count * c.expr.cost).sum ∧
      ((1 : Int) ≤ 2 →
        s.result.cost + (s.candidates.map fun c => c.expr.cost).sum ≤ rule.expr.cost)) := by
  have hcheck : (triangle.toOption.any fun r => (repeating.run r).1.rules.any fun rule =>
      (rule.expr.candidates (repeating.run r).1.indices 2).map (·.count) == [2, 2] &&
      rule.expr.cost == 172 &&
      (rule.expr.share (repeating.run r).1.indices 2).result.cost == 68) = true := by
    decide +kernel
  obtain ⟨r, hr, hcheck⟩ := exists_ok_of_any hcheck
  have hbuilt : (repeating.run r).1.Built := .step _ (.create hr)
  obtain ⟨rule, hmem, hcheck⟩ := List.any_eq_true.1 hcheck
  simp only [Bool.and_eq_true, beq_iff_eq, and_assoc] at hcheck
  exact ⟨_, rule, hbuilt, hmem, hcheck, hbuilt.sharing_exact hmem _ 2⟩

end Recurrence

end RecurrenceCompiler
