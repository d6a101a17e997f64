import RecurrenceCompiler.Proofs.Expr.Sharing
import RecurrenceCompiler.Proofs.Recurrence.Built
import RecurrenceCompiler.Proofs.RuleText.Parsed

/-!
# Sharing in the rules of a recurrence

Every rule that the builder adds has the shape of a rule (`isRule_of_step`), so its places are
coefficients and calls that are told apart by their signatures. Hence sharing keeps the value of every
rule in every interpretation of its parts (`shared_value_eq`), if each shift of a call is written under
a name of its own. A list of names that is too short hides shifts, and a name with a comma can make one
pair look like two: calls that differ are then merged (`shared_value_ne`).
-/

namespace RecurrenceCompiler

open Text Decimal Arith

/-- The brackets of a scale close in order. Those of a rule body are checked when it is read. -/
def Step.ScaleBalanced : Step → Prop
  | .rule _ _ (some scale) _ => RuleText.balanced scale.toList
  | _ => True

namespace Expr

variable {rank : Nat} {e : Expr}

/-! ## The places of a rule -/

/-- A place of a rule is a coefficient, whose leaves are leaves of the rule, or a call. -/
structure IsPlace (rank : Nat) (e : Expr) (p : ShareKind × Expr) : Prop where
  coeff : p.1 = .coeff → p.2.IsCoefficient ∧ p.2.leaves ⊆ e.leaves
  call : p.1 = .call → ∃ c, p.2 = .call c ∧ c.Spelled rank

theorem isPlace_coeff {k : Expr} (hk : k.IsCoefficient) (hleaves : k.leaves ⊆ e.leaves) :
    IsPlace rank e (.coeff, k) :=
  ⟨fun _ => ⟨hk, hleaves⟩, nofun⟩

theorem IsPlace.mono {e' : Expr} {p : ShareKind × Expr} (h : IsPlace rank e p)
    (hsub : e.leaves ⊆ e'.leaves) : IsPlace rank e' p :=
  ⟨fun hp => ⟨(h.coeff hp).1, List.Subset.trans (h.coeff hp).2 hsub⟩, h.call⟩

theorem IsBody.isPlace (h : e.IsBody rank) : ∀ p ∈ e.visits, IsPlace rank e p := by
  obtain ⟨ts, rfl, hts⟩ := h
  intro p hp
  rw [visits] at hp
  obtain ⟨t, ht, hp⟩ := List.mem_flatMap.1 hp
  obtain ⟨hcoeff, c, hfactor, hc⟩ := hts t ht
  rw [termVisits, hfactor] at hp
  rcases List.mem_append.1 hp with hp | hp
  · split at hp
    · simp at hp
    · obtain rfl := List.mem_singleton.1 hp
      refine isPlace_coeff hcoeff (List.Subset.trans ?_ (leaves_term_subset ht))
      rw [leaves]
      exact List.subset_append_left _ _
  · obtain rfl := List.mem_singleton.1 hp
    exact ⟨by rintro ⟨⟩, fun _ => ⟨c, rfl, hc⟩⟩

/-- **The places of a rule are coefficients and calls.** -/
theorem IsRule.isPlace (h : e.IsRule rank) : ∀ p ∈ e.visits, IsPlace rank e p := by
  cases h with
  | body h => exact h.isPlace
  | scaled h hs =>
    refine List.forall_mem_append.2 ⟨fun p hp => (h.isPlace p hp).mono ?_, ?_⟩
    · rw [leaves]
      exact List.subset_append_left ..
    · refine List.forall_mem_singleton.2 (isPlace_coeff hs ?_)
      rw [leaves]
      exact List.subset_append_right ..
  | average _ hbs hs =>
    refine List.forall_mem_append.2 ⟨fun p hp => ?_, ?_⟩
    · rw [Interpretation.visitsOfList_eq] at hp
      obtain ⟨b, hb, hp⟩ := List.mem_flatMap.1 hp
      exact ((hbs b hb).isPlace p hp).mono (leaves_branch_subset hb)
    · refine List.forall_mem_singleton.2 (isPlace_coeff hs ?_)
      rw [leaves]
      exact List.subset_append_right ..

end Expr

/-! ## Rules have values -/

namespace Interpretation

variable {V : Type} {I : Interpretation V} {rank : Nat} {e : Expr}

theorem closed_of_isCoefficient (h : e.IsCoefficient) : I.Closed e := by
  induction h with
  | number x => exact ⟨_, fun _ => rfl⟩
  | var => exact ⟨_, fun _ => rfl⟩
  | index => exact ⟨_, fun _ => rfl⟩
  | mul _ _ ihl ihr =>
    obtain ⟨x, hx⟩ := ihl
    obtain ⟨y, hy⟩ := ihr
    exact ⟨I.op .mul x y, fun shared => by rw [value, hx, hy]; rfl⟩

theorem closed_of_spelled {t : Term Expr} (h : t.Spelled rank) : I.Closed (.term t) := by
  obtain ⟨hcoeff, c, hfactor, -⟩ := h
  obtain ⟨k, hk⟩ := closed_of_isCoefficient (I := I) hcoeff
  cases hunit : t.coeff.isUnit with
  | true => exact ⟨I.ofCall c, fun shared => by rw [value, hfactor, hunit]; rfl⟩
  | false => exact ⟨I.op .mul k (I.ofCall c), fun shared => by rw [value, hfactor, hunit, hk]; rfl⟩

/-- Parts that have values whatever is bound have one list of values. -/
theorem exists_mapM_of_closed {α : Type} {f : (String → Option V) → α → Option V} {xs : List α}
    (h : ∀ x ∈ xs, ∃ v, ∀ shared, f shared x = some v) :
    ∃ vs, vs.length = xs.length ∧ ∀ shared, xs.mapM (f shared) = some vs := by
  induction xs with
  | nil => exact ⟨[], rfl, fun _ => rfl⟩
  | cons x xs ih =>
    obtain ⟨v, hv⟩ := h x (by simp)
    obtain ⟨vs, hlen, hvs⟩ := ih fun y hy => h y (by simp [hy])
    exact ⟨v :: vs, by simp [hlen], fun shared => by rw [List.mapM_cons, hv, hvs]; rfl⟩

theorem closed_of_isBody (h : e.IsBody rank) : I.Closed e := by
  obtain ⟨ts, rfl, hts⟩ := h
  obtain ⟨vs, -, hvs⟩ := exists_mapM_of_closed (f := fun shared t => I.value shared (.term t))
    fun t ht => closed_of_spelled (hts t ht)
  exact ⟨I.total vs, fun shared => by rw [value_sum, hvs]; rfl⟩

/-- **A rule reads no references, so it has a value.** -/
theorem closed_of_isRule (h : e.IsRule rank) : I.Closed e := by
  cases h with
  | body h => exact closed_of_isBody h
  | @scaled _ _ division h hs =>
    obtain ⟨x, hx⟩ := closed_of_isBody (I := I) h
    obtain ⟨k, hk⟩ := closed_of_isCoefficient (I := I) hs
    exact ⟨I.op (if division then .div else .mul) x k, fun shared => by rw [value, hx, hk]; rfl⟩
  | average hne hbs hs =>
    obtain ⟨vs, hlen, hvs⟩ := exists_mapM_of_closed (f := I.value) fun b hb =>
      closed_of_isBody (hbs b hb)
    obtain ⟨k, hk⟩ := closed_of_isCoefficient (I := I) hs
    have hvs' : vs.isEmpty = false := by
      rw [List.isEmpty_eq_false_iff, ← List.length_pos_iff, hlen]
      exact List.length_pos_iff.2 hne
    refine ⟨I.op .mul (I.total vs) k, fun shared => ?_⟩
    rw [value, values_eq, hvs, hk, Option.bind_eq_bind, Option.bind_some, hvs']
    rfl

/-- **Places of a rule with one signature have one value**, if no constant is the negative zero. -/
theorem value_eq_of_signature {indices : List String} (hcomma : ∀ i ∈ indices, ',' ∉ i.toList)
    (hnodup : indices.Nodup) (hrank : rank ≤ indices.length) (hz : e.NoNegativeZero)
    {p q : ShareKind × Expr} (hp : Expr.IsPlace rank e p) (hq : Expr.IsPlace rank e q) (hkind : p.1 = q.1)
    (hsig : Expr.shareSignature indices p.2 = Expr.shareSignature indices q.2)
    (shared : String → Option V) : I.value shared p.2 = I.value shared q.2 := by
  cases hk : p.1 with
  | coeff =>
    obtain ⟨hpc, hpl⟩ := hp.coeff hk
    obtain ⟨hqc, hql⟩ := hq.coeff (hkind.symm.trans hk)
    have hshare {k : Expr} (h : k.IsCoefficient) :
        Expr.shareSignature indices k = k.signature indices := by
      cases h <;> rfl
    rw [hshare hpc, hshare hqc] at hsig
    rw [Expr.signature_inj hpc hqc (fun x hx => hz x (hpl hx)) (fun x hx => hz x (hql hx)) hsig]
  | call =>
    obtain ⟨c, hpe, hc⟩ := hp.call hk
    obtain ⟨d, hqe, hd⟩ := hq.call (hkind.symm.trans hk)
    rw [hpe, hqe] at hsig ⊢
    obtain ⟨htarget, hshifts⟩ := Call.signature_inj hcomma hnodup hrank hc hd hsig
    rw [value, value, ofCall, ofCall, htarget, hshifts]

/-- A rule and its shared form have one value, if no constant is the negative zero. -/
theorem ofShared_share_of_isRule {indices : List String} (hcomma : ∀ i ∈ indices, ',' ∉ i.toList)
    (hnodup : indices.Nodup) (hrank : rank ≤ indices.length) (h : e.IsRule rank)
    (hz : e.NoNegativeZero) (threshold : Int) :
    ∃ v, I.value (fun _ => none) e = some v ∧ I.ofShared (e.share indices threshold) = some v := by
  have hplaces := h.isPlace
  refine ofShared_share (closed_of_isRule h) (fun p hp => ?_) fun p hp q hq hkind hsig =>
    value_eq_of_signature hcomma hnodup hrank hz (hplaces p hp) (hplaces q hq) hkind hsig
  cases hk : p.1 with
  | coeff => exact closed_of_isCoefficient ((hplaces p hp).coeff hk).1
  | call =>
    obtain ⟨c, hpe, -⟩ := (hplaces p hp).call hk
    exact hpe ▸ ⟨_, fun _ => rfl⟩

end Interpretation

namespace Recurrence

variable {r : Recurrence}

/-- **What the builder adds has the shape of a rule.** -/
theorem isRule_of_step (hr : r.Built) {s : Step} (hs : s.ScaleBalanced) {rule : Rule}
    (hrule : (s.run r).1.rules = r.rules ++ [rule]) : rule.expr.IsRule r.indices.length := by
  have hvars := hr.wellFormed.runtime
  rcases expr_of_step hrule with ⟨guard, body, scale, name, rfl, he⟩ | ⟨branches, es, x, hne, heq, hes⟩
  · refine @RuleText.isRule_parseRule r.nextContext hvars body scale _ ?_ he
    rintro t rfl
    exact hs
  · rw [heq]
    refine .average ?_ (fun e he => ?_) (.number _)
    · rintro rfl
      exact hne (List.forall₂_nil_right_iff.1 hes)
    · obtain ⟨b, -, hb⟩ := exists_of_forall₂ hes he
      exact @RuleText.isBody_parseBody r.nextContext hvars b e hb

/-- **Sharing keeps the value of every rule that the builder adds**, whatever its calls, texts and
operations stand for: the shared form has the value that the rule has, so every reference in it and in
its intermediates is bound when it is read. The list of indices may be any list of distinct names
without commas that names every index of the recurrence. The brackets of a scale must close in order,
and no constant may be the negative zero, which is written like zero. -/
theorem shared_value_eq {V : Type} (I : Interpretation V) (hr : r.Built) {s : Step}
    (hs : s.ScaleBalanced) {rule : Rule} (hrule : (s.run r).1.rules = r.rules ++ [rule])
    (hz : rule.expr.NoNegativeZero) {indices : List String} (hnodup : indices.Nodup)
    (hcomma : ∀ i ∈ indices, ',' ∉ i.toList) (hrank : r.indices.length ≤ indices.length)
    (threshold : Int) :
    ∃ v, I.value (fun _ => none) rule.expr = some v ∧
      I.ofShared (rule.expr.share indices threshold) = some v :=
  Interpretation.ofShared_share_of_isRule hcomma hnodup hrank (isRule_of_step hr hs hrule) hz threshold

/-- A recurrence over a triangle, before its rule. -/
def triangle : Except Error Recurrence :=
  create "Tri" ["n", "m"] ["x"] {}

/-- A rule in which a coefficient and a call occur twice. -/
def repeating : Step :=
  .rule "n > 0" "(2*n+1)*x*E[n-1,m] + (2*n+1)*x*E[n-1,m+1] + 3*E[n-1,m]" (some "1/(2*n+1)") none

/-- Integers in the place of numbers, lengths in that of texts. -/
def lengths : Interpretation Int where
  number := toInt
  raw t := t.length
  var n := n.length
  index t := t.length
  lookup table i := table.length + i.length
  call _ shifts := 10 + shifts.sum
  op
    | .add, x, y => x + y
    | .sub, x, y => x - y
    | .mul, x, y => x * y
    | .div, x, y => x / y

/-- The coefficient and the call are named, and the value stays, for the names of the recurrence and for
longer names with one more. -/
theorem shared_value_eq_repeating : ∃ r rule, triangle = .ok r ∧ repeating.ScaleBalanced ∧
    (repeating.run r).1.rules = r.rules ++ [rule] ∧ rule.expr.NoNegativeZero ∧
    ∀ indices ∈ [["n", "m"], ["row:", "[m]", "k"]],
      (rule.expr.candidates indices 2).map (·.name) = ["_cse_coeff_1", "_cse_call_2"] ∧
      ∃ v, lengths.value (fun _ => none) rule.expr = some v ∧
        lengths.ofShared (rule.expr.share indices 2) = some v := by
  have hcheck : (triangle.toOption.any fun r => r.rules.isEmpty && r.indices.length == 2 &&
      (repeating.run r).1.rules.length == 1 && (repeating.run r).1.rules.all fun rule =>
        decide rule.expr.NoNegativeZero &&
        [["n", "m"], ["row:", "[m]", "k"]].all fun indices =>
          (rule.expr.candidates indices 2).map (·.name) == ["_cse_coeff_1", "_cse_call_2"]) = true := by
    decide +kernel
  obtain ⟨r, hr, hcheck⟩ := exists_ok_of_any hcheck
  simp only [Bool.and_eq_true, beq_iff_eq] at hcheck
  obtain ⟨⟨⟨hempty, hlen⟩, hone⟩, hrules⟩ := hcheck
  obtain ⟨rule, hrule⟩ := List.length_eq_one_iff.1 hone
  rw [hrule, List.all_cons, List.all_nil, Bool.and_true, Bool.and_eq_true, decide_eq_true_eq,
    List.all_eq_true] at hrules
  obtain ⟨hz, hnames⟩ := hrules
  have hadds : (repeating.run r).1.rules = r.rules ++ [rule] := by
    rw [hrule, List.isEmpty_iff.1 hempty, List.nil_append]
  have hscale : repeating.ScaleBalanced :=
    show RuleText.balanced "1/(2*n+1)".toList = true by decide +kernel
  have hlists : ∀ indices ∈ [["n", "m"], ["row:", "[m]", "k"]], indices.Nodup ∧
      (∀ i ∈ indices, ',' ∉ i.toList) ∧ 2 ≤ indices.length := by
    decide
  refine ⟨r, rule, hr, hscale, hadds, hz, fun indices hindices =>
    ⟨by simpa using hnames indices hindices, ?_⟩⟩
  obtain ⟨hnodup, hcomma, hrank⟩ := hlists indices hindices
  exact shared_value_eq lengths (.create hr) hscale hadds hz hnodup hcomma (hlen ▸ hrank) 2

/-- A call whose value shows its shifts one after the other. -/
def shiftDigits : Interpretation Int :=
  { lengths with call := fun _ shifts => shifts.foldl (fun x s => 10 * x + s) 0 }

/-- A rule of the triangle without negative zeros has one value, and its shared form by distinct names
has another. -/
def SharedApart (body : String) (indices : List String) (value shared : Int) : Prop :=
  ∃ r rule, triangle = .ok r ∧ ((Step.rule "n > 0" body none none).run r).1.rules = r.rules ++ [rule] ∧
    rule.expr.NoNegativeZero ∧ indices.Nodup ∧ shiftDigits.value (fun _ => none) rule.expr = some value ∧
    shiftDigits.ofShared (rule.expr.share indices 2) = some shared ∧ value ≠ shared

theorem sharedApart_of_check {body : String} {indices : List String} {value shared : Int}
    (h : (triangle.toOption.any fun r => r.rules.isEmpty &&
      ((Step.rule "n > 0" body none none).run r).1.rules.length == 1 &&
      ((Step.rule "n > 0" body none none).run r).1.rules.all fun rule =>
        decide rule.expr.NoNegativeZero && decide indices.Nodup &&
        shiftDigits.value (fun _ => none) rule.expr == some value &&
        shiftDigits.ofShared (rule.expr.share indices 2) == some shared && value != shared) = true) :
    SharedApart body indices value shared := by
  obtain ⟨r, hr, h⟩ := exists_ok_of_any h
  simp only [Bool.and_eq_true, beq_iff_eq] at h
  obtain ⟨⟨hempty, hone⟩, hrules⟩ := h
  obtain ⟨rule, hrule⟩ := List.length_eq_one_iff.1 hone
  rw [hrule, List.all_cons, List.all_nil, Bool.and_true] at hrules
  simp only [Bool.and_eq_true, decide_eq_true_eq, beq_iff_eq, bne_iff_ne] at hrules
  obtain ⟨⟨⟨⟨hz, hnodup⟩, hvalue⟩, hshared⟩, hne⟩ := hrules
  refine ⟨r, rule, hr, ?_, hz, hnodup, hvalue, hshared, hne⟩
  rw [hrule, List.isEmpty_iff.1 hempty, List.nil_append]

/-- **Sharing changes the value if the names do not tell the shifts apart.** With one name for two
indices the second shifts are not looked at, and with a comma in a name two calls have the same parts
in two orders: each time the second call is taken for the first. -/
theorem shared_value_ne : SharedApart "E[n-1,m] + E[n-1,m-1]" ["n"] (-21) (-20) ∧
    SharedApart "E[n+1,m+2] + E[n+2,m+1]" ["a", "a:1,a"] 33 24 :=
  ⟨sharedApart_of_check (by decide +kernel), sharedApart_of_check (by decide +kernel)⟩

end Recurrence

end RecurrenceCompiler
