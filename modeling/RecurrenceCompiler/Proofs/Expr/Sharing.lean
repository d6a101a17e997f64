import RecurrenceCompiler.Expr.Sharing
import RecurrenceCompiler.Proofs.Expr.Interpretation
import RecurrenceCompiler.Proofs.Decimal.Spelling
import RecurrenceCompiler.Proofs.Joined

/-!
# Sharing keeps values

Sharing replaces places by references, and a place is replaced only if it was counted, under the
signature that it was counted with (`Interpretation.value_shareWith`). If places of one kind with one
signature have one value, an expression and its shared form have the same value in every
interpretation, and every reference is bound when it is read (`Interpretation.ofShared_share`).
-/

namespace RecurrenceCompiler

open Text Decimal

namespace Interpretation

variable {V : Type} (I : Interpretation V)

/-- The values of intermediates, bound in order after those that are. Each sees the ones before it. -/
def bindAll (shared : String → Option V) : List Candidate → Option (String → Option V)
  | [] => some shared
  | c :: cs => do
    let v ← I.value shared c.expr
    bindAll (Function.update shared c.name (some v)) cs

/-- The value of a shared expression: its intermediates are bound in order, then the result is read. -/
def ofShared (s : Shared) : Option V := do
  let shared ← I.bindAll (fun _ => none) s.candidates
  I.value shared s.result

/-! ## Replacing places by references -/

/-- The names under which places are shared are bound to the values of the places. -/
def Agrees (shared : String → Option V) (indices : List String) (cs : List Candidate)
    (places : List (ShareKind × Expr)) : Prop :=
  ∀ p ∈ places, ∀ n, Expr.sharedName? indices cs p.1 p.2 = some n → shared n = I.value shared p.2

section
variable {I} {shared : String → Option V} {indices : List String} {cs : List Candidate}

theorem value_shareCoeff {e : Expr} (h : I.Agrees shared indices cs [(.coeff, e)]) :
    I.value shared (e.shareCoeff indices cs) = I.value shared e := by
  rw [Expr.shareCoeff]
  split
  · next n hn => exact h _ (List.mem_singleton_self _) n hn
  · rfl

theorem value_shareCall {c : Call} (h : I.Agrees shared indices cs [(.call, .call c)]) :
    I.value shared (Expr.shareWith indices cs (.call c)) = some (I.ofCall c) := by
  rw [Expr.shareWith]
  split
  · next n hn => exact h _ (List.mem_singleton_self _) n hn
  · rfl

theorem factor_shareFactor {f : Factor}
    (h : ∀ c, f = .call c → I.Agrees shared indices cs [(.call, .call c)]) :
    I.factor shared (Expr.shareFactor indices cs f) = I.factor shared f := by
  cases f with
  | ref n => rfl
  | call c =>
    rw [Expr.shareFactor]
    split
    · next n hn => exact h c rfl _ (List.mem_singleton_self _) n hn
    · rfl

/-- A coefficient that is one stays, and no other becomes one. -/
theorem isUnit_shareTerm (t : Term Expr) :
    (Expr.shareTerm indices cs t).coeff.isUnit = t.coeff.isUnit := by
  rw [Expr.shareTerm]
  cases hunit : t.coeff.isUnit with
  | true => simp [hunit]
  | false =>
    simp only [Bool.false_eq_true, if_false, Expr.shareCoeff]
    split
    · rfl
    · exact hunit

theorem value_shareTerm {t : Term Expr} (h : I.Agrees shared indices cs (Expr.termVisits t)) :
    I.value shared (.term (Expr.shareTerm indices cs t)) = I.value shared (.term t) := by
  have hfactor : I.factor shared (Expr.shareTerm indices cs t).factor = I.factor shared t.factor := by
    refine factor_shareFactor fun c hc p hp => h p ?_
    rw [Expr.termVisits, hc]
    exact List.mem_append_right _ hp
  rw [value, value, isUnit_shareTerm, hfactor]
  cases hunit : t.coeff.isUnit with
  | true => simp
  | false =>
    have hcoeff : I.value shared (Expr.shareTerm indices cs t).coeff = I.value shared t.coeff := by
      simp only [Expr.shareTerm, hunit, Bool.false_eq_true, if_false]
      refine value_shareCoeff fun p hp => h p ?_
      simp only [Expr.termVisits, hunit, Bool.false_eq_true, if_false]
      exact List.mem_append_left _ hp
    simp [hcoeff]

theorem visitsOfList_eq (es : List Expr) : Expr.visitsOfList es = es.flatMap Expr.visits := by
  induction es with
  | nil => rfl
  | cons e es ih => rw [Expr.visitsOfList, ih, List.flatMap_cons]

theorem shareListWith_eq (es : List Expr) :
    Expr.shareListWith indices cs es = es.map (Expr.shareWith indices cs) := by
  induction es with
  | nil => rfl
  | cons e es ih => rw [Expr.shareListWith, ih, List.map_cons]

/-- **Replacing places by what their names are bound to keeps the value.** -/
theorem value_shareWith {e : Expr} (h : I.Agrees shared indices cs e.visits) :
    I.value shared (e.shareWith indices cs) = I.value shared e := by
  induction e using Expr.induction with
  | const | var | index | lookup | ref => rfl
  | call c => exact value_shareCall h
  | binop op l r ihl ihr =>
    rw [Expr.shareWith, value, value, ihl fun p hp => h p (by simp [Expr.visits, hp]),
      ihr fun p hp => h p (by simp [Expr.visits, hp])]
  | term t => exact value_shareTerm h
  | sum ts =>
    have hterms : ((ts.map (Expr.shareTerm indices cs)).mapM fun t => I.value shared (.term t)) =
        ts.mapM fun t => I.value shared (.term t) := by
      refine mapM_eq_of_map fun t ht => value_shareTerm fun p hp => h p ?_
      rw [Expr.visits]
      exact List.mem_flatMap.2 ⟨t, ht, hp⟩
    rw [Expr.shareWith, value_sum, value_sum, hterms]
  | scaled inner scale division ihi _ =>
    rw [Expr.shareWith, value, value, ihi fun p hp => h p (by simp [Expr.visits, hp]),
      value_shareCoeff fun p hp => h p (by simp [Expr.visits, List.mem_singleton.1 hp])]
  | average branches scale ihb _ =>
    have hbranches : (branches.map (Expr.shareWith indices cs)).mapM (I.value shared) =
        branches.mapM (I.value shared) := by
      refine mapM_eq_of_map fun b hb => ihb b hb fun p hp => h p ?_
      rw [Expr.visits, visitsOfList_eq]
      exact List.mem_append_left _ (List.mem_flatMap.2 ⟨b, hb, hp⟩)
    rw [Expr.shareWith, value, value, values_eq, values_eq, shareListWith_eq, hbranches,
      value_shareCoeff fun p hp => h p (by simp [Expr.visits, List.mem_singleton.1 hp])]

end

end Interpretation

/-! ## Candidates -/

namespace Expr

variable {indices : List String}

/-- **What is counted is a place of the expression**, under the signature of that place. -/
theorem mem_occurrences {e : Expr} {o : Occurrence} (h : o ∈ e.occurrences indices) :
    (o.kind, o.expr) ∈ e.visits ∧ o.signature = shareSignature indices o.expr := by
  -- Counting more places keeps this of all that was counted: only the counts change.
  have hfold (places : List (ShareKind × Expr)) (seen : List Occurrence) (hplaces : places ⊆ e.visits)
      (hseen : ∀ o ∈ seen, (o.kind, o.expr) ∈ e.visits ∧ o.signature = shareSignature indices o.expr) :
      ∀ o ∈ places.foldl (record indices) seen,
        (o.kind, o.expr) ∈ e.visits ∧ o.signature = shareSignature indices o.expr := by
    induction places generalizing seen with
    | nil => exact hseen
    | cons p places ih =>
      obtain ⟨hp, hplaces⟩ := List.cons_subset.1 hplaces
      refine ih _ hplaces fun o ho => ?_
      rw [record] at ho
      split at ho
      · obtain ⟨o', ho', rfl⟩ := List.mem_map.1 ho
        split
        · exact hseen o' ho'
        · exact hseen o' ho'
      · rcases List.mem_append.1 ho with ho | ho
        · exact hseen o ho
        · obtain rfl := List.mem_singleton.1 ho
          exact ⟨hp, rfl⟩
  exact hfold e.visits [] (List.Subset.refl _) (by simp) o h

/-- A name that is given is numbered. -/
theorem mem_nameFrom {n : Nat} {os : List Occurrence} {c : Candidate} (h : c ∈ nameFrom n os) :
    c.toOccurrence ∈ os ∧ ∃ k, n ≤ k ∧ c.name = "_cse_" ++ c.kind.text ++ "_" ++ toString k := by
  induction os generalizing n with
  | nil => simp [nameFrom] at h
  | cons o os ih =>
    rcases List.mem_cons.1 h with rfl | h
    · exact ⟨by simp, n, le_rfl, rfl⟩
    · obtain ⟨hmem, k, hk, hname⟩ := ih h
      exact ⟨by simp [hmem], k, by omega, hname⟩

/-- A number is read off the name that it is given in. -/
theorem number_of_name {w w' : String} {k k' : Nat}
    (h : "_cse_" ++ w ++ "_" ++ toString k = "_cse_" ++ w' ++ "_" ++ toString k') : k = k' := by
  have hdigits (n : Nat) : (toString n).toList = Nat.toDigits 10 n := String.toList_ofList
  have hline (n : Nat) : '_' ∉ Nat.toDigits 10 n := by
    intro hmem
    cases List.all_eq_true.1 (all_isDigit_toDigits n) _ hmem
  have hlist (w : String) (k : Nat) : ("_cse_" ++ w ++ "_" ++ toString k).toList =
      ("_cse_" ++ w).toList ++ '_' :: Nat.toDigits 10 k := by
    simp only [String.toList_append, hdigits, List.append_assoc]
    rfl
  have hcut := congrArg String.toList h
  rw [hlist, hlist] at hcut
  have hnumber := congrArg natOfDigits (append_cons_inj_last (hline k) (hline k') hcut).2
  simpa using hnumber

/-- **Names are given once.** -/
theorem nodup_nameFrom (n : Nat) (os : List Occurrence) : ((nameFrom n os).map (·.name)).Nodup := by
  induction os generalizing n with
  | nil => exact List.nodup_nil
  | cons o os ih =>
    rw [nameFrom, List.map_cons, List.nodup_cons]
    refine ⟨fun hmem => ?_, ih (n + 1)⟩
    obtain ⟨c, hc, hname⟩ := List.mem_map.1 hmem
    obtain ⟨-, k, hk, hk'⟩ := mem_nameFrom hc
    have heq := number_of_name (hk'.symm.trans hname)
    omega

/-- A candidate stands for a place of the expression. -/
theorem mem_candidates {threshold : Int} {e : Expr} {c : Candidate}
    (h : c ∈ e.candidates indices threshold) :
    (c.kind, c.expr) ∈ e.visits ∧ c.signature = shareSignature indices c.expr :=
  mem_occurrences (List.mem_filter.1 (mem_nameFrom h).1).1

/-- A place is shared under the name of a candidate of its kind with its signature. -/
theorem exists_of_sharedName? {cs : List Candidate} {kind : ShareKind} {e : Expr} {n : String}
    (h : sharedName? indices cs kind e = some n) :
    ∃ c ∈ cs, c.name = n ∧ c.kind = kind ∧ c.signature = shareSignature indices e := by
  obtain ⟨c, hc, rfl⟩ := Option.map_eq_some_iff.1 h
  have hsame := List.find?_some hc
  simp only [Bool.and_eq_true, beq_iff_eq] at hsame
  exact ⟨c, List.mem_of_find?_eq_some hc, rfl, hsame⟩

/-! ## Leaves of shared expressions -/

theorem leaves_termVisit_subset {t : Term Expr} {p : ShareKind × Expr} (h : p ∈ termVisits t) :
    p.2.leaves ⊆ (Expr.term t).leaves := by
  rw [leaves]
  rcases List.mem_append.1 h with h | h
  · split at h
    · cases h
    · obtain rfl := List.mem_singleton.1 h
      exact List.subset_append_left _ _
  · split at h
    · next c hc =>
      obtain rfl := List.mem_singleton.1 h
      rw [hc]
      exact List.subset_append_right _ _
    · cases h

/-- The leaves of a place are leaves of the expression. -/
theorem leaves_visit_subset {e : Expr} {p : ShareKind × Expr} (h : p ∈ e.visits) :
    p.2.leaves ⊆ e.leaves := by
  induction e using Expr.induction with
  | const | var | index | lookup | ref => cases h
  | call c =>
    obtain rfl := List.mem_singleton.1 h
    exact List.Subset.refl _
  | binop op l r ihl ihr =>
    rw [leaves]
    rcases List.mem_append.1 h with h | h
    · exact List.subset_append_of_subset_left _ (ihl h)
    · exact List.subset_append_of_subset_right _ (ihr h)
  | term t => exact leaves_termVisit_subset h
  | sum ts =>
    obtain ⟨t, ht, hp⟩ := List.mem_flatMap.1 h
    exact List.Subset.trans (leaves_termVisit_subset hp) (leaves_term_subset ht)
  | scaled inner scale division ihi =>
    rw [leaves]
    rcases List.mem_append.1 h with h | h
    · exact List.subset_append_of_subset_left _ (ihi h)
    · obtain rfl := List.mem_singleton.1 h
      exact List.subset_append_right _ _
  | average bs scale ihb =>
    rw [visits, Interpretation.visitsOfList_eq] at h
    rcases List.mem_append.1 h with h | h
    · obtain ⟨b, hb, hp⟩ := List.mem_flatMap.1 h
      exact List.Subset.trans (ihb b hb hp) (leaves_branch_subset hb)
    · obtain rfl := List.mem_singleton.1 h
      rw [leaves_average]
      exact List.subset_append_right _ _

section
variable {cs : List Candidate} {P : Expr → Prop}

theorem forall_leaves_shareCoeff (hcs : ∀ c ∈ cs, P (.ref c.name)) {e : Expr} (h : ∀ l ∈ e.leaves, P l) :
    ∀ l ∈ (e.shareCoeff indices cs).leaves, P l := by
  rw [shareCoeff]
  split
  · next n hn =>
    obtain ⟨c, hc, rfl, -⟩ := exists_of_sharedName? hn
    exact List.forall_mem_singleton.2 (hcs c hc)
  · exact h

theorem shareFactor_expr (hcs : ∀ c ∈ cs, P (.ref c.name)) {f : Factor} (h : P f.expr) :
    P (shareFactor indices cs f).expr := by
  cases f with
  | ref n => exact h
  | call c =>
    rw [shareFactor]
    split
    · next n hn =>
      obtain ⟨c, hc, rfl, -⟩ := exists_of_sharedName? hn
      exact hcs c hc
    · exact h

theorem forall_leaves_shareTerm (hcs : ∀ c ∈ cs, P (.ref c.name)) {t : Term Expr}
    (h : ∀ l ∈ (Expr.term t).leaves, P l) : ∀ l ∈ (Expr.term (shareTerm indices cs t)).leaves, P l := by
  rw [leaves, List.forall_mem_append, List.forall_mem_singleton] at h ⊢
  refine ⟨?_, shareFactor_expr hcs h.2⟩
  rw [shareTerm]
  dsimp only
  split
  · exact h.1
  · exact forall_leaves_shareCoeff hcs h.1

/-- **The leaves of a shared expression** are leaves of the expression or references to candidates. -/
theorem forall_leaves_shareWith (hcs : ∀ c ∈ cs, P (.ref c.name)) {e : Expr} (h : ∀ l ∈ e.leaves, P l) :
    ∀ l ∈ (e.shareWith indices cs).leaves, P l := by
  induction e using Expr.induction with
  | const | var | index | lookup | ref => exact h
  | call c =>
    rw [shareWith]
    split
    · next n hn =>
      obtain ⟨c, hc, rfl, -⟩ := exists_of_sharedName? hn
      exact List.forall_mem_singleton.2 (hcs c hc)
    · exact h
  | binop op l r ihl ihr =>
    rw [shareWith, leaves, List.forall_mem_append]
    rw [leaves, List.forall_mem_append] at h
    exact ⟨ihl h.1, ihr h.2⟩
  | term t => exact forall_leaves_shareTerm hcs h
  | sum ts =>
    rw [shareWith, leaves_sum, List.flatMap_map, List.forall_mem_flatMap]
    exact fun t ht => forall_leaves_shareTerm hcs fun l hl => h l (leaves_term_subset ht hl)
  | scaled inner scale division ihi =>
    rw [shareWith, leaves, List.forall_mem_append]
    rw [leaves, List.forall_mem_append] at h
    exact ⟨ihi h.1, forall_leaves_shareCoeff hcs h.2⟩
  | average bs scale ihb =>
    rw [shareWith, leaves_average, Interpretation.shareListWith_eq, List.flatMap_map,
      List.forall_mem_append, List.forall_mem_flatMap]
    rw [leaves_average, List.forall_mem_append, List.forall_mem_flatMap] at h
    exact ⟨fun b hb => ihb b hb (h.1 b hb), forall_leaves_shareCoeff hcs h.2⟩

end

end Expr

/-! ## Intermediates -/

namespace Interpretation

variable {V : Type} (I : Interpretation V)

/-- An expression that has a value, whatever is bound. -/
def Closed (e : Expr) : Prop :=
  ∃ v, ∀ shared, I.value shared e = some v

variable {I}

/-- **Intermediates that read no references are bound to their values.** -/
theorem exists_bindAll (cs : List Candidate) (hclosed : ∀ c ∈ cs, I.Closed c.expr)
    (hnames : (cs.map (·.name)).Nodup) (shared : String → Option V) :
    ∃ shared', I.bindAll shared cs = some shared' ∧
      (∀ c ∈ cs, ∀ s, shared' c.name = I.value s c.expr) ∧
      ∀ n, n ∉ cs.map (·.name) → shared' n = shared n := by
  induction cs generalizing shared with
  | nil => exact ⟨shared, rfl, by simp, fun _ _ => rfl⟩
  | cons c cs ih =>
    obtain ⟨v, hv⟩ := hclosed c (by simp)
    obtain ⟨hnew, hnames⟩ := List.nodup_cons.1 hnames
    obtain ⟨shared', hbind, hbound, hrest⟩ := ih (fun d hd => hclosed d (by simp [hd])) hnames
      (Function.update shared c.name (some v))
    refine ⟨shared', ?_, ?_, fun n hn => ?_⟩
    · rw [bindAll, hv]
      exact hbind
    · refine List.forall_mem_cons.2 ⟨fun s => ?_, hbound⟩
      rw [hrest _ hnew, Function.update_self, hv]
    · rw [List.map_cons, List.mem_cons, not_or] at hn
      rw [hrest n hn.2, Function.update_of_ne hn.1]

/-- **Sharing keeps the value** of an expression whose places are told apart by their signatures. -/
theorem ofShared_share {indices : List String} {threshold : Int} {e : Expr} (he : I.Closed e)
    (hplaces : ∀ p ∈ e.visits, I.Closed p.2)
    (hsignature : ∀ p ∈ e.visits, ∀ q ∈ e.visits, p.1 = q.1 →
      Expr.shareSignature indices p.2 = Expr.shareSignature indices q.2 →
      ∀ shared, I.value shared p.2 = I.value shared q.2) :
    ∃ v, I.value (fun _ => none) e = some v ∧ I.ofShared (e.share indices threshold) = some v := by
  obtain ⟨v, hv⟩ := he
  obtain ⟨shared, hbind, hbound, -⟩ := exists_bindAll (I := I)
    (e.candidates indices threshold) (fun c hc => hplaces _ (Expr.mem_candidates hc).1)
    (Expr.nodup_nameFrom 1 _) fun _ => none
  refine ⟨v, hv _, ?_⟩
  have hagrees : I.Agrees shared indices (e.candidates indices threshold) e.visits := by
    intro p hp n hn
    obtain ⟨c, hc, rfl, hkind, hsig⟩ := Expr.exists_of_sharedName? hn
    obtain ⟨hplace, hsig'⟩ := Expr.mem_candidates hc
    rw [hbound c hc shared]
    exact hsignature _ hplace p hp hkind (hsig'.symm.trans hsig) shared
  have hresult : I.value shared (e.share indices threshold).result = some v := by
    rw [Expr.share]
    dsimp only
    split
    · exact hv shared
    · rw [value_shareWith hagrees, hv]
  rw [ofShared, show (e.share indices threshold).candidates = e.candidates indices threshold from rfl,
    hbind]
  exact hresult

end Interpretation

end RecurrenceCompiler
