import RecurrenceCompiler.Proofs.Expr.Sharing

/-!
# What sharing counts and saves

Counting the places of an expression, replacing them and estimating costs are three recursions. They
visit the same positions, so their results agree:

* an occurrence is counted as often as its key stands at a place (`count_of_mem_occurrences`);
* the references of the shared form are the names of the places that have one, in order
  (`refs_shareWith`);
* the shared form costs less by what these places cost (`cost_shareWith`).

If places of one kind with one signature cost the same, the sums over places are sums over candidates
(`count_refs_share`, `cost_share`).
-/

namespace RecurrenceCompiler

/-! ## Counting places -/

/-- What decides whether an occurrence is counted at a place. -/
def Occurrence.key (o : Occurrence) : ShareKind × String :=
  (o.kind, o.signature)

namespace Expr

variable {indices : List String}

/-- The key of a place. -/
def placeKey (indices : List String) (p : ShareKind × Expr) : ShareKind × String :=
  (p.1, shareSignature indices p.2)

/-- The keys of places, in order. -/
def placeKeys (indices : List String) (places : List (ShareKind × Expr)) :
    List (ShareKind × String) :=
  places.map (placeKey indices)

theorem matches_iff {o : Occurrence} {p : ShareKind × Expr} :
    (o.kind == p.1 && o.signature == shareSignature indices p.2) = true ↔
      o.key = placeKey indices p := by
  simp [Occurrence.key, placeKey, Prod.ext_iff]

/-- Occurrences that stand for the places that were counted: one for each key, with its count. -/
structure Counts (keys : List (ShareKind × String)) (seen : List Occurrence) : Prop where
  distinct : (seen.map Occurrence.key).Nodup
  count : ∀ o ∈ seen, o.count = keys.count o.key
  covers : ∀ k ∈ keys, k ∈ seen.map Occurrence.key

/-- A key that was seen is counted once more: one count goes up, and no key changes. -/
theorem Counts.again {keys : List (ShareKind × String)} {seen : List Occurrence} (h : Counts keys seen)
    {k : ShareKind × String} (hk : k ∈ seen.map Occurrence.key) {same : Occurrence → Bool}
    (hsame : ∀ o, same o = true ↔ o.key = k) :
    Counts (keys ++ [k]) (seen.map fun o => if same o then { o with count := o.count + 1 } else o) := by
  have hkeys : (seen.map fun o => if same o then { o with count := o.count + 1 } else o).map
      Occurrence.key = seen.map Occurrence.key := by
    rw [List.map_map]
    refine List.map_congr_left fun o _ => ?_
    rw [Function.comp_apply]
    split <;> rfl
  refine ⟨hkeys ▸ h.distinct, fun o' ho' => ?_,
    hkeys ▸ List.forall_mem_append.2 ⟨h.covers, List.forall_mem_singleton.2 hk⟩⟩
  obtain ⟨o, ho, rfl⟩ := List.mem_map.1 ho'
  rw [List.count_append, List.count_singleton]
  split
  · next hso =>
    change o.count + 1 = keys.count o.key + if k == o.key then 1 else 0
    rw [h.count o ho, (hsame o).1 hso, beq_self_eq_true, if_pos rfl]
  · next hso =>
    have hne : (k == o.key) = false := beq_eq_false_iff_ne.2 fun heq => hso ((hsame o).2 heq.symm)
    rw [h.count o ho, hne]
    rfl

/-- A new key is counted for the first time. -/
theorem Counts.first {keys : List (ShareKind × String)} {seen : List Occurrence} (h : Counts keys seen)
    {o : Occurrence} (hnew : o.key ∉ seen.map Occurrence.key) (hone : o.count = 1) :
    Counts (keys ++ [o.key]) (seen ++ [o]) := by
  refine ⟨?_, List.forall_mem_append.2 ⟨fun o' ho' => ?_, List.forall_mem_singleton.2 ?_⟩, ?_⟩
  · rw [List.map_append, List.map_singleton, ← List.concat_eq_append]
    exact h.distinct.concat hnew
  · have hne : (o.key == o'.key) = false :=
      beq_eq_false_iff_ne.2 fun heq => hnew (heq ▸ List.mem_map_of_mem ho')
    rw [List.count_append, List.count_singleton, hne, h.count o' ho']
    rfl
  · rw [List.count_append, List.count_eq_zero.2 fun hmem => hnew (h.covers _ hmem),
      List.count_singleton_self, hone]
  · rw [List.map_append]
    exact List.forall_mem_append.2 ⟨fun k hk => List.mem_append_left _ (h.covers k hk), by simp⟩

/-- **One more place is counted.** -/
theorem Counts.record {keys : List (ShareKind × String)} {seen : List Occurrence}
    (h : Counts keys seen) (p : ShareKind × Expr) :
    Counts (keys ++ [placeKey indices p]) (Expr.record indices seen p) := by
  rw [Expr.record]
  dsimp only
  split
  · next hany =>
    obtain ⟨o, ho, hsame⟩ := List.any_eq_true.1 hany
    exact h.again (List.mem_map.2 ⟨o, ho, matches_iff.1 hsame⟩) fun _ => matches_iff
  · next hany =>
    refine h.first (o := ⟨p.1, shareSignature indices p.2, 1, p.2⟩) (fun hmem => hany ?_) rfl
    obtain ⟨o, ho, hkey⟩ := List.mem_map.1 hmem
    exact List.any_eq_true.2 ⟨o, ho, matches_iff.2 hkey⟩

/-- All places of an expression are counted. -/
theorem counts_occurrences (indices : List String) (e : Expr) :
    Counts (placeKeys indices e.visits) (e.occurrences indices) := by
  rw [occurrences, placeKeys]
  induction e.visits using List.reverseRecOn with
  | nil => exact ⟨List.nodup_nil, nofun, nofun⟩
  | append_singleton places p ih =>
    rw [List.foldl_append, List.map_append]
    exact ih.record p

/-! ## Candidates -/

theorem toOccurrence_nameFrom (n : Nat) (os : List Occurrence) :
    (nameFrom n os).map Candidate.toOccurrence = os := by
  induction os generalizing n with
  | nil => rfl
  | cons o os ih => rw [nameFrom, List.map_cons, ih]

/-- Candidates have distinct keys. -/
theorem nodup_candidate_keys (indices : List String) (threshold : Int) (e : Expr) :
    ((e.candidates indices threshold).map fun c => c.key).Nodup := by
  have hkeys : ((e.candidates indices threshold).map fun c => c.key) =
      ((e.occurrences indices).filter (worthNaming threshold)).map Occurrence.key := by
    rw [← toOccurrence_nameFrom 1 ((e.occurrences indices).filter _), List.map_map]
    rfl
  rw [hkeys]
  exact (counts_occurrences indices e).distinct.sublist (List.filter_sublist.map _)

/-- A candidate counts the places with its key, at least as many as the threshold. -/
theorem count_candidate {threshold : Int} {e : Expr} {c : Candidate}
    (h : c ∈ e.candidates indices threshold) :
    c.count = (placeKeys indices e.visits).count c.key ∧ threshold ≤ c.count := by
  obtain ⟨hmem, hworth⟩ := List.mem_filter.1 (mem_nameFrom h).1
  rw [worthNaming, Bool.and_eq_true, decide_eq_true_iff] at hworth
  exact ⟨(counts_occurrences indices e).count _ hmem, hworth.1⟩

/-- Candidates as the replacement of places needs them: told apart by their names and by their keys. -/
structure Unambiguous (cs : List Candidate) : Prop where
  names : (cs.map (·.name)).Nodup
  keys : (cs.map fun c => c.key).Nodup

theorem unambiguous_candidates (indices : List String) (threshold : Int) (e : Expr) :
    Unambiguous (e.candidates indices threshold) :=
  ⟨nodup_nameFrom 1 _, nodup_candidate_keys indices threshold e⟩

/-- The name that a place gets, if it is shared. -/
def placeName? (indices : List String) (cs : List Candidate) (p : ShareKind × Expr) : Option String :=
  sharedName? indices cs p.1 p.2

section
variable {cs : List Candidate}

/-- **A place gets the name of the candidate with its key.** -/
theorem Unambiguous.placeName?_eq_some (h : Unambiguous cs) {c : Candidate} (hc : c ∈ cs)
    {p : ShareKind × Expr} :
    placeName? indices cs p = some c.name ↔ c.key = placeKey indices p := by
  constructor
  · intro hname
    obtain ⟨d, hd, heq, hkind, hsig⟩ := exists_of_sharedName? hname
    obtain rfl := List.inj_on_of_nodup_map h.names hd hc heq
    exact Prod.ext hkind hsig
  · intro hkey
    have hsome : (cs.find? fun d => d.kind == p.1 && d.signature == shareSignature indices p.2).isSome :=
      List.find?_isSome.2 ⟨c, hc, matches_iff.2 hkey⟩
    obtain ⟨d, hd⟩ := Option.isSome_iff_exists.1 hsome
    have hsame := List.find?_some hd
    obtain rfl := List.inj_on_of_nodup_map h.keys (List.mem_of_find?_eq_some hd) hc
      ((matches_iff.1 hsame).trans hkey.symm)
    rw [placeName?, sharedName?]
    exact congrArg (Option.map _) hd

/-- A name is given to as many places as have the key of its candidate. -/
theorem Unambiguous.count_placeNames (h : Unambiguous cs) {c : Candidate} (hc : c ∈ cs)
    (places : List (ShareKind × Expr)) :
    (places.filterMap (placeName? indices cs)).count c.name = (placeKeys indices places).count c.key := by
  induction places with
  | nil => rfl
  | cons p places ih =>
    rw [placeKeys, List.map_cons, List.count_cons, ← placeKeys, ← ih]
    by_cases hkey : c.key = placeKey indices p
    · rw [List.filterMap_cons_some ((h.placeName?_eq_some hc).2 hkey), List.count_cons_self, hkey,
        beq_self_eq_true, if_pos rfl]
    · have hne : placeName? indices cs p ≠ some c.name := fun hname =>
        hkey ((h.placeName?_eq_some hc).1 hname)
      rw [if_neg (by simpa using Ne.symm hkey), Nat.add_zero]
      cases hname : placeName? indices cs p with
      | none => rw [List.filterMap_cons_none hname]
      | some n =>
        rw [List.filterMap_cons_some hname, List.count_cons_of_ne]
        rintro rfl
        exact hne hname

/-! ## References -/

/-- The name that a leaf refers to, if it is a reference. -/
def ref? : Expr → Option String
  | .ref n => some n
  | _ => none

/-- The names that an expression refers to, from left to right. -/
def refs (e : Expr) : List String :=
  e.leaves.filterMap ref?

theorem refs_binop (op : BinOp) (l r : Expr) : (Expr.binop op l r).refs = l.refs ++ r.refs :=
  List.filterMap_append

theorem refs_term (t : Term Expr) : (Expr.term t).refs = t.coeff.refs ++ t.factor.expr.refs := by
  have hfactor : [t.factor.expr].filterMap ref? = t.factor.expr.refs := by
    cases t.factor <;> rfl
  exact List.filterMap_append.trans (congrArg (t.coeff.refs ++ ·) hfactor)

theorem refs_sum (ts : List (Term Expr)) :
    (Expr.sum ts).refs = ts.flatMap fun t => (Expr.term t).refs := by
  rw [refs, leaves_sum, List.filterMap_flatMap]
  rfl

theorem refs_scaled (inner scale : Expr) (division : Bool) :
    (Expr.scaled inner scale division).refs = inner.refs ++ scale.refs :=
  List.filterMap_append

theorem refs_average (bs : List Expr) (scale : Expr) :
    (Expr.average bs scale).refs = bs.flatMap refs ++ scale.refs := by
  rw [refs, leaves_average, List.filterMap_append, List.filterMap_flatMap, ← refs]
  rfl

theorem refs_shareCoeff {e : Expr} (h : e.refs = []) :
    (e.shareCoeff indices cs).refs = [(ShareKind.coeff, e)].filterMap (placeName? indices cs) := by
  rw [shareCoeff, List.filterMap_cons, placeName?]
  cases sharedName? indices cs .coeff e with
  | none => exact h
  | some n => rfl

theorem refs_shareCall (c : Call) : ((Expr.call c).shareWith indices cs).refs =
    [(ShareKind.call, Expr.call c)].filterMap (placeName? indices cs) := by
  rw [shareWith, List.filterMap_cons, placeName?]
  cases sharedName? indices cs .call (.call c) <;> rfl

/-- What a factor is replaced by is what its call is replaced by. -/
theorem expr_shareFactor (c : Call) :
    (shareFactor indices cs (.call c)).expr = (Expr.call c).shareWith indices cs := by
  rw [shareFactor, shareWith]
  cases sharedName? indices cs .call (.call c) <;> rfl

theorem refs_shareTerm {t : Term Expr} (h : (Expr.term t).refs = []) :
    (Expr.term (shareTerm indices cs t)).refs = (termVisits t).filterMap (placeName? indices cs) := by
  rw [refs_term, List.append_eq_nil_iff] at h
  rw [refs_term, termVisits, List.filterMap_append]
  congr 1
  · rw [shareTerm]
    dsimp only
    split
    · exact h.1
    · exact refs_shareCoeff h.1
  · cases hfactor : t.factor with
    | ref n =>
      rw [hfactor] at h
      cases h.2
    | call c => rw [shareTerm, hfactor, expr_shareFactor, refs_shareCall]

/-- **The references of a shared form are the names of its places**, in order. -/
theorem refs_shareWith {e : Expr} (h : e.refs = []) :
    (e.shareWith indices cs).refs = e.visits.filterMap (placeName? indices cs) := by
  induction e using Expr.induction with
  | const | var | index | lookup | ref => exact h
  | call c => exact refs_shareCall c
  | binop op l r ihl ihr =>
    rw [refs_binop, List.append_eq_nil_iff] at h
    rw [shareWith, refs_binop, visits, List.filterMap_append, ihl h.1, ihr h.2]
  | term t => exact refs_shareTerm h
  | sum ts =>
    rw [refs_sum, List.flatMap_eq_nil_iff] at h
    rw [shareWith, refs_sum, visits, List.filterMap_flatMap, List.flatMap_map]
    exact List.flatMap_congr fun t ht => refs_shareTerm (h t ht)
  | scaled inner scale division ihi =>
    rw [refs_scaled, List.append_eq_nil_iff] at h
    rw [shareWith, refs_scaled, visits, List.filterMap_append, ihi h.1, refs_shareCoeff h.2]
  | average bs scale ihb =>
    rw [refs_average, List.append_eq_nil_iff, List.flatMap_eq_nil_iff] at h
    rw [shareWith, refs_average, visits, List.filterMap_append, refs_shareCoeff h.2,
      Interpretation.shareListWith_eq, Interpretation.visitsOfList_eq, List.filterMap_flatMap,
      List.flatMap_map]
    congr 1
    exact List.flatMap_congr fun b hb => ihb b hb (h.1 b hb)

/-! ## Costs -/

end

end Expr

theorem OpCounts.cost_add (a b : OpCounts) : (a + b).cost = a.cost + b.cost := by
  change (a.add + b.add) + (a.mul + b.mul) * 2 + (a.div + b.div) * 10 + (a.call + b.call) * 50 = _
  rw [cost, cost]
  omega

namespace Expr

variable {indices : List String} {cs : List Candidate}

theorem cost_binop (op : BinOp) (l r : Expr) :
    (Expr.binop op l r).cost = op.count.cost + l.cost + r.cost :=
  (OpCounts.cost_add _ _).trans (congrArg (· + r.cost) (OpCounts.cost_add _ _))

theorem cost_call (c : Call) : (Expr.call c).cost = 50 := rfl

theorem cost_ref (n : String) : (Expr.ref n).cost = 0 := rfl

theorem cost_factor (f : Factor) : f.count.cost = f.expr.cost := by
  cases f <;> rfl

/-- A coefficient that is not one is multiplied with. -/
theorem cost_term (t : Term Expr) :
    (Expr.term t).cost = (if t.coeff.isUnit then 0 else 2 + t.coeff.cost) + t.factor.expr.cost := by
  refine (OpCounts.cost_add _ _).trans ?_
  rw [cost_factor]
  congr 1
  split
  · rfl
  · exact OpCounts.cost_add _ _

theorem cost_sum (ts : List (Term Expr)) :
    (Expr.sum ts).cost = (ts.length - 1) + (ts.map fun t => (Expr.term t).cost).sum := by
  have hterms : (countTerms ts).cost = (ts.map fun t => (Expr.term t).cost).sum := by
    induction ts with
    | nil => rfl
    | cons t ts ih => exact (OpCounts.cost_add _ _).trans (congrArg ((Expr.term t).cost + ·) ih)
  refine (OpCounts.cost_add _ _).trans ?_
  rw [hterms]
  simp [OpCounts.cost]

theorem cost_scaled (inner scale : Expr) (division : Bool) :
    (Expr.scaled inner scale division).cost =
      (if division then 10 else 2) + inner.cost + scale.cost := by
  refine (OpCounts.cost_add _ _).trans (congrArg (· + scale.cost) ?_)
  refine (OpCounts.cost_add _ _).trans (congrArg (· + inner.cost) ?_)
  cases division <;> rfl

theorem cost_average (bs : List Expr) (scale : Expr) :
    (Expr.average bs scale).cost = (bs.length - 1) + 2 + (bs.map cost).sum + scale.cost := by
  have hlist : (countList bs).cost = (bs.map cost).sum := by
    induction bs with
    | nil => rfl
    | cons b bs ih => exact (OpCounts.cost_add _ _).trans (congrArg (b.cost + ·) ih)
  refine (OpCounts.cost_add _ _).trans (congrArg (· + scale.cost) ?_)
  rw [OpCounts.cost_add, hlist]
  simp [OpCounts.cost]

/-- What the places that get a name cost. -/
def saved (indices : List String) (cs : List Candidate) (places : List (ShareKind × Expr)) : Nat :=
  (places.map fun p => if (placeName? indices cs p).isSome then p.2.cost else 0).sum

theorem saved_append (ps qs : List (ShareKind × Expr)) :
    saved indices cs (ps ++ qs) = saved indices cs ps + saved indices cs qs := by
  rw [saved, List.map_append, List.sum_append, ← saved, ← saved]

/-- Savings in the parts add up. -/
theorem sum_add_saved {α : Type} {xs : List α} {f g : α → Nat}
    {places : α → List (ShareKind × Expr)} (h : ∀ x ∈ xs, f x + saved indices cs (places x) = g x) :
    (xs.map f).sum + saved indices cs (xs.flatMap places) = (xs.map g).sum := by
  induction xs with
  | nil => rfl
  | cons x xs ih =>
    obtain ⟨hx, hxs⟩ := List.forall_mem_cons.1 h
    rw [List.map_cons, List.sum_cons, List.flatMap_cons, saved_append, List.map_cons, List.sum_cons,
      ← ih hxs, ← hx]
    omega

theorem cost_shareCoeff (e : Expr) :
    (e.shareCoeff indices cs).cost + saved indices cs [(.coeff, e)] = e.cost := by
  rw [shareCoeff, saved, List.map_singleton, List.sum_singleton, placeName?]
  cases sharedName? indices cs .coeff e with
  | none => rfl
  | some n =>
    dsimp only
    rw [cost_ref, Nat.zero_add]
    rfl

theorem cost_shareCall (c : Call) :
    ((Expr.call c).shareWith indices cs).cost + saved indices cs [(.call, .call c)] =
      (Expr.call c).cost := by
  rw [shareWith, saved, List.map_singleton, List.sum_singleton, placeName?]
  cases sharedName? indices cs .call (.call c) with
  | none => rfl
  | some n =>
    dsimp only
    rw [cost_ref, Nat.zero_add]
    rfl

/-- The places of a factor that take part in sharing. -/
def factorVisits : Factor → List (ShareKind × Expr)
  | .call c => [(.call, .call c)]
  | .ref _ => []

theorem cost_shareTerm (t : Term Expr) :
    (Expr.term (shareTerm indices cs t)).cost + saved indices cs (termVisits t) =
      (Expr.term t).cost := by
  rw [cost_term, cost_term, Interpretation.isUnit_shareTerm, termVisits, saved_append]
  have hcoeff : (if t.coeff.isUnit then 0 else 2 + (shareTerm indices cs t).coeff.cost) +
      saved indices cs (if t.coeff.isUnit then [] else [(.coeff, t.coeff)]) =
        if t.coeff.isUnit then 0 else 2 + t.coeff.cost := by
    rw [shareTerm]
    dsimp only
    split
    · rfl
    · rw [Nat.add_assoc, cost_shareCoeff]
  have hfactor : (shareTerm indices cs t).factor.expr.cost + saved indices cs (factorVisits t.factor) =
      t.factor.expr.cost := by
    rw [shareTerm]
    dsimp only
    cases t.factor with
    | ref n => rfl
    | call c =>
      rw [expr_shareFactor]
      exact cost_shareCall c
  exact (Nat.add_add_add_comm _ _ _ _).trans (congrArg₂ (· + ·) hcoeff hfactor)

/-- **A shared form costs less by what its named places cost.** -/
theorem cost_shareWith (e : Expr) :
    (e.shareWith indices cs).cost + saved indices cs e.visits = e.cost := by
  induction e using Expr.induction with
  | const | var | index | lookup | ref => rfl
  | call c => exact cost_shareCall c
  | binop op l r ihl ihr =>
    rw [shareWith, visits, cost_binop, cost_binop, saved_append, ← ihl, ← ihr]
    omega
  | term t => exact cost_shareTerm t
  | sum ts =>
    have hterms := sum_add_saved fun t (_ : t ∈ ts) => @cost_shareTerm indices cs t
    rw [shareWith, visits, cost_sum, cost_sum, ← hterms, List.length_map, List.map_map]
    exact Nat.add_assoc _ _ _
  | scaled inner scale division ihi =>
    have hscale := @cost_shareCoeff indices cs scale
    rw [shareWith, visits, cost_scaled, cost_scaled, saved_append]
    omega
  | average bs scale ihb =>
    have hbranches := sum_add_saved ihb
    have hscale := @cost_shareCoeff indices cs scale
    rw [shareWith, visits, cost_average, cost_average, Interpretation.shareListWith_eq,
      Interpretation.visitsOfList_eq, saved_append, List.length_map, List.map_map]
    change _ + ((bs.map fun b => (b.shareWith indices cs).cost).sum) + _ + _ = _
    omega

/-! ## Sums over candidates -/

/-- With distinct keys, at most one candidate has the key of a place. -/
theorem sum_ite_key (hkeys : (cs.map fun c => c.key).Nodup) (f : Candidate → Nat)
    (p : ShareKind × Expr) :
    (cs.map fun c => if placeKey indices p == c.key then f c else 0).sum =
      ((cs.find? fun c => c.kind == p.1 && c.signature == shareSignature indices p.2).map f).getD 0 := by
  induction cs with
  | nil => rfl
  | cons c cs ih =>
    rw [List.map_cons, List.nodup_cons] at hkeys
    rw [List.map_cons, List.sum_cons, List.find?_cons]
    by_cases hkey : c.key = placeKey indices p
    · have hrest : (cs.map fun d => if placeKey indices p == d.key then f d else 0).sum = 0 := by
        refine List.sum_eq_zero fun x hx => ?_
        obtain ⟨d, hd, rfl⟩ := List.mem_map.1 hx
        refine if_neg fun heq => hkeys.1 ?_
        rw [hkey, eq_of_beq heq]
        exact List.mem_map_of_mem hd
      rw [hrest, if_pos (by rw [hkey]; exact beq_self_eq_true _), matches_iff.2 hkey]
      rfl
    · rw [if_neg fun heq => hkey (eq_of_beq heq).symm, Nat.zero_add, ih hkeys.2]
      rw [Bool.eq_false_iff.2 fun hsame => hkey (matches_iff.1 hsame)]

/-- **The sum over places is a sum over candidates**, if a place costs what its candidate does. -/
theorem saved_eq_sum (hkeys : (cs.map fun c => c.key).Nodup) {places : List (ShareKind × Expr)}
    (hcost : ∀ p ∈ places, ∀ c ∈ cs, c.key = placeKey indices p → p.2.cost = c.expr.cost) :
    saved indices cs places =
      (cs.map fun c => (placeKeys indices places).count c.key * c.expr.cost).sum := by
  induction places with
  | nil => simp [saved, placeKeys]
  | cons p places ih =>
    obtain ⟨hp, hplaces⟩ := List.forall_mem_cons.1 hcost
    have hone : (if (placeName? indices cs p).isSome then p.2.cost else 0) =
        (cs.map fun c => if placeKey indices p == c.key then c.expr.cost else 0).sum := by
      rw [sum_ite_key hkeys, placeName?, sharedName?]
      cases hfind : cs.find? fun c => c.kind == p.1 && c.signature == shareSignature indices p.2 with
      | none => rfl
      | some c =>
        have hsame := List.find?_some hfind
        exact hp c (List.mem_of_find?_eq_some hfind) (matches_iff.1 hsame)
    rw [saved, List.map_cons, List.sum_cons, ← saved, ih hplaces, hone, ← List.sum_map_add]
    refine congrArg List.sum (List.map_congr_left fun c _ => ?_)
    have hcount : (placeKeys indices (p :: places)).count c.key =
        (placeKeys indices places).count c.key + if placeKey indices p == c.key then 1 else 0 :=
      List.count_cons
    rw [hcount]
    split <;> ring

/-! ## The shared form -/

/-- **A candidate is referred to as often as it was counted**, if the expression has no references of
its own. -/
theorem count_refs_share {e : Expr} (hrefs : e.refs = []) (indices : List String) (threshold : Int)
    {c : Candidate} (hc : c ∈ e.candidates indices threshold) :
    (e.share indices threshold).result.refs.count c.name = c.count := by
  have hne : (e.candidates indices threshold).isEmpty = false :=
    List.isEmpty_eq_false_iff.2 (List.ne_nil_of_mem hc)
  rw [share]
  dsimp only
  rw [hne, if_neg Bool.false_ne_true, refs_shareWith hrefs,
    (unambiguous_candidates indices threshold e).count_placeNames hc, (count_candidate hc).1]

/-- **The shared form and its candidates, each as often as it was counted, cost what the expression
costs**, if places with one key cost the same. -/
theorem cost_share {e : Expr} (indices : List String) (threshold : Int)
    (hcost : ∀ p ∈ e.visits, ∀ q ∈ e.visits, placeKey indices p = placeKey indices q →
      p.2.cost = q.2.cost) :
    e.cost = (e.share indices threshold).result.cost +
      ((e.candidates indices threshold).map fun c => c.count * c.expr.cost).sum := by
  rw [share]
  dsimp only
  cases hempty : (e.candidates indices threshold).isEmpty with
  | true =>
    rw [List.isEmpty_iff.1 hempty]
    rfl
  | false =>
    have hsaved : saved indices (e.candidates indices threshold) e.visits =
        ((e.candidates indices threshold).map fun c => c.count * c.expr.cost).sum := by
      rw [saved_eq_sum (nodup_candidate_keys indices threshold e)]
      · refine congrArg List.sum (List.map_congr_left fun c hc => ?_)
        rw [(count_candidate hc).1]
      · intro p hp c hc hkey
        obtain ⟨hplace, hsig⟩ := mem_candidates hc
        refine hcost p hp _ hplace (hkey.symm.trans ?_)
        rw [Occurrence.key, placeKey, hsig]
    rw [if_neg Bool.false_ne_true, ← hsaved, cost_shareWith]

end Expr

end RecurrenceCompiler
