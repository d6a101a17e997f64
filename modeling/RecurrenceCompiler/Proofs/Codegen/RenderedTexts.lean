import RecurrenceCompiler.Proofs.Codegen.Strategies
import RecurrenceCompiler.Proofs.Expr.Substitution

/-!
# Properties of rendered texts

The generator puts texts in parentheses and joins them by operators. A property that this keeps holds of a
whole rendered expression if it holds of the texts of the leaves (`Expr.text_of_leaves`), and of every text
in a rendered body (`Body.texts_of_render`): the intermediates are names, and a shared part is rendered
like any other.

One such property is that a text reads only names in scope: a rendered expression reads what its leaves
read (`reads_of_leaves`). A rendered body also reads the intermediates that it declares, each after its
declaration (`wellScoped_render`). So what the leaves of a rule may read, its body may.
-/

namespace RecurrenceCompiler

open Text Decimal Arith Script

/-- A text without line breaks. -/
def Script.isOneLine (t : String) : Bool :=
  t.toList.all fun c => !isLineBreak c

/-- A property of texts that is kept by parentheses and by operators with operands on both sides. -/
structure ClosedTexts (d : Dialect) (P : String → Prop) : Prop where
  zero : P d.zero
  empty : P ""
  paren {t : String} : P t → P ("(" ++ t ++ ")")
  join {l r : String} (o : BinOp) : P l → P r → P (l ++ " " ++ o.text ++ " " ++ r)

namespace ClosedTexts

variable {d : Dialect} {P : String → Prop} (hP : ClosedTexts d P)
include hP

theorem parenthesise {text : String} (h : P text) (needed : Bool) : P (parenthesise needed text) := by
  cases needed with
  | true => exact hP.paren h
  | false => exact h

theorem product {coeff : Expr} {text c : String} (htext : P text) (hc : P c) :
    P (renderProduct coeff text c) := by
  rw [renderProduct]
  split
  · exact hc
  · have hjoin := hP.join .mul (hP.parenthesise htext coeff.isCompoundCoeff) hc
    simpa [BinOp.text, String.append_assoc] using hjoin

theorem intercalate {texts : List String} (h : ∀ t ∈ texts, P t) : P (" + ".intercalate texts) := by
  induction texts with
  | nil =>
    rw [String.intercalate_nil]
    exact hP.empty
  | cons t texts ih =>
    rw [List.forall_mem_cons] at h
    cases texts with
    | nil =>
      rw [String.intercalate_singleton]
      exact h.1
    | cons t' texts =>
      have hjoin := hP.join .add h.1 (ih h.2)
      rw [String.intercalate_cons_cons]
      simpa [BinOp.text, String.append_assoc] using hjoin

/-- A sum. The empty one is zero. -/
theorem sum {texts : List String} (h : ∀ t ∈ texts, P t) :
    P (if texts.isEmpty then d.zero else " + ".intercalate texts) := by
  split
  · exact hP.zero
  · exact hP.intercalate h

/-- A multiple or a quotient. -/
theorem scaled {inner scale : String} (hi : P inner) (hs : P scale) (division : Bool) :
    P ("(" ++ inner ++ ") " ++ (if division then "/" else "*") ++ " (" ++ scale ++ ")") := by
  have htext (symbol : String) : "(" ++ inner ++ ") " ++ symbol ++ " (" ++ scale ++ ")" =
      "(" ++ inner ++ ")" ++ " " ++ symbol ++ " " ++ ("(" ++ scale ++ ")") :=
    String.toList_inj.1 (by simp)
  rw [htext]
  cases division with
  | true => exact hP.join .div (hP.paren hi) (hP.paren hs)
  | false => exact hP.join .mul (hP.paren hi) (hP.paren hs)

/-- A multiple of a sum. -/
theorem average {parts : List String} {scale : String} (hparts : ∀ t ∈ parts, P t) (hs : P scale) :
    P ("(" ++ " + ".intercalate parts ++ ") * (" ++ scale ++ ")") := by
  have hscaled := hP.scaled (hP.intercalate hparts) hs false
  simpa [String.append_assoc] using hscaled

end ClosedTexts

section
variable {d : Dialect} {call : CallText} {P : String → Prop}

/-! ## Expressions -/

namespace Expr

/-- Whatever an expression is rendered as has a property. -/
def HasText (d : Dialect) (call : CallText) (P : String → Prop) (e : Expr) : Prop :=
  ∀ text, renderExpr d call e = .ok text → P text

theorem hasText_term (hP : ClosedTexts d P) {t : Term Expr} (hcoeff : t.coeff.HasText d call P)
    (hfactor : t.factor.expr.HasText d call P) : (Expr.term t).HasText d call P := by
  intro text h
  rw [renderExpr] at h
  obtain ⟨c, hc, h⟩ := bind_ok h
  obtain ⟨k, hk, h⟩ := bind_ok h
  cases h
  have hc : P c := by
    cases hf : t.factor with
    | call x | ref x =>
      rw [hf] at hc hfactor
      exact hfactor c hc
  exact hP.product (hcoeff k hk) hc

/-- **A rendered expression has a property that the texts of its leaves have**, if parentheses and operators
keep it. -/
theorem text_of_leaves (hP : ClosedTexts d P) (e : Expr) (h : ∀ l ∈ e.leaves, l.HasText d call P) :
    e.HasText d call P := by
  induction e using Expr.induction with
  | const | var | index | lookup | ref | call => exact h _ (by simp [leaves])
  | binop op l r ihl ihr =>
    intro text htext
    rw [renderExpr] at htext
    obtain ⟨lt, hlt, htext⟩ := bind_ok htext
    obtain ⟨rt, hrt, htext⟩ := bind_ok htext
    cases htext
    have hl := ihl (fun x hx => h x (by simp [leaves, hx])) lt hlt
    have hr := ihr (fun x hx => h x (by simp [leaves, hx])) rt hrt
    exact hP.join op (hP.parenthesise hl _) (hP.parenthesise hr _)
  | term t ih =>
    exact hasText_term hP (ih fun x hx => h x (by simp [leaves, hx])) (h _ (by simp [leaves]))
  | sum ts ih =>
    intro text htext
    rw [renderExpr, renderTerms_eq] at htext
    obtain ⟨parts, hparts, htext⟩ := bind_ok htext
    cases htext
    refine hP.sum fun part hpart => ?_
    obtain ⟨t, ht, hrender⟩ := Recurrence.exists_of_forall₂ (forall₂_of_mapM hparts) hpart
    have hleaves := leaves_term_subset ht
    exact hasText_term hP (ih t ht fun x hx => h x (hleaves (by simp [leaves, hx])))
      (h _ (hleaves (by simp [leaves]))) part hrender
  | scaled inner scale division ihi ihs =>
    intro text htext
    rw [renderExpr] at htext
    obtain ⟨it, hit, htext⟩ := bind_ok htext
    obtain ⟨st, hst, htext⟩ := bind_ok htext
    cases htext
    exact hP.scaled (ihi (fun x hx => h x (by simp [leaves, hx])) it hit)
      (ihs (fun x hx => h x (by simp [leaves, hx])) st hst) division
  | average bs scale ihb ihs =>
    intro text htext
    rw [renderExpr, renderList_eq] at htext
    obtain ⟨parts, hparts, htext⟩ := bind_ok htext
    obtain ⟨st, hst, htext⟩ := bind_ok htext
    cases htext
    refine hP.average (fun part hpart => ?_)
      (ihs (fun x hx => h x (by simp [leaves, hx])) st hst)
    obtain ⟨p, hp, rfl⟩ := List.mem_map.1 hpart
    obtain ⟨b, hb, hrender⟩ := Recurrence.exists_of_forall₂ (forall₂_of_mapM hparts) hp
    exact hP.paren (ihb b hb (fun x hx => h x (leaves_branch_subset hb hx)) p hrender)

end Expr

/-! ## Bodies -/

/-- A statement of a body: a comment of one line, or an intermediate whose text has a property. -/
inductive Script.Intermediate (P : String → Prop) : Stmt String → Prop
  | comment {t : String} : isOneLine t → Intermediate P (.comment t)
  | value {n t : String} : P t → Intermediate P (.value n t)

namespace Body

/-- The texts of a body have a property. -/
structure HasTexts (P : String → Prop) (b : Body) : Prop where
  statements : ∀ s ∈ b.statements, Intermediate P s
  result : P b.result

theorem intermediate_declarations {ns : List (String × String)} (h : ∀ p ∈ ns, P p.2) :
    ∀ s ∈ declarations ns, Intermediate P s :=
  List.forall_mem_map.2 fun p hp => .value (h p hp)

theorem texts_declareTerms {stem : String} {i : Nat} {ts : List (Term Expr)}
    {ns : List (String × String)} (h : declareTerms d call stem i ts = .ok ns)
    (hts : ∀ t ∈ ts, (Expr.term t).HasText d call P) : ∀ p ∈ ns, P p.2 := by
  intro p hp
  obtain ⟨t, ht, htext⟩ := Recurrence.exists_of_forall₂ (declareTerms_eq_ok h).2 hp
  exact hts t ht p.2 htext

/-- The sum of declared names. -/
theorem texts_sumOfNames (hP : ClosedTexts d P) (hname : ∀ n : String, isNameRun n.toList → P n)
    {ns : List (String × String)} (h : WellNamed (ns.map (·.1))) : P (sumOfNames d ns) := by
  have hsum := hP.sum fun n hn => hname n (h.isNameRun n hn)
  rw [sumOfNames]
  rwa [List.isEmpty_map] at hsum

/-- Every letter stands in a comment of one line. -/
theorem isOneLine_branchLetters : (branchLetters.all fun c =>
    isOneLine ("Branch " ++ String.singleton c.toUpper)) = true := by
  decide +kernel

theorem texts_branches (hP : ClosedTexts d P) (hname : ∀ n : String, isNameRun n.toList → P n)
    {letters : List Char}
    (hletters : ∀ c ∈ letters, continuesName c ∧ isOneLine ("Branch " ++ String.singleton c.toUpper))
    {sums : List (List (Term Expr))} (hsums : ∀ ts ∈ sums, ∀ t ∈ ts, (Expr.term t).HasText d call P)
    {stmts : List (Stmt String)} {parts : List String} (h : Branches d call letters sums stmts parts) :
    (∀ s ∈ stmts, Intermediate P s) ∧ ∀ part ∈ parts, P part := by
  induction h with
  | nil => exact ⟨nofun, nofun⟩
  | @cons letter letters ts sums ns stmts parts hns _ ih =>
    rw [List.forall_mem_cons] at hletters hsums
    obtain ⟨hstmts, hparts⟩ := ih hletters.2 hsums.2
    refine ⟨List.forall_mem_cons.2 ⟨.comment hletters.1.2, List.forall_mem_append.2 ⟨?_, hstmts⟩⟩,
      List.forall_mem_cons.2 ⟨?_, hparts⟩⟩
    · exact intermediate_declarations (texts_declareTerms hns hsums.1)
    · exact hP.paren (texts_sumOfNames hP hname (wellNamed_numbered hletters.1.1 hns))

/-- **The texts of a rendered body have a property** that the texts of the leaves and names have. -/
theorem texts_of_render (hP : ClosedTexts d P) (hname : ∀ n : String, isNameRun n.toList → P n)
    {indices : List String} {optimization : Optimization} {threshold : Int} {e : Expr}
    (he : ∀ l ∈ e.leaves, l.HasText d call P) {b : Body}
    (h : render d call indices optimization threshold e = .ok b) : b.HasTexts P := by
  have htext {e' : Expr} (hsub : e'.leaves ⊆ e.leaves) : e'.HasText d call P :=
    Expr.text_of_leaves hP e' fun l hl => he l (hsub hl)
  cases renders_of_render h with
  | inline htext' => exact ⟨nofun, htext (List.Subset.refl _) _ htext'⟩
  | sum hns =>
    exact ⟨intermediate_declarations (texts_declareTerms hns fun t ht => htext (Expr.leaves_term_subset ht)),
      texts_sumOfNames hP hname (wellNamed_numbered (a := 't') rfl hns)⟩
  | @scaledSum ts scale division ns text hns hscale =>
    have hterms := texts_declareTerms hns fun t ht => htext
      (List.Subset.trans (Expr.leaves_term_subset ht) (by simp [Expr.leaves]))
    exact ⟨intermediate_declarations hterms,
      hP.scaled (texts_sumOfNames hP hname (wellNamed_numbered (a := 't') rfl hns))
        (htext (by simp [Expr.leaves]) text hscale) division⟩
  | @branchAverage sums scale stmts parts text hbranches hscale =>
    obtain ⟨hstmts, hparts⟩ := texts_branches hP hname
      (fun c hc => ⟨continuesName_branchLetters c hc, List.all_eq_true.1 isOneLine_branchLetters c hc⟩)
      (fun ts hts t ht => htext (List.Subset.trans (Expr.leaves_term_subset ht)
        (Expr.leaves_branch_subset (List.mem_map_of_mem hts)))) hbranches
    exact ⟨hstmts, hP.average hparts (htext (by simp [Expr.leaves]) text hscale)⟩
  | @cse e stmts text _ hstmts hresult =>
    have hparts : ∀ c ∈ e.candidates indices threshold, c.expr.HasText d call P := fun c hc =>
      htext (Expr.leaves_visit_subset (Expr.mem_candidates hc).1)
    obtain ⟨ns, rfl, -, htexts⟩ := declareShared_eq_ok hstmts
    refine ⟨List.forall_mem_cons.2 ⟨.comment rfl, intermediate_declarations fun p hp => ?_⟩, ?_⟩
    · obtain ⟨c, hc, htext⟩ := Recurrence.exists_of_forall₂ htexts hp
      exact hparts c hc p.2 htext
    · refine Expr.text_of_leaves hP _ (Expr.forall_leaves_shareWith (fun c hc => ?_) he) text hresult
      intro name hrender
      cases hrender
      exact hname c.name (isNameRun_candidate hc)

end Body

end

/-!
## Calls of a rendered body

A body renders its expression, or the shared parts of it and then the shared form (`Body.parts`). It takes
the texts of the calls in these and of no others (`Body.render_congr`), and all of them are calls of the
expression: sharing and the fixing of names make no call and change none (`Body.renderedCalls_subset`).
-/

/-- The calls of an expression are those among its leaves. -/
theorem Expr.mem_calls {e : Expr} {c : Call} : c ∈ e.calls ↔ .call c ∈ e.leaves := by
  rw [calls, List.mem_filterMap]
  constructor
  · rintro ⟨l, hl, hc⟩
    cases l <;> cases hc
    exact hl
  · exact fun h => ⟨_, h, rfl⟩

/-- What an expression ends in has no parts. -/
theorem Expr.isLeaf_of_mem_leaves {e l : Expr} (h : l ∈ e.leaves) : l.isLeaf := by
  have hfactor (f : Factor) : f.expr.isLeaf := by cases f <;> rfl
  induction e using Expr.induction with
  | const | var | index | lookup | ref | call =>
    obtain rfl := List.mem_singleton.1 h
    rfl
  | binop op l r ihl ihr => exact (List.mem_append.1 h).elim ihl ihr
  | term t ih =>
    rcases List.mem_append.1 h with h | h
    · exact ih h
    · exact List.mem_singleton.1 h ▸ hfactor _
  | sum ts ih =>
    rw [leaves_sum] at h
    obtain ⟨t, ht, h⟩ := List.mem_flatMap.1 h
    rcases List.mem_append.1 h with h | h
    · exact ih t ht h
    · exact List.mem_singleton.1 h ▸ hfactor _
  | scaled inner scale division ihi ihs => exact (List.mem_append.1 h).elim ihi ihs
  | average bs scale ihb ihs =>
    rw [leaves_average] at h
    rcases List.mem_append.1 h with h | h
    · obtain ⟨b, hb, h⟩ := List.mem_flatMap.1 h
      exact ihb b hb h
    · exact ihs h

/-! ### The texts that a rendering takes -/

section
variable {d : Dialect} {call call' : CallText}

theorem renderFactor_congr {f : Factor} (h : ∀ c ∈ f.call?.toList, call c = call' c) :
    renderFactor call f = renderFactor call' f := by
  cases f with
  | call c => exact h c (by simp [Factor.call?])
  | ref => rfl

/-- **The text of an expression depends on the texts of its calls only.** -/
theorem renderExpr_congr {e : Expr} (h : ∀ c ∈ e.calls, call c = call' c) :
    renderExpr d call e = renderExpr d call' e := by
  induction e using Expr.induction with
  | const c => cases c <;> rfl
  | var | index | lookup | ref => rfl
  | call c => exact h c (by simp)
  | binop op l r ihl ihr =>
    rw [Expr.calls_binop, List.forall_mem_append] at h
    rw [renderExpr, renderExpr, ihl h.1, ihr h.2]
  | term t ih =>
    rw [Expr.calls_term, Expr.termCalls, List.forall_mem_append] at h
    rw [renderExpr, renderExpr, ih h.1, renderFactor_congr h.2]
  | sum ts ih =>
    rw [Expr.calls_sum] at h
    suffices hterms : renderTerms d call ts = renderTerms d call' ts by
      rw [renderExpr, renderExpr, hterms]
    induction ts with
    | nil => rfl
    | cons t ts ihts =>
      rw [List.flatMap_cons, List.forall_mem_append, Expr.termCalls, List.forall_mem_append] at h
      obtain ⟨iht, ih⟩ := List.forall_mem_cons.1 ih
      rw [renderTerms, renderTerms, iht h.1.1, renderFactor_congr h.1.2, ihts ih h.2]
  | scaled inner scale division ihi ihs =>
    rw [Expr.calls_scaled, List.forall_mem_append] at h
    rw [renderExpr, renderExpr, ihi h.1, ihs h.2]
  | average bs scale ihb ihs =>
    rw [Expr.calls_average, List.forall_mem_append] at h
    obtain ⟨hbs, hscale⟩ := h
    suffices hlist : renderList d call bs = renderList d call' bs by
      rw [renderExpr, renderExpr, hlist, ihs hscale]
    induction bs with
    | nil => rfl
    | cons b bs ihbs =>
      rw [List.flatMap_cons, List.forall_mem_append] at hbs
      obtain ⟨ih, ihb⟩ := List.forall_mem_cons.1 ihb
      rw [renderList, renderList, ih hbs.1, ihbs ihb hbs.2]

end

namespace Body

section
variable {d : Dialect} {call call' : CallText}

theorem declareTerms_congr {ts : List (Term Expr)} (h : ∀ c ∈ (Expr.sum ts).calls, call c = call' c)
    (stem : String) (i : Nat) : declareTerms d call stem i ts = declareTerms d call' stem i ts := by
  rw [Expr.calls_sum] at h
  induction ts generalizing i with
  | nil => rfl
  | cons t ts ih =>
    rw [List.flatMap_cons, List.forall_mem_append, ← Expr.calls_term] at h
    rw [declareTerms, declareTerms, renderExpr_congr h.1, ih h.2]

theorem declareBranches_congr {sums : List (List (Term Expr))}
    (h : ∀ ts ∈ sums, ∀ c ∈ (Expr.sum ts).calls, call c = call' c) (letters : List Char) :
    declareBranches d call letters sums = declareBranches d call' letters sums := by
  induction sums generalizing letters with
  | nil => cases letters <;> rfl
  | cons ts sums ih =>
    rw [List.forall_mem_cons] at h
    cases letters with
    | nil => rfl
    | cons letter letters =>
      rw [declareBranches, declareBranches, declareTerms_congr h.1, ih h.2]

theorem declareShared_congr {cs : List Candidate}
    (h : ∀ c ∈ cs.flatMap (·.expr.calls), call c = call' c) :
    declareShared d call cs = declareShared d call' cs := by
  induction cs with
  | nil => rfl
  | cons c cs ih =>
    rw [List.flatMap_cons, List.forall_mem_append] at h
    rw [declareShared, declareShared, renderExpr_congr h.1, ih h.2]

theorem unshared_congr {e : Expr} (h : ∀ c ∈ e.calls, call c = call' c) :
    unshared d call e = unshared d call' e := by
  have hinlined : inlined d call e = inlined d call' e := by
    rw [inlined, inlined, renderExpr_congr h]
  unfold unshared
  split
  · exact hinlined
  · split
    · rw [declareTerms_congr h]
    · rw [Expr.calls_scaled, List.forall_mem_append] at h
      rw [declareTerms_congr h.1, renderExpr_congr h.2]
    · split
      · next sums hsums =>
        obtain rfl := eq_of_branchSums? hsums
        rw [Expr.calls_average, List.forall_mem_append, List.forall_mem_flatMap] at h
        have hterms : ∀ ts ∈ sums, ∀ c ∈ (Expr.sum ts).calls, call c = call' c :=
          fun ts hts => h.1 _ (List.mem_map_of_mem hts)
        rw [declareBranches_congr hterms, renderExpr_congr h.2, hinlined]
      · exact hinlined
    · exact hinlined

end

/-! ### The calls of a body -/

variable {indices : List String} {optimization : Optimization} {threshold : Int} {e : Expr}

/-- The expressions that a body renders: the shared parts and the shared form, or the whole expression. -/
def parts (indices : List String) (optimization : Optimization) (threshold : Int) (e : Expr) :
    List Expr :=
  if optimization == .cse && e.worthSharing indices then
    (e.share indices threshold).candidates.map (·.expr) ++ [(e.share indices threshold).result]
  else [e]

/-- The calls that a body renders. -/
def renderedCalls (indices : List String) (optimization : Optimization) (threshold : Int) (e : Expr) :
    List Call :=
  (parts indices optimization threshold e).flatMap Expr.calls

/-- **A body depends on the texts of the calls that it renders**, and on those of no others. -/
theorem render_congr {d : Dialect} {call call' : CallText}
    (h : ∀ c ∈ renderedCalls indices optimization threshold e, call c = call' c) :
    render d call indices optimization threshold e = render d call' indices optimization threshold e := by
  rw [renderedCalls, parts] at h
  unfold render
  split
  · next hshare =>
    rw [if_pos hshare, List.flatMap_append, List.forall_mem_append, List.flatMap_map,
      List.flatMap_singleton] at h
    dsimp only
    split
    · next hnone =>
      have hresult : (e.share indices threshold).result = e := if_pos hnone
      rw [hresult] at h
      exact unshared_congr h.2
    · rw [declareShared_congr h.1, renderExpr_congr h.2]
  · next hwhole =>
    rw [if_neg hwhole, List.flatMap_singleton] at h
    exact unshared_congr h

/-- A part has no leaves but references and those of the whole. -/
theorem leaves_parts {p : Expr} (hp : p ∈ parts indices optimization threshold e) {l : Expr}
    (hl : l ∈ p.leaves) : l ∈ e.leaves ∨ ∃ n, l = .ref n := by
  rw [parts] at hp
  split at hp
  · rcases List.mem_append.1 hp with hp | hp
    · obtain ⟨c, hc, rfl⟩ := List.mem_map.1 hp
      exact .inl (Expr.leaves_visit_subset (Expr.mem_candidates hc).1 hl)
    · obtain rfl := List.mem_singleton.1 hp
      rw [Expr.share] at hl
      dsimp only at hl
      split at hl
      · exact .inl hl
      · have hkept : ∀ l ∈ e.leaves, l ∈ e.leaves ∨ ∃ n, l = .ref n := fun l hl => .inl hl
        exact Expr.forall_leaves_shareWith (fun c _ => .inr ⟨c.name, rfl⟩) hkept l hl
  · obtain rfl := List.mem_singleton.1 hp
    exact .inl hl

/-- **A body renders calls of its expression only.** -/
theorem renderedCalls_subset : renderedCalls indices optimization threshold e ⊆ e.calls := by
  intro c hc
  obtain ⟨p, hp, hc⟩ := List.mem_flatMap.1 hc
  rw [Expr.mem_calls] at hc ⊢
  exact (leaves_parts hp hc).resolve_right (by rintro ⟨n, ⟨⟩⟩)

end Body

namespace Expr

variable {value : String → Option String}

/-- An expression with names fixed is rendered without regrouping if the expression is. -/
theorem Regular.substitute {e : Expr} (h : e.Regular) : (e.substitute value).Regular := by
  have hterm {e : Expr} (h : e.isTerm = false) : (e.substitute value).isTerm = false := by
    cases e <;> first | rfl | cases h
  induction h with
  | @leaf e hleaf =>
    refine .leaf ?_
    cases e <;> first | rfl | cases hleaf
  | binop _ _ hl hr ihl ihr => exact .binop ihl ihr (hterm hl) (hterm hr)
  | term _ ih => exact .term ih
  | sum hne _ ih =>
    rw [Expr.substitute, substituteTerms_eq_map]
    exact .sum (by simpa using hne) (List.forall_mem_map.2 ih)
  | scaled _ _ ihi ihs => exact .scaled ihi ihs
  | average hne _ _ ihb ihs =>
    rw [Expr.substitute, substituteList_eq_map]
    exact .average (by simpa using hne) (List.forall_mem_map.2 ihb) ihs

end Expr

/-! ## Names in scope -/

/-- Statements that run from top to bottom, in which every identifier that is read is in scope: bound
outside or by a declaration before. A comment ends on its line. -/
inductive Script.WellScoped : List String → List (Stmt String) → Prop
  | nil {scope} : WellScoped scope []
  | comment {scope t ss} : isOneLine t → WellScoped scope ss → WellScoped scope (.comment t :: ss)
  | value {scope n v ss} : ReadsOnly scope v → WellScoped (n :: scope) ss →
      WellScoped scope (.value n v :: ss)
  | ret {scope v ss} : ReadsOnly scope v → WellScoped scope ss → WellScoped scope (.ret v :: ss)
  | retIf {scope c v ss} : ReadsOnly scope c → ReadsOnly scope v → WellScoped scope ss →
      WellScoped scope (.retIf c v :: ss)

namespace Script

variable {scope scope' : List String} {ss ts : List (Stmt String)}

theorem WellScoped.mono (h : WellScoped scope ss) (hsub : scope ⊆ scope') : WellScoped scope' ss := by
  induction h generalizing scope' with
  | nil => exact .nil
  | comment hline _ ih => exact .comment hline (ih hsub)
  | value hv _ ih => exact .value (hv.mono hsub) (ih (List.cons_subset_cons _ hsub))
  | ret hv _ ih => exact .ret (hv.mono hsub) (ih hsub)
  | retIf hc hv _ ih => exact .retIf (hc.mono hsub) (hv.mono hsub) (ih hsub)

/-- What follows statements may read what they declare. -/
theorem WellScoped.append (h : WellScoped scope ss) (ht : WellScoped (declared ss ++ scope) ts) :
    WellScoped scope (ss ++ ts) := by
  induction h with
  | nil => exact ht
  | comment hline _ ih => exact .comment hline (ih ht)
  | value hv _ ih => exact .value hv (ih (ht.mono (by simp [declared])))
  | ret hv _ ih => exact .ret hv (ih ht)
  | retIf hc hv _ ih => exact .retIf hc hv (ih ht)

/-- Declarations that read nothing of each other. -/
theorem wellScoped_declarations {ns : List (String × String)} (h : ∀ p ∈ ns, ReadsOnly scope p.2) :
    WellScoped scope (Body.declarations ns) := by
  induction ns generalizing scope with
  | nil => exact .nil
  | cons p ns ih =>
    rw [List.forall_mem_cons] at h
    exact .value h.1 (ih fun q hq => (h.2 q hq).mono (List.subset_cons_self _ _))

end Script

/-! ### Expressions -/

section
variable {d : Dialect} {call : CallText} {names : List String}

/-- Whatever an expression is rendered as reads some names only. -/
def Expr.Reads (d : Dialect) (call : CallText) (names : List String) (e : Expr) : Prop :=
  ∀ text, renderExpr d call e = .ok text → ReadsOnly names text

namespace Expr

theorem readsOnly_zero (hd : d.target = .js) : ReadsOnly names d.zero := by
  have hzero : d.zero.toList = ['0'] := by simp [Dialect.zero, hd]
  intro name hname
  rw [hzero] at hname
  exact absurd hname (not_mentions (List.forall_mem_singleton.2 rfl))

/-- A finite number. -/
theorem readsOnly_number (hd : d.target = .js) {x : Float} (hx : IsFinite x) :
    ReadsOnly names (d.number x) := by
  have hnumber : d.number x =
      if x < 0.0 || isNegativeZero x then "(" ++ numberText x ++ ")" else numberText x := by
    simp [Dialect.number, hd]
  rw [hnumber]
  split
  · exact (readsOnly_numberText hx).paren.reads
  · exact readsOnly_numberText hx

/-- Lifted index arithmetic. -/
theorem readsOnly_indexValue (hd : d.target = .js) {t : String} (ht : ReadsOnly names t) :
    ReadsOnly names (d.indexValue t) := by
  have hvalue : d.indexValue t = "(" ++ t ++ ")" := by simp [Dialect.indexValue, hd]
  rw [hvalue]
  exact ht.paren.reads

/-- An index with a shift in digits. -/
theorem readsOnly_shiftedIndex {i : String} {w : Whole} (hi : ReadsOnly names i)
    (hw : IsFinite (ofInt w.magnitude)) : ReadsOnly names (shiftedIndex i w.toInt) := by
  have hsign : w.toInt = w.magnitude ∨ w.toInt = -w.magnitude := by
    rw [Whole.toInt]
    split <;> simp
  rw [shiftedIndex]
  split
  · exact hi
  · next hne =>
    have hne : w.toInt ≠ 0 := by simpa using hne
    split
    · next hpos =>
      have heq : w.toInt = w.magnitude := by omega
      rw [heq]
      exact (hi.glue rfl).append (readsOnly_intText hw)
    · next hpos =>
      have heq : -w.toInt = w.magnitude := by omega
      rw [heq]
      exact (hi.glue rfl).append (readsOnly_intText hw)

/-- The generator adds no names. -/
theorem closedTexts_readsOnly (hd : d.target = .js) : ClosedTexts d (ReadsOnly names) where
  zero := readsOnly_zero hd
  empty name hname := absurd hname (not_mentions (by simp))
  paren h := h.paren.reads
  join o hl hr := by
    have hop : isGlue o.text := by cases o <;> rfl
    exact (((hl.glue rfl).glue hop).glue rfl).append hr

/-- **A rendered expression reads what its leaves read.** -/
theorem reads_of_leaves (hd : d.target = .js) (e : Expr)
    (h : ∀ l ∈ e.leaves, l.Reads d call names) : e.Reads d call names :=
  text_of_leaves (closedTexts_readsOnly hd) e h

end Expr

/-! ### Bodies -/

namespace Body

variable {scope : List String}

/-- The statements of a body are in scope, and so is its result once they ran. -/
structure WellScoped (scope : List String) (b : Body) : Prop where
  statements : Script.WellScoped scope b.statements
  result : ReadsOnly (declared b.statements ++ scope) b.result

/-- Declared terms: names, with texts that read what the terms read. -/
theorem reads_declareTerms {stem : String} (hstem : ∀ c ∈ stem.toList, continuesName c)
    {ts : List (Term Expr)} (hts : ∀ t ∈ ts, (Expr.term t).Reads d call scope) {i : Nat}
    {ns : List (String × String)} (h : declareTerms d call stem i ts = .ok ns) :
    ∀ p ∈ ns, (∀ c ∈ p.1.toList, continuesName c) ∧ ReadsOnly scope p.2 := by
  obtain ⟨hnames, htexts⟩ := declareTerms_eq_ok h
  intro p hp
  constructor
  · have hname : p.1 ∈ ns.map (·.1) := List.mem_map_of_mem hp
    rw [hnames] at hname
    obtain ⟨k, -, hk⟩ := List.mem_map.1 hname
    exact hk ▸ continuesName_of_isNameRun (isNameRun_numbered hstem k)
  · obtain ⟨t, ht, htext⟩ := Recurrence.exists_of_forall₂ htexts hp
    exact hts t ht p.2 htext

/-- The sum of declared names. -/
theorem readsOnly_sumOfNames (hd : d.target = .js) {ns : List (String × String)}
    (h : ∀ p ∈ ns, ∀ c ∈ p.1.toList, continuesName c) :
    ReadsOnly (ns.map (·.1) ++ scope) (sumOfNames d ns) := by
  rw [sumOfNames]
  split
  · exact Expr.readsOnly_zero hd
  · refine readsOnly_intercalate rfl (List.forall_mem_map.2 fun p hp => ?_)
    exact readsOnly_name (h p hp) (List.mem_append_left _ (List.mem_map_of_mem hp))

/-- A body that declares its terms. -/
theorem wellScoped_terms (hd : d.target = .js) {ts : List (Term Expr)}
    (hts : ∀ t ∈ ts, (Expr.term t).Reads d call scope) {ns : List (String × String)}
    (h : declareTerms d call "t" 1 ts = .ok ns) :
    Script.WellScoped scope (declarations ns) ∧
      ReadsOnly (declared (declarations ns) ++ scope) (sumOfNames d ns) := by
  have hns := reads_declareTerms (List.all_eq_true.1 rfl) hts h
  rw [declared_declarations]
  exact ⟨wellScoped_declarations fun p hp => (hns p hp).2,
    readsOnly_sumOfNames hd fun p hp => (hns p hp).1⟩

/-- Branches that declare their terms. -/
theorem wellScoped_branches (hd : d.target = .js) {letters : List Char}
    (hletters : ∀ c ∈ letters, continuesName c ∧ isOneLine ("Branch " ++ String.singleton c.toUpper))
    {sums : List (List (Term Expr))}
    (hsums : ∀ ts ∈ sums, ∀ t ∈ ts, (Expr.term t).Reads d call scope) {stmts : List (Stmt String)}
    {parts : List String} (h : Branches d call letters sums stmts parts) :
    Script.WellScoped scope stmts ∧ ∀ part ∈ parts, ReadsOnly (declared stmts ++ scope) part := by
  induction h with
  | nil => exact ⟨.nil, by simp⟩
  | @cons letter letters ts sums ns stmts parts hns _ ih =>
    rw [List.forall_mem_cons] at hletters hsums
    have hns := reads_declareTerms (by simpa using hletters.1.1) hsums.1 hns
    obtain ⟨hstmts, hparts⟩ := ih hletters.2 hsums.2
    refine ⟨.comment hletters.1.2 ?_, ?_⟩
    · exact (wellScoped_declarations fun p hp => (hns p hp).2).append
        (hstmts.mono (List.subset_append_right _ _))
    · have hsum : ReadsOnly (ns.map (·.1) ++ scope) (sumOfNames d ns) :=
        readsOnly_sumOfNames hd fun p hp => (hns p hp).1
      rw [declared_branch]
      refine List.forall_mem_cons.2 ⟨hsum.paren.reads.mono (by simp), fun part hpart => ?_⟩
      exact (hparts part hpart).mono (by simp)

/-- Declared candidates read what their expressions read. -/
theorem wellScoped_declareShared {cs : List Candidate} (hcs : ∀ c ∈ cs, c.expr.Reads d call scope)
    {stmts : List (Stmt String)} (h : declareShared d call cs = .ok stmts) :
    Script.WellScoped scope stmts ∧ declared stmts = cs.map (·.name) := by
  obtain ⟨ns, rfl, hnames, htexts⟩ := declareShared_eq_ok h
  refine ⟨wellScoped_declarations fun p hp => ?_, by rw [declared_declarations, hnames]⟩
  obtain ⟨c, hc, htext⟩ := Recurrence.exists_of_forall₂ htexts hp
  exact hcs c hc p.2 htext

/-- **A rendered body is in scope**, if the leaves of its expression are. -/
theorem wellScoped_render (hd : d.target = .js) {indices : List String} {optimization : Optimization}
    {threshold : Int} {e : Expr} (he : ∀ l ∈ e.leaves, l.Reads d call scope) {b : Body}
    (h : render d call indices optimization threshold e = .ok b) : b.WellScoped scope := by
  have hreads {e' : Expr} (hsub : e'.leaves ⊆ e.leaves) : e'.Reads d call scope :=
    Expr.reads_of_leaves hd e' fun l hl => he l (hsub hl)
  cases renders_of_render h with
  | inline htext => exact ⟨.nil, hreads (List.Subset.refl _) _ htext⟩
  | sum hns =>
    obtain ⟨hstmts, hsum⟩ := wellScoped_terms hd (fun t ht => hreads (Expr.leaves_term_subset ht)) hns
    exact ⟨hstmts, hsum⟩
  | @scaledSum ts scale division ns text hns htext =>
    obtain ⟨hstmts, hsum⟩ := wellScoped_terms hd (fun t ht => hreads
      (List.Subset.trans (Expr.leaves_term_subset ht) (by simp [Expr.leaves]))) hns
    have hscale : scale.Reads d call scope := hreads (by simp [Expr.leaves])
    exact ⟨hstmts, (Expr.closedTexts_readsOnly hd).scaled hsum
      ((hscale text htext).mono (List.subset_append_right _ _)) division⟩
  | @branchAverage sums scale stmts parts text hbranches htext =>
    have hletters : ∀ c ∈ branchLetters,
        continuesName c ∧ isOneLine ("Branch " ++ String.singleton c.toUpper) := fun c hc =>
      ⟨continuesName_branchLetters c hc, List.all_eq_true.1 isOneLine_branchLetters c hc⟩
    obtain ⟨hstmts, hparts⟩ := wellScoped_branches hd hletters (fun ts hts t ht => hreads
      (List.Subset.trans (Expr.leaves_term_subset ht)
        (Expr.leaves_branch_subset (List.mem_map_of_mem hts)))) hbranches
    have hscale : scale.Reads d call scope := hreads (by simp [Expr.leaves])
    refine ⟨hstmts, ?_⟩
    exact (((((closes_glue rfl).append (readsOnly_intercalate rfl hparts)).glue rfl).append
      ((hscale text htext).mono (List.subset_append_right _ _))).glue rfl).reads
  | @cse e stmts text _ hstmts htext =>
    have hparts : ∀ c ∈ e.candidates indices threshold, c.expr.Reads d call scope := fun c hc =>
      hreads (Expr.leaves_visit_subset (Expr.mem_candidates hc).1)
    obtain ⟨hscoped, hdeclared⟩ := wellScoped_declareShared hparts hstmts
    refine ⟨.comment rfl hscoped, ?_⟩
    change ReadsOnly (declared stmts ++ scope) text
    rw [hdeclared]
    refine Expr.reads_of_leaves hd _ (Expr.forall_leaves_shareWith (fun c hc => ?_) ?_) text htext
    · intro text htext
      cases htext
      exact readsOnly_name (continuesName_of_isNameRun (isNameRun_candidate hc))
        (List.mem_append_left _ (List.mem_map_of_mem hc))
    · exact fun l hl text htext => (he l hl text htext).mono (List.subset_append_right _ _)

end Body

end

end RecurrenceCompiler
