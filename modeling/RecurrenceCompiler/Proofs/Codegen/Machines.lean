import RecurrenceCompiler.Proofs.Codegen.Strategies

/-!
# Machines that run rule bodies

A body is run on a machine: in each of its states texts stand for something, and a declaration leads to a
state in which its name has the value of its text (`BodyMachine`). Declarations bind their names and leave
alone what was bound before (`BodyMachine.Binds.append`), and the result is put together from those names.
So whatever strategy is chosen, a machine that performs the operations computes what the expression stands
for (`BodyMachine.computes_of_renders`).
-/

namespace RecurrenceCompiler

open Text Decimal Arith Script

/-! ## Interpretations perform operations -/

namespace Interpretation

variable {V : Type} (I : Interpretation V)

/-- An expression has a value, whatever references are bound to. -/
def Always (e : Expr) (v : V) : Prop :=
  ∀ shared, I.value shared e = some v

variable {I}

theorem mapM_of_forall₂ {α β : Type} {f : α → Option β} {xs : List α} {ys : List β}
    (h : List.Forall₂ (fun x y => f x = some y) xs ys) : xs.mapM f = some ys := by
  induction h with
  | nil => rfl
  | cons hx _ ih =>
    rw [List.mapM_cons, hx, ih]
    rfl

/-- The value of an expression performs its operations. -/
theorem valuation (shared : String → Option V) :
    Expr.Valuation I.op fun e v => I.value shared e = some v where
  binop hx hy := by
    rw [value, hx, hy]
    rfl
  term {t f k} hf hk := by
    have hfactor : I.factor shared t.factor = some f := by
      rw [← hf]
      cases t.factor <;> rfl
    rw [value, hfactor, hk]
    cases t.coeff.isUnit <;> rfl
  sum h := by
    rw [value_sum, mapM_of_forall₂ h]
    rfl
  scaled hx hk := by
    rw [value, hx, hk]
    rfl
  average h hk := by
    rw [value, values_eq, mapM_of_forall₂ h, hk]
    rfl

theorem valuation_always : Expr.Valuation I.op I.Always where
  binop hx hy shared := (valuation shared).binop (hx shared) (hy shared)
  term hf hk shared := (valuation shared).term (hf shared) (hk shared)
  sum h shared := (valuation shared).sum (h.imp fun _ _ ht => ht shared)
  scaled hx hk shared := (valuation shared).scaled (hx shared) (hk shared)
  average h hk shared := (valuation shared).average (h.imp fun _ _ hb => hb shared) (hk shared)

end Interpretation

/-! ## Machines -/

/-- A machine that performs some operations. In a state texts stand for values where a sum, a product or
an operand is read, as in `TextReading`, and some names have values. -/
structure BodyMachine {V : Type} (op : BinOp → V → V → V) where
  State : Type
  sum : State → String → V → Prop
  product : State → String → V → Prop
  operand : State → String → V → Prop
  ofProduct {s : State} {t : String} {x : V} : product s t x → sum s t x
  ofOperand {s : State} {t : String} {x : V} : operand s t x → product s t x
  paren {s : State} {t : String} {x : V} : sum s t x → operand s ("(" ++ t ++ ")") x
  joinSum {s : State} {o : BinOp} {l r : String} {x y : V} : o.isAdditive = true → sum s l x →
    product s r y → sum s (l ++ " " ++ o.text ++ " " ++ r) (op o x y)
  joinProduct {s : State} {o : BinOp} {l r : String} {x y : V} : o.isAdditive = false → product s l x →
    operand s r y → product s (l ++ " " ++ o.text ++ " " ++ r) (op o x y)
  /-- A name has a value. -/
  Has : State → String → V → Prop
  /-- Whether a name can be declared in a state. -/
  CanDeclare : State → String → Prop
  /-- A declaration of a name, with a text, leads from one state to another. -/
  Declares : State → String → String → State → Prop
  /-- States differ in what some names stand for at most. -/
  Off : List String → State → State → Prop
  operand_name {s : State} {n : String} {v : V} : CanDeclare s n → Has s n v → operand s n v
  exists_declares {s : State} {n t : String} {v : V} : CanDeclare s n → sum s t v →
    ∃ s', Declares s n t s' ∧ Off [n] s s' ∧ Has s' n v
  off_refl (ns : List String) (s : State) : Off ns s s
  off_trans {ns : List String} {s s' s'' : State} : Off ns s s' → Off ns s' s'' → Off ns s s''
  off_mono {ns ns' : List String} {s s' : State} : ns ⊆ ns' → Off ns s s' → Off ns' s s'
  has_off {ns : List String} {s s' : State} {n : String} {v : V} : n ∉ ns → Off ns s s' → Has s n v →
    Has s' n v
  canDeclare_off {ns : List String} {s s' : State} {n : String} : Off ns s s' → CanDeclare s n →
    CanDeclare s' n

namespace BodyMachine

variable {V : Type} {op : BinOp → V → V → V} (M : BodyMachine op)

/-- What texts stand for in each of some states. -/
def reading (states : M.State → Prop) : TextReading V where
  op := op
  sum t x := ∀ s, states s → M.sum s t x
  product t x := ∀ s, states s → M.product s t x
  operand t x := ∀ s, states s → M.operand s t x
  ofProduct h s hs := M.ofProduct (h s hs)
  ofOperand h s hs := M.ofOperand (h s hs)
  paren h s hs := M.paren (h s hs)
  joinSum ho hl hr s hs := M.joinSum ho (hl s hs) (hr s hs)
  joinProduct ho hl hr s hs := M.joinProduct ho (hl s hs) (hr s hs)

/-- Statements that declare values lead from one state to another. -/
inductive Runs : M.State → List (Stmt String) → M.State → Prop
  | nil {s : M.State} : Runs s [] s
  | comment {s s' : M.State} {t : String} {ss : List (Stmt String)} : Runs s ss s' →
      Runs s (.comment t :: ss) s'
  | value {s s' s'' : M.State} {n t : String} {ss : List (Stmt String)} : M.Declares s n t s' →
      Runs s' ss s'' → Runs s (.value n t :: ss) s''

/-- A body computes a value: its declarations are run, and then its result stands for the value. -/
def Computes (s : M.State) (b : Body) (v : V) : Prop :=
  ∃ s', M.Runs s b.statements s' ∧ M.Off (declared b.statements) s s' ∧ M.sum s' b.result v

/-- What names of a state stand for, they stand for in another one. -/
def Agrees (names : List String) (s s' : M.State) : Prop :=
  ∀ n ∈ names, ∀ v, M.Has s n v → M.Has s' n v

/-- Statements that can be run wherever only some names are bound anew, and that make something true. It
stays true while what they declare stays bound. -/
def Binds (names : List String) (start : M.State) (ss : List (Stmt String))
    (makes : M.State → Prop) : Prop :=
  ∀ s, M.Off names start s → ∃ final, M.Runs s ss final ∧ M.Off (declared ss) s final ∧
    ∀ later, M.Off names start later → M.Agrees (declared ss) final later → makes later

/-- A leaf is rendered as an operand that stands for its value, whatever some names are bound to. -/
def ReadsLeaf (I : Interpretation V) (d : Dialect) (call : CallText) (names : List String)
    (start : M.State) : Expr → Prop :=
  Expr.LeafText d call (M.reading (M.Off names start)) I.Always

variable {M} {names : List String} {start : M.State} {ss ts : List (Stmt String)}
  {makes makes' : M.State → Prop}

theorem Runs.append {s s' s'' : M.State} (hs : M.Runs s ss s') (ht : M.Runs s' ts s'') :
    M.Runs s (ss ++ ts) s'' := by
  induction hs with
  | nil => exact ht
  | comment _ ih => exact .comment (ih ht)
  | value hn _ ih => exact .value hn (ih ht)

theorem Binds.mono (h : M.Binds names start ss makes)
    (himp : ∀ later, M.Off names start later → makes later → makes' later) :
    M.Binds names start ss makes' := by
  intro s hs
  obtain ⟨final, hrun, hoff, hmakes⟩ := h s hs
  exact ⟨final, hrun, hoff, fun later hlater hagrees => himp later hlater (hmakes later hlater hagrees)⟩

theorem binds_nil (h : ∀ later, M.Off names start later → makes later) :
    M.Binds names start [] makes :=
  fun s _ => ⟨s, .nil, M.off_refl _ _, fun later hlater _ => h later hlater⟩

theorem Binds.comment (h : M.Binds names start ss makes) (t : String) :
    M.Binds names start (.comment t :: ss) makes := by
  intro s hs
  obtain ⟨final, hrun, hoff, hmakes⟩ := h s hs
  exact ⟨final, .comment hrun, hoff, hmakes⟩

/-- A declaration binds its name. -/
theorem binds_value {n t : String} {v : V} (hn : M.CanDeclare start n)
    (h : (M.reading (M.Off names start)).sum t v) :
    M.Binds names start [.value n t] fun later => M.Has later n v := by
  intro s hs
  obtain ⟨s', hdeclares, hoff, hhas⟩ := M.exists_declares (M.canDeclare_off hs hn) (h s hs)
  exact ⟨s', .value hdeclares .nil, hoff, fun later _ hagrees => hagrees n (by simp [declared]) v hhas⟩

/-- **Statements that declare other names leave bound what was bound before.** -/
theorem Binds.append (hs : M.Binds names start ss makes) (ht : M.Binds names start ts makes')
    (hsub : declared ss ⊆ names) (hdisjoint : List.Disjoint (declared ss) (declared ts)) :
    M.Binds names start (ss ++ ts) fun later => makes later ∧ makes' later := by
  intro s hstart
  obtain ⟨middle, hrun, hoff, hmakes⟩ := hs s hstart
  obtain ⟨final, hrun', hoff', hmakes'⟩ := ht middle (M.off_trans hstart (M.off_mono hsub hoff))
  refine ⟨final, hrun.append hrun', ?_, fun later hlater hagrees => ⟨?_, ?_⟩⟩
  · rw [declared_append]
    exact M.off_trans (M.off_mono (List.subset_append_left _ _) hoff)
      (M.off_mono (List.subset_append_right _ _) hoff')
  · refine hmakes later hlater fun n hn v hv => hagrees n (by simp [declared_append, hn]) v ?_
    exact M.has_off (hdisjoint hn) hoff' hv
  · exact hmakes' later hlater fun n hn v hv => hagrees n (by simp [declared_append, hn]) v hv

/-- Where statements end when they are run. -/
theorem Binds.exists_run (h : M.Binds names start ss makes) (hsub : declared ss ⊆ names) :
    ∃ final, M.Runs start ss final ∧ M.Off (declared ss) start final ∧ makes final := by
  obtain ⟨final, hrun, hoff, hmakes⟩ := h start (M.off_refl _ _)
  exact ⟨final, hrun, hoff, hmakes final (M.off_mono hsub hoff) fun _ _ _ hv => hv⟩

/-! ## Declared names -/

/-- **Declarations bind their names** to what their texts stand for. -/
theorem binds_declarations {ns : List (String × String)} {vs : List V}
    (h : List.Forall₂ (fun p v => (M.reading (M.Off names start)).sum p.2 v) ns vs)
    (hnodup : (ns.map (·.1)).Nodup) (hsub : ns.map (·.1) ⊆ names)
    (hcan : ∀ n ∈ ns.map (·.1), M.CanDeclare start n) :
    M.Binds names start (Body.declarations ns) fun later =>
      List.Forall₂ (fun p v => M.Has later p.1 v) ns vs := by
  induction h with
  | nil => exact binds_nil fun _ _ => .nil
  | @cons p v ns vs hp _ ih =>
    obtain ⟨hnew, hnodup⟩ := List.nodup_cons.1 hnodup
    obtain ⟨hmem, hsub⟩ := List.cons_subset.1 hsub
    rw [List.map_cons, List.forall_mem_cons] at hcan
    have happend := (binds_value hcan.1 hp).append (ih hnodup hsub hcan.2)
      (List.cons_subset.2 ⟨hmem, List.nil_subset _⟩) (by
        rw [declared_declarations]
        exact List.singleton_disjoint.2 hnew)
    exact happend.mono fun later _ hlater => .cons hlater.1 hlater.2

/-- Declared names stand for what they are bound to. -/
theorem operands_names {ns : List (String × String)} {vs : List V} {s : M.State}
    (hcan : ∀ n ∈ ns.map (·.1), M.CanDeclare s n)
    (h : List.Forall₂ (fun p v => M.Has s p.1 v) ns vs) :
    List.Forall₂ (M.reading (· = s)).operand (ns.map (·.1)) vs := by
  induction h with
  | nil => exact .nil
  | cons hp _ ih =>
    rw [List.map_cons, List.forall_mem_cons] at hcan
    refine .cons ?_ (ih hcan.2)
    rintro _ rfl
    exact M.operand_name hcan.1 hp

/-- The sum of declared names. -/
theorem sum_names {d : Dialect} {ns : List (String × String)} {x : V} {xs : List V} {s : M.State}
    (hcan : ∀ n ∈ ns.map (·.1), M.CanDeclare s n)
    (h : List.Forall₂ (fun p v => M.Has s p.1 v) ns (x :: xs)) :
    (M.reading (· = s)).sum (Body.sumOfNames d ns) (xs.foldl (op .add) x) := by
  have hne : ns.isEmpty = false := by
    cases h
    rfl
  rw [Body.sumOfNames, hne, if_neg Bool.false_ne_true]
  have hoperands : List.Forall₂ (M.reading (· = s)).operand (ns.map (·.1)) (x :: xs) :=
    operands_names hcan h
  exact TextReading.sum_intercalate _ (hoperands.imp fun t v hv => TextReading.ofOperand _ hv)

/-! ## The strategies -/

variable {I : Interpretation V} {M : BodyMachine I.op} {start : M.State} {d : Dialect} {call : CallText}

/-- What an expression was rendered as stands for its value. -/
theorem exists_value {e : Expr} (he : e.Regular)
    (hleaves : ∀ l ∈ e.leaves, M.ReadsLeaf I d call names start l) {text : String}
    (htext : renderExpr d call e = .ok text) :
    ∃ v, I.Always e v ∧ (M.reading (M.Off names start)).sum text v := by
  obtain ⟨text', v, h⟩ := Expr.exists_rendered (L := M.reading (M.Off names start))
    I.valuation_always he hleaves
  obtain rfl := Except.ok.inj (htext.symm.trans h.text_eq)
  exact ⟨v, h.means, h.sum⟩

/-- What expressions were rendered as stands for their values. -/
theorem exists_values {β : Type} {expr : β → Expr} {bs : List β} {ns : List (String × String)}
    (h : List.Forall₂ (fun b p => renderExpr d call (expr b) = .ok p.2) bs ns)
    (hbs : ∀ b ∈ bs, (expr b).Regular ∧ ∀ l ∈ (expr b).leaves, M.ReadsLeaf I d call names start l) :
    ∃ vs, List.Forall₂ (fun b v => I.Always (expr b) v) bs vs ∧
      List.Forall₂ (fun p v => (M.reading (M.Off names start)).sum p.2 v) ns vs := by
  induction h with
  | nil => exact ⟨[], .nil, .nil⟩
  | cons htext _ ih =>
    rw [List.forall_mem_cons] at hbs
    obtain ⟨v, hv, hsum⟩ := exists_value hbs.1.1 hbs.1.2 htext
    obtain ⟨vs, hvs, hsums⟩ := ih hbs.2
    exact ⟨v :: vs, .cons hv hvs, .cons hsum hsums⟩

/-- A leaf stands for its value where only declared names are bound anew. -/
theorem ReadsLeaf.after {l : Expr} (h : M.ReadsLeaf I d call names start l) {final : M.State}
    (hoff : M.Off names start final) (shared : String → Option V) :
    l.LeafText d call (M.reading (· = final)) fun e v => I.value shared e = some v := by
  obtain ⟨text, v, htext, hoperand, hv⟩ := h
  refine ⟨text, v, htext, ?_, hv shared⟩
  rintro _ rfl
  exact hoperand _ hoff

/-- What is read after declarations that bind other names. -/
theorem sum_after {text : String} {v : V} (h : (M.reading (M.Off names start)).sum text v)
    {final : M.State} (hoff : M.Off names start final) : (M.reading (· = final)).sum text v := by
  rintro _ rfl
  exact h _ hoff

/-- Declared terms, and the sum of their names. -/
theorem binds_terms {ts : List (Term Expr)} (hts : (Expr.sum ts).Regular)
    (hleaves : ∀ l ∈ (Expr.sum ts).leaves, M.ReadsLeaf I d call names start l) {stem : String} {i : Nat}
    {ns : List (String × String)} (hns : Body.declareTerms d call stem i ts = .ok ns)
    (hnodup : (ns.map (·.1)).Nodup) (hsub : ns.map (·.1) ⊆ names)
    (hcan : ∀ n ∈ ns.map (·.1), M.CanDeclare start n) :
    ∃ v, I.Always (.sum ts) v ∧ M.Binds names start (Body.declarations ns) fun later =>
      (M.reading (· = later)).sum (Body.sumOfNames d ns) v := by
  cases hts with
  | leaf h => cases h
  | sum hne hts =>
    obtain ⟨vs, hvs, hsums⟩ := exists_values (Body.declareTerms_eq_ok hns).2 fun t ht =>
      ⟨.term (hts t ht), fun l hl => hleaves l (Expr.leaves_term_subset ht hl)⟩
    obtain ⟨t, ts, rfl⟩ := List.exists_cons_of_ne_nil hne
    cases hvs with
    | cons hv hvs =>
      refine ⟨_, I.valuation_always.sum (.cons hv hvs), ?_⟩
      exact (binds_declarations hsums hnodup hsub hcan).mono fun later hoff hlater =>
        sum_names (fun n hn => M.canDeclare_off hoff (hcan n hn)) hlater

/-- Declared branches, and the sums of their names. -/
theorem binds_branches {letters : List Char} {sums : List (List (Term Expr))} {stmts : List (Stmt String)}
    {parts : List String} (h : Body.Branches d call letters sums stmts parts)
    (hsums : ∀ ts ∈ sums, (Expr.sum ts).Regular ∧
      ∀ l ∈ (Expr.sum ts).leaves, M.ReadsLeaf I d call names start l)
    (hnodup : (declared stmts).Nodup) (hsub : declared stmts ⊆ names)
    (hcan : ∀ n ∈ declared stmts, M.CanDeclare start n) :
    ∃ vs, List.Forall₂ I.Always (sums.map .sum) vs ∧ M.Binds names start stmts fun later =>
      List.Forall₂ (M.reading (· = later)).product parts vs := by
  induction h with
  | nil => exact ⟨[], .nil, binds_nil fun _ _ => .nil⟩
  | @cons letter letters ts sums ns stmts parts hns _ ih =>
    rw [Body.declared_branch] at hnodup hsub hcan
    rw [List.forall_mem_cons] at hsums
    obtain ⟨hfirst, hothers, hdisjoint⟩ := List.nodup_append'.1 hnodup
    obtain ⟨hcan, hcan'⟩ := List.forall_mem_append.1 hcan
    obtain ⟨hsub, hsub'⟩ := List.append_subset.1 hsub
    obtain ⟨v, hv, hbinds⟩ := binds_terms hsums.1.1 hsums.1.2 hns hfirst hsub hcan
    obtain ⟨vs, hvs, hbinds'⟩ := ih hsums.2 hothers hsub' hcan'
    rw [← declared_declarations] at hsub hdisjoint
    refine ⟨v :: vs, .cons hv hvs, ((hbinds.append hbinds' hsub hdisjoint).mono ?_).comment _⟩
    rintro later - ⟨hsum, hparts⟩
    exact .cons (TextReading.ofOperand _ (TextReading.paren _ hsum)) hparts

/-- A body computes what its result stands for where its statements end. -/
theorem computes_of_run {b : Body} {final : M.State} {v : V} (hrun : M.Runs start b.statements final)
    (hoff : M.Off (declared b.statements) start final) (hresult : (M.reading (· = final)).sum b.result v) :
    M.Computes start b v :=
  ⟨final, hrun, hoff, hresult final rfl⟩

theorem computes_inline {e : Expr} (he : e.Regular)
    (hleaves : ∀ l ∈ e.leaves, M.ReadsLeaf I d call names start l) {text : String}
    (htext : renderExpr d call e = .ok text) :
    ∃ v, I.Always e v ∧ M.Computes start ⟨[], text, .inline⟩ v := by
  obtain ⟨v, hv, hsum⟩ := exists_value he hleaves htext
  exact ⟨v, hv, computes_of_run .nil (M.off_refl _ _) (sum_after hsum (M.off_refl _ _))⟩

theorem computes_sum {ts : List (Term Expr)} (hts : (Expr.sum ts).Regular)
    (hleaves : ∀ l ∈ (Expr.sum ts).leaves, M.ReadsLeaf I d call names start l)
    {ns : List (String × String)} (hns : Body.declareTerms d call "t" 1 ts = .ok ns)
    (hnodup : (ns.map (·.1)).Nodup) (hsub : ns.map (·.1) ⊆ names)
    (hcan : ∀ n ∈ ns.map (·.1), M.CanDeclare start n) :
    ∃ v, I.Always (.sum ts) v ∧
      M.Computes start ⟨Body.declarations ns, Body.sumOfNames d ns, .sum⟩ v := by
  obtain ⟨v, hv, hbinds⟩ := binds_terms hts hleaves hns hnodup hsub hcan
  obtain ⟨final, hrun, hoff, hsum⟩ := hbinds.exists_run (by rwa [declared_declarations])
  exact ⟨v, hv, computes_of_run hrun hoff hsum⟩

/-- The scale comes last. -/
theorem computes_scaledSum {ts : List (Term Expr)} {scale : Expr} {division : Bool}
    (he : (Expr.scaled (.sum ts) scale division).Regular)
    (hleaves : ∀ l ∈ (Expr.scaled (.sum ts) scale division).leaves, M.ReadsLeaf I d call names start l)
    {ns : List (String × String)} {text : String} (hns : Body.declareTerms d call "t" 1 ts = .ok ns)
    (htext : renderExpr d call scale = .ok text) (hnodup : (ns.map (·.1)).Nodup)
    (hsub : ns.map (·.1) ⊆ names) (hcan : ∀ n ∈ ns.map (·.1), M.CanDeclare start n) :
    ∃ v, I.Always (.scaled (.sum ts) scale division) v ∧ M.Computes start ⟨Body.declarations ns,
        "(" ++ Body.sumOfNames d ns ++ ") " ++ (if division then "/" else "*") ++ " (" ++ text ++ ")",
        .scaledSum⟩ v := by
  cases he with
  | leaf h => cases h
  | scaled hinner hscale =>
    rw [Expr.leaves, List.forall_mem_append] at hleaves
    obtain ⟨x, hx, hbinds⟩ := binds_terms hinner hleaves.1 hns hnodup hsub hcan
    obtain ⟨k, hk, hfactor⟩ := exists_value hscale hleaves.2 htext
    obtain ⟨final, hrun, hoff, hsum⟩ := hbinds.exists_run (by rwa [declared_declarations])
    have hoff' := M.off_mono (by rwa [declared_declarations]) hoff
    have hproduct := TextReading.scaled _ hsum (sum_after hfactor hoff') division
    exact ⟨_, I.valuation_always.scaled hx hk, computes_of_run hrun hoff (TextReading.ofProduct _ hproduct)⟩

/-- The branches are added, then the scale comes. -/
theorem computes_branchAverage {sums : List (List (Term Expr))} {scale : Expr}
    (he : (Expr.average (sums.map .sum) scale).Regular)
    (hleaves : ∀ l ∈ (Expr.average (sums.map .sum) scale).leaves, M.ReadsLeaf I d call names start l)
    {letters : List Char} {stmts : List (Stmt String)} {parts : List String} {text : String}
    (hbranches : Body.Branches d call letters sums stmts parts)
    (htext : renderExpr d call scale = .ok text) (hnodup : (declared stmts).Nodup)
    (hsub : declared stmts ⊆ names) (hcan : ∀ n ∈ declared stmts, M.CanDeclare start n) :
    ∃ v, I.Always (.average (sums.map .sum) scale) v ∧
      M.Computes start ⟨stmts, "(" ++ " + ".intercalate parts ++ ") * (" ++ text ++ ")",
        .branchAverage⟩ v := by
  cases he with
  | leaf h => cases h
  | average hne hbs hscale =>
    rw [Expr.leaves_average, List.forall_mem_append, List.forall_mem_flatMap] at hleaves
    rw [List.forall_mem_map] at hbs
    obtain ⟨xs, hxs, hbinds⟩ := binds_branches hbranches (fun ts hts =>
      ⟨hbs ts hts, hleaves.1 _ (List.mem_map_of_mem hts)⟩) hnodup hsub hcan
    obtain ⟨k, hk, hfactor⟩ := exists_value hscale hleaves.2 htext
    obtain ⟨final, hrun, hoff, hparts⟩ := hbinds.exists_run hsub
    cases xs with
    | nil => exact absurd (List.forall₂_nil_right_iff.1 hxs) hne
    | cons x xs =>
      have hproduct := TextReading.scaled _ (TextReading.sum_intercalate _ hparts)
        (sum_after hfactor (M.off_mono hsub hoff)) false
      have hresult : "(" ++ " + ".intercalate parts ++ ") * (" ++ text ++ ")" =
          "(" ++ " + ".intercalate parts ++ ") " ++ "*" ++ " (" ++ text ++ ")" :=
        String.toList_inj.1 (by simp)
      rw [hresult]
      exact ⟨_, I.valuation_always.average hxs hk,
        computes_of_run hrun hoff (TextReading.ofProduct _ hproduct)⟩

/-- Elements that two relations relate to the same list. -/
theorem exists_both {α β : Type} {R S : α → β → Prop} {as : List α} {bs : List β}
    (hR : List.Forall₂ R as bs) (hS : List.Forall₂ S as bs) : ∀ a ∈ as, ∃ b, R a b ∧ S a b := by
  induction hR with
  | nil => rintro a ⟨⟩
  | cons hab _ ih =>
    cases hS with
    | cons hab' hS => exact List.forall_mem_cons.2 ⟨⟨_, hab, hab'⟩, ih hS⟩

variable {indices : List String} {threshold : Int}

/-- Candidates are declared in order, so each reference in the result is bound to the value of its
candidate. -/
theorem computes_cse {e : Expr} (he : e.Regular) (hne : e.candidates indices threshold ≠ [])
    (hleaves : ∀ l ∈ e.leaves, M.ReadsLeaf I d call names start l) {ns : List (String × String)}
    {text : String} (hnames : ns.map (·.1) = (e.candidates indices threshold).map (·.name))
    (htexts : List.Forall₂ (fun c p => renderExpr d call c.expr = .ok p.2)
      (e.candidates indices threshold) ns)
    (htext : renderExpr d call (e.shareWith indices (e.candidates indices threshold)) = .ok text)
    (hsub : ns.map (·.1) ⊆ names) (hcan : ∀ n ∈ ns.map (·.1), M.CanDeclare start n) {v : V}
    (hshared : I.ofShared (e.share indices threshold) = some v) (t : String) :
    M.Computes start ⟨.comment t :: Body.declarations ns, text, .cse⟩ v := by
  have hplace : ∀ c ∈ e.candidates indices threshold,
      c.expr.Regular ∧ ∀ l ∈ c.expr.leaves, M.ReadsLeaf I d call names start l := fun c hc =>
    have hvisit := (Expr.mem_candidates hc).1
    ⟨he.visit _ hvisit, fun l hl => hleaves l (Expr.leaves_visit_subset hvisit hl)⟩
  have hnodup : ((e.candidates indices threshold).map (·.name)).Nodup := Expr.nodup_nameFrom 1 _
  obtain ⟨vs, hvs, hsums⟩ := exists_values htexts hplace
  obtain ⟨final, hrun, hoff, hbound⟩ :=
    (binds_declarations hsums (hnames ▸ hnodup) hsub hcan).exists_run (by rwa [declared_declarations])
  have hoff' : M.Off names start final := M.off_mono (by rwa [declared_declarations]) hoff
  -- every candidate is bound to the value of its expression
  have hvalues : ∀ c ∈ e.candidates indices threshold,
      ∃ w, I.Always c.expr w ∧ M.Has final c.name w := by
    have hbound : List.Forall₂ (M.Has final) (ns.map (·.1)) vs := List.forall₂_map_left_iff.2 hbound
    rw [hnames, List.forall₂_map_left_iff] at hbound
    exact exists_both hvs hbound
  obtain ⟨shared, hbind, hvalue, -⟩ := Interpretation.exists_bindAll (I := I)
    (e.candidates indices threshold) (fun c hc => (hvalues c hc).imp fun _ h => h.1) hnodup
      fun _ => none
  have hresult : I.value shared (e.shareWith indices (e.candidates indices threshold)) = some v := by
    rw [Interpretation.ofShared, Expr.share] at hshared
    simpa [hbind, hne] using hshared
  have hrefs : ∀ c ∈ e.candidates indices threshold,
      (Expr.ref c.name).LeafText d call (M.reading (· = final))
        fun e v => I.value shared e = some v := by
    intro c hc
    obtain ⟨w, hw, hhas⟩ := hvalues c hc
    refine ⟨c.name, w, rfl, ?_, ?_⟩
    · rintro _ rfl
      refine M.operand_name (M.canDeclare_off hoff (hcan c.name ?_)) hhas
      exact hnames ▸ List.mem_map_of_mem hc
    · exact (hvalue c hc fun _ => none).trans (hw _)
  obtain ⟨text', w, h⟩ := Expr.exists_rendered (I.valuation shared) he.shareWith
    (Expr.forall_leaves_shareWith hrefs fun l hl => (hleaves l hl).after hoff' shared)
  obtain rfl := Except.ok.inj (htext.symm.trans h.text_eq)
  obtain rfl := Option.some.inj (hresult.symm.trans h.means)
  exact computes_of_run hrun.comment hoff h.sum

/-- **The strategies compute what expressions stand for**, if their leaves are read as what they stand
for and the shared form stands for the same. -/
theorem computes_of_renders {e : Expr} {b : Body} (h : Body.Renders d call indices threshold e b)
    (he : e.Regular) (hcan : ∀ n ∈ declared b.statements, M.CanDeclare start n)
    (hleaves : ∀ l ∈ e.leaves, M.ReadsLeaf I d call (declared b.statements) start l) {v : V}
    (hv : I.value (fun _ => none) e = some v)
    (hshared : I.ofShared (e.share indices threshold) = some v) : M.Computes start b v := by
  have hnodup := h.wellNamed.nodup
  have hsub (ns : List (String × String)) : ns.map (·.1) ⊆ declared (Body.declarations ns) := by
    simp [declared_declarations]
  -- without sharing the body computes the value of the expression itself
  have hunshared (hrun : ∃ w, I.Always e w ∧ M.Computes start b w) : M.Computes start b v := by
    obtain ⟨w, hw, hrun⟩ := hrun
    obtain rfl := Option.some.inj (hv.symm.trans (hw _))
    exact hrun
  cases h with
  | inline htext => exact hunshared (computes_inline he hleaves htext)
  | sum hns =>
    rw [declared_declarations] at hnodup hcan
    exact hunshared (computes_sum he hleaves hns hnodup (hsub _) hcan)
  | scaledSum hns htext =>
    rw [declared_declarations] at hnodup hcan
    exact hunshared (computes_scaledSum he hleaves hns htext hnodup (hsub _) hcan)
  | branchAverage hbranches htext =>
    exact hunshared (computes_branchAverage he hleaves hbranches htext hnodup (List.Subset.refl _) hcan)
  | cse hne hstmts htext =>
    obtain ⟨ns, rfl, hnames, htexts⟩ := Body.declareShared_eq_ok hstmts
    change ∀ n ∈ declared (Body.declarations ns), M.CanDeclare start n at hcan
    rw [declared_declarations] at hcan
    exact computes_cse he hne hleaves hnames htexts htext (hsub ns) hcan hshared _

end BodyMachine

end RecurrenceCompiler
