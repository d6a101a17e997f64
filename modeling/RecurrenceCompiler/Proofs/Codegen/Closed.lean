import RecurrenceCompiler.Catalog.Evaluate
import RecurrenceCompiler.Proofs.Catalog.Dependencies
import RecurrenceCompiler.Proofs.Codegen.RenderedTexts
import RecurrenceCompiler.Proofs.Recurrence.Accepted
import RecurrenceCompiler.Proofs.Recurrence.Reported
import RecurrenceCompiler.Proofs.Recurrence.Selection
import RecurrenceCompiler.Proofs.Recurrence.Shape

/-!
# Code for single values is closed

The functions of a module read their parameters, each other, the functions that the module depends on
and the elementary functions, and nothing else (`generatePerValue_closed`). A call passes the runtime
variables of the callee by name, so the caller must have them too: no check of a catalog sees to that
(`unbound_variable`).
-/

namespace RecurrenceCompiler

open Text Decimal Arith Script RuleText

/-- The elementary functions that every module takes from the runtime. -/
def Script.mathNames : List String :=
  ["exp", "sqrt", "log", "sin", "cos", "pow", "abs"]

example : mathPrelude = "const \x7b " ++ ", ".intercalate mathNames ++ " \x7d = Math;" := by decide

theorem Script.name_mem_mathNames (f : MathFn) : f.name ∈ mathNames := by
  cases f <;> simp [MathFn.name, mathNames]

/-- A script of functions that is closed: each identifier that a function reads is one of its parameters
or declared in it before, or it is a function of the module, a function that the module depends on, or an
elementary function. What the module exports are functions of it. -/
def GeneratedUnit.Closed (u : GeneratedUnit) : Prop :=
  ∃ m fs, u.source = .script m ∧ m.content = .functions fs ∧ m.exports ⊆ fs.map (·.name) ∧
    ∀ f ∈ fs, WellScoped (f.params ++ (fs.map (·.name) ++ u.dependencies ++ mathNames)) f.body

instance (x : Float) : Decidable (IsFinite x) :=
  match h : x.toModel.unpack with
  | .finite .. => .isTrue (by simp [IsFinite, h])
  | .zero _ => .isTrue (by simp [IsFinite, h])
  | .infinity _ => .isFalse (by simp [IsFinite, h])
  | .notANumber => .isFalse (by simp [IsFinite, h])

/-- The numbers in a leaf are finite: a constant, or the shifts of a call. -/
def Expr.HasDigits : Expr → Prop
  | .const (.number x) => IsFinite x
  | .call c => ∀ w ∈ c.shifts, IsFinite (ofInt w.magnitude)
  | _ => True

instance : DecidablePred Expr.HasDigits
  | .const (.number x) => inferInstanceAs (Decidable (IsFinite x))
  | .call c => inferInstanceAs (Decidable (∀ w ∈ c.shifts, IsFinite (ofInt w.magnitude)))
  | .const (.raw _) | .var _ | .index _ | .lookup _ _ | .ref _ | .binop .. | .term _ | .sum _
  | .scaled .. | .average .. => .isTrue trivial

namespace Recurrence

/-- Nothing of a recurrence turns into something else when it is put into a script: numbers are finite,
so that they have digits; texts are made of tokens of arithmetic; and the name of a rule stays on the
line of the comment that it is put into. -/
structure Plain (r : Recurrence) : Prop where
  leaves : ∀ e ∈ r.exprs, ∀ l ∈ e.leaves, l.HasDigits
  texts : ∀ t ∈ r.texts, (Arith.tokens? t.toList).isSome
  names : ∀ rule ∈ r.rules, ∀ n ∈ rule.name, isOneLine n

instance (r : Recurrence) : Decidable r.Plain :=
  decidable_of_iff ((∀ e ∈ r.exprs, ∀ l ∈ e.leaves, l.HasDigits) ∧
      (∀ t ∈ r.texts, (Arith.tokens? t.toList).isSome) ∧ ∀ rule ∈ r.rules, ∀ n ∈ rule.name, isOneLine n)
    ⟨fun ⟨hleaves, htexts, hnames⟩ => ⟨hleaves, htexts, hnames⟩,
      fun h => ⟨h.leaves, h.texts, h.names⟩⟩

/-- Every runtime variable that a call passes to another recurrence is a parameter of the caller. -/
def PassesOwn (r : Recurrence) (resolve : Resolver) : Prop :=
  ∀ d ∈ r.dependencies, ∀ s ∈ resolve d, s.runtimeVars ⊆ r.params

instance (r : Recurrence) (resolve : Resolver) : Decidable (r.PassesOwn resolve) :=
  inferInstanceAs (Decidable (∀ d ∈ r.dependencies, ∀ s ∈ resolve d, s.runtimeVars ⊆ r.params))

/-- What is in scope in a function of a module with some functions: the parameters, these functions, those
that the module depends on and the elementary functions. -/
def scopeWith (r : Recurrence) (functions : List String) : List String :=
  r.params ++ (functions ++ r.dependencies.map coeffName ++ mathNames)

/-- What the cases of a recurrence read at most: of the functions of their module they call the one that
selects a case. -/
def scope (r : Recurrence) : List String :=
  r.scopeWith [coeffName r.name]

section
variable {r : Recurrence} {resolve : Resolver} {o : CodegenOptions}

/-! ## Names -/

theorem continuesName_coeffName {n : String} (h : isIdentifier n) :
    ∀ c ∈ (coeffName n).toList, continuesName c := by
  rw [coeffName, String.toList_append, List.forall_mem_append]
  exact ⟨continuesName_of_isIdentifier h, List.all_eq_true.1 rfl⟩

theorem Built.isIdentifier_name (hr : r.Built) : isIdentifier r.name := by
  obtain ⟨_, r₀, hr₀, hheader⟩ := hr.exists_created
  rw [hheader]
  exact hr₀.named

theorem Built.arrays (hr : r.Built) {a : String} (ha : a ∈ r.arrayVars) : a ∈ r.runtimeVars := by
  obtain ⟨_, r₀, hr₀, hheader⟩ := hr.exists_created
  rw [hheader] at ha
  exact hr₀.arrays a ha

theorem Built.isIdentifier_param (hr : r.Built) {n : String} (hn : n ∈ r.params) : isIdentifier n := by
  rcases List.mem_append.1 hn with h | h
  · exact hr.wellFormed.identifiers n h
  · exact hr.wellFormed.runtime n h

theorem params_subset_scope : r.params ⊆ r.scope :=
  List.subset_append_left _ _

/-- A name that the parser knows is in scope. -/
theorem Built.mem_scope_of_knows (hr : r.Built) {n : String} (h : (r.context none).knows n) :
    n ∈ r.scope := by
  simp only [Context.knows, Bool.or_eq_true, List.contains_iff_mem] at h
  rcases h with ((h | h) | h) | h
  · exact params_subset_scope (List.mem_append_left _ h)
  · exact params_subset_scope (List.mem_append_right _ h)
  · obtain ⟨f, hf⟩ := Option.isSome_iff_exists.1 h
    obtain rfl : f.name = n := by simpa using List.find?_some hf
    exact List.mem_append_right _ (List.mem_append_right _ (name_mem_mathNames f))
  · exact params_subset_scope (List.mem_append_right _ (hr.arrays h))

/-! ## Calls -/

/-- A call stays in the recurrence or is one of a dependency. -/
theorem Built.target_cases (hr : r.Built) {e : Expr} (he : e ∈ r.exprs) {c : Call}
    (hc : .call c ∈ e.leaves) {t : String} (ht : c.target = some t) :
    t = r.name ∨ t ∈ r.dependencies := by
  rcases List.mem_append.1 he with he | he
  · obtain ⟨b, hb, rfl⟩ := List.mem_map.1 he
    exact absurd hc (Expr.not_call_of_isArithmetic (hr.readShaped.values b hb))
  · obtain ⟨rule, hrule, rfl⟩ := List.mem_map.1 he
    rw [or_iff_not_imp_left]
    intro hne
    rw [dependencies, mem_distinct, List.mem_filterMap]
    refine ⟨c, List.mem_flatMap.2 ⟨rule, hrule, List.mem_filterMap.2 ⟨_, hc, rfl⟩⟩, ?_⟩
    simp [ht, hne]

/-- What a call passes are parameters. -/
theorem callVars_subset (hvars : r.PassesOwn resolve) {target : Option String}
    (htarget : ∀ t, target = some t → t = r.name ∨ t ∈ r.dependencies) :
    r.callVars resolve target ⊆ r.params := by
  have hown : r.runtimeVars ⊆ r.params := List.subset_append_right _ _
  cases target with
  | none => exact hown
  | some t =>
    rw [callVars]
    split
    · exact hown
    · next hne =>
      cases hs : resolve t with
      | none => exact hown
      | some s =>
        rcases htarget t rfl with rfl | hdep
        · simp at hne
        · exact hvars t hdep s hs

/-- A call reads the function that it calls, indices and runtime variables. -/
theorem reads_call (hr : r.Built) (hvars : r.PassesOwn resolve) (ho : o.target = .js) {c : Call}
    (htarget : ∀ t, c.target = some t → isIdentifier t ∧ (t = r.name ∨ t ∈ r.dependencies))
    (hshifts : ∀ w ∈ c.shifts, IsFinite (ofInt w.magnitude)) :
    (Expr.call c).Reads o.dialect (r.perValueCall o resolve) r.scope := by
  intro text h
  have hparam {n : String} (hn : n ∈ r.params) : ReadsOnly r.scope n :=
    readsOnly_identifier (hr.isIdentifier_param hn) (params_subset_scope hn)
  have hname : ReadsOnly r.scope (coeffName (c.target.getD r.name)) := by
    cases ht : c.target with
    | none =>
      exact readsOnly_name (continuesName_coeffName hr.isIdentifier_name) (by simp [scope, scopeWith])
    | some t =>
      obtain ⟨hid, hmem⟩ := htarget t ht
      refine readsOnly_name (continuesName_coeffName hid) ?_
      rcases hmem with rfl | hmem
      · simp [scope, scopeWith]
      · simpa [scope, scopeWith] using .inr (.inr (.inl ⟨_, hmem, rfl⟩))
  have hargs : ∀ a ∈ r.callArgs c, ReadsOnly r.scope a := by
    refine List.forall_mem_map.2 fun p hp => ?_
    have hindex : p.1 ∈ r.params :=
      List.mem_append_left _ (by simpa using List.mem_map_of_mem (f := Prod.fst) hp)
    refine Expr.readsOnly_shiftedIndex (hparam hindex) ?_
    rw [Call.wholeShiftAt]
    cases hw : c.shifts[p.2]? with
    | none => exact (isInt_ofInt (i := 0) (by decide)).finite
    | some w => exact hshifts w (List.mem_of_getElem? hw)
  have htext : text = coeffName (c.target.getD r.name) ++ "(" ++
      ", ".intercalate (", ".intercalate (r.callArgs c) :: r.callVars resolve c.target) ++ ")" := by
    simp only [renderExpr, perValueCall, ho] at h
    exact (Except.ok.inj h).symm
  rw [htext]
  refine hname.call (List.forall_mem_cons.2 ⟨readsOnly_intercalate rfl hargs, fun v hv => hparam ?_⟩)
  exact callVars_subset hvars (fun t ht => (htarget t ht).2) hv

/-! ## Expressions -/

/-- The texts of the expressions are among those that are stored. -/
theorem texts_subset_of_mem_exprs {e : Expr} (he : e ∈ r.exprs) : e.texts ⊆ r.texts := by
  intro t ht
  rw [texts, List.mem_append, List.mem_append]
  rcases List.mem_append.1 he with he | he
  · obtain ⟨b, hb, rfl⟩ := List.mem_map.1 he
    exact .inl (.inr (List.mem_flatMap.2 ⟨b, hb, ht⟩))
  · obtain ⟨rule, hrule, rfl⟩ := List.mem_map.1 he
    exact .inr (List.mem_flatMap.2 ⟨rule, hrule, List.mem_append_right _ ht⟩)

/-- **A leaf of a stored expression reads what is in scope.** -/
theorem reads_leaf (hr : r.Built) (hknown : ∀ d ∈ r.diagnostics, d.code ≠ .unknownIdentifier)
    (hplain : r.Plain) (hvars : r.PassesOwn resolve) (ho : o.target = .js) {e : Expr} (he : e ∈ r.exprs)
    {l : Expr} (hl : l ∈ e.leaves) : l.Reads o.dialect (r.perValueCall o resolve) r.scope := by
  have hrun {v : String} (hv : v ∈ r.runtimeVars) : ReadsOnly r.scope v :=
    readsOnly_identifier (hr.wellFormed.runtime v hv)
      (params_subset_scope (List.mem_append_right _ hv))
  have harith {t : String} (ht : t ∈ (r.context none).leafTexts l)
      (htokens : (Arith.tokens? t.toList).isSome) : ReadsOnly r.scope t :=
    readsOnly_arith htokens fun n hn => hr.mem_scope_of_knows (hr.knows hknown he hl ht hn)
  intro text h
  cases (hr.reported.exprs e he).kept l hl with
  | number x =>
    cases h
    exact Expr.readsOnly_number ho (hplain.leaves e he _ hl)
  | runtime hv =>
    cases h
    exact hrun hv
  | text htokens =>
    cases h
    by_cases hv : text ∈ r.runtimeVars
    · exact hrun hv
    · exact harith (by simpa [Context.leafTexts, Header.context] using hv) htokens
  | index htokens =>
    cases h
    exact Expr.readsOnly_indexValue ho (harith (List.mem_singleton_self _) htokens)
  | @lookup _ i htable =>
    cases h
    have htokens := hplain.texts i (texts_subset_of_mem_exprs he (List.mem_filterMap.2 ⟨_, hl, rfl⟩))
    exact (((hrun (hr.arrays htable)).glue rfl |>.append
      (harith (List.mem_singleton_self _) htokens)).glue rfl).reads
  | call htarget =>
    exact reads_call hr hvars ho (fun t ht => ⟨htarget t ht, hr.target_cases he hl ht⟩)
      (hplain.leaves e he _ hl) text h

/-! ## Guards -/

/-- A guard reads what the sides of its constraints read. -/
theorem readsOnly_guard {names : List String} {g : Guard}
    (h : ∀ c ∈ g.constraints, ReadsOnly names c.left ∧ ReadsOnly names c.right) :
    ReadsOnly names g.render := by
  rw [Guard.render]
  split
  · exact readsOnly_reserved (List.all_eq_true.1 rfl) (by simp [reservedWords])
  · refine readsOnly_intercalate rfl (List.forall_mem_map.2 fun c hc => ?_)
    obtain ⟨hleft, hright⟩ := h c hc
    have hop : isGlue c.op.text := by cases c.op <;> rfl
    exact (((((closes_glue rfl).append hleft).glue rfl).glue hop).glue rfl |>.append hright).glue rfl
      |>.reads

/-- A stored guard reads indices. -/
theorem readsOnly_sides (hplain : r.Plain) {g : Guard} (hg : g.Over r.indices)
    (htexts : g.sides ⊆ r.texts) :
    ∀ c ∈ g.constraints, ReadsOnly r.scope c.left ∧ ReadsOnly r.scope c.right := by
  intro c hc
  have hside {t : String} (ht : t ∈ [c.left, c.right]) (hnames : namesIn t ⊆ c.names) :
      ReadsOnly r.scope t := by
    refine readsOnly_arith (hplain.texts t (htexts (List.mem_flatMap.2 ⟨c, hc, ht⟩))) fun n hn => ?_
    exact params_subset_scope (List.mem_append_left _ (hg c hc n (hnames hn)))
  exact ⟨hside (by simp) (List.subset_append_left _ _), hside (by simp) (List.subset_append_right _ _)⟩

theorem readsOnly_fullGuard (hr : r.Built) (hplain : r.Plain) {rule : Rule} (hrule : rule ∈ r.rules) :
    ReadsOnly r.scope (r.fullGuard rule).render := by
  have hvalidity : r.validity.sides ⊆ r.texts := fun t ht =>
    List.mem_append_left _ (List.mem_append_left _ ht)
  have hguard : rule.guard.sides ⊆ r.texts := fun t ht =>
    List.mem_append_right _ (List.mem_flatMap.2 ⟨rule, hrule, List.mem_append_left _ ht⟩)
  exact readsOnly_guard (List.forall_mem_append.2
    ⟨readsOnly_sides hplain (hr.wellFormed.guards rule hrule) hguard,
      readsOnly_sides hplain hr.wellFormed.validity hvalidity⟩)

theorem readsOnly_baseGuard (hr : r.Built) {b : BaseCase} (hb : b ∈ r.bases) :
    ReadsOnly r.scope (r.baseGuard b).render := by
  refine readsOnly_guard fun c hc => ?_
  obtain ⟨i, hi, w, hw, rfl⟩ := mem_slotEqualities (hr.wellFormed.slots b hb) hc
  exact ⟨readsOnly_identifier (hr.wellFormed.identifiers i hi)
      (params_subset_scope (List.mem_append_left _ hi)),
    readsOnly_intText (hr.reported.slots b hb w hw)⟩

/-! ## Functions -/

/-- Parameters are passed on to a function in scope. -/
theorem readsOnly_passOn (hr : r.Built) {names : List String} (hparams : r.params ⊆ names) {f : String}
    (hchars : ∀ c ∈ f.toList, continuesName c) (hf : f ∈ names) : ReadsOnly names (r.passOn f) := by
  refine (readsOnly_name hchars hf).call fun n hn => ?_
  exact readsOnly_identifier (hr.isIdentifier_param hn) (hparams hn)

/-- A function whose name is numbered. -/
theorem continuesName_numbered {n role : String} (hn : isIdentifier n)
    (hrole : ∀ c ∈ role.toList, continuesName c) (i : Nat) :
    ∀ c ∈ (coeffName n ++ role ++ toString i).toList, continuesName c := by
  simp only [String.toList_append, List.forall_mem_append]
  exact ⟨⟨continuesName_coeffName hn, hrole⟩, Body.continuesName_toString i⟩

/-- A function that serves a case: its body is in scope, and so is the test after which it is called with
the parameters. -/
structure Serves (r : Recurrence) (f : Script.Function String) (s : Stmt String) : Prop where
  params : f.params = r.params
  body : WellScoped r.scope f.body
  chars : ∀ c ∈ f.name.toList, continuesName c
  test : ∃ c, s = .retIf c (r.passOn f.name) ∧ ReadsOnly r.scope c

theorem wellScoped_nameComment {scope : List String} {name : Option String}
    (hname : ∀ n ∈ name, isOneLine n) : WellScoped scope (nameComment name) := by
  cases name with
  | none => exact .nil
  | some n =>
    rw [nameComment]
    split
    · exact .nil
    · exact .comment (hname n rfl) .nil

/-- The statements of a rule are in scope. -/
theorem wellScoped_ruleStatements {scope : List String} {g : RuleGuard} {b : Body}
    (hname : ∀ n ∈ g.rule.name, isOneLine n) (hb : b.WellScoped scope) :
    WellScoped scope (ruleStatements g b) := by
  have hstmts : WellScoped scope (nameComment g.rule.name ++ b.statements) :=
    (wellScoped_nameComment hname).append (hb.statements.mono (List.subset_append_right _ _))
  refine hstmts.append (.ret (hb.result.mono ?_) .nil)
  rw [declared_append, List.append_assoc]
  exact List.subset_append_right _ _

section
variable (hr : r.Built) (hknown : ∀ d ∈ r.diagnostics, d.code ≠ .unknownIdentifier) (hplain : r.Plain)
  (hvars : r.PassesOwn resolve) (ho : o.target = .js)
include hr hknown hplain hvars ho

/-- **The function of a base case.** -/
theorem serves_jsBase {b : BaseCase} (hb : b ∈ r.bases) {i : Nat}
    {p : Script.Function String × Stmt String} (h : r.jsBase o resolve b i = .ok p) :
    r.Serves p.1 p.2 := by
  obtain ⟨value, hvalue, h⟩ := bind_ok h
  cases h
  have hreads : b.value.Reads o.dialect (r.perValueCall o resolve) r.scope :=
    Expr.reads_of_leaves ho _ fun l hl =>
      reads_leaf hr hknown hplain hvars ho (value_mem_exprs hb) hl
  exact ⟨rfl, .ret (hreads value hvalue) .nil,
    continuesName_numbered hr.isIdentifier_name (List.all_eq_true.1 rfl) i,
    _, rfl, readsOnly_baseGuard hr hb⟩

/-- **The function of a rule.** -/
theorem serves_jsRule {g : RuleGuard} (hg : g ∈ r.ruleGuards) {i : Nat}
    {q : Strategy × Script.Function String × Stmt String} (h : r.jsRule o resolve g i = .ok q) :
    r.Serves q.2.1 q.2.2 := by
  obtain ⟨before, after, hsorted, hguard, -⟩ := mem_guardsAfter hg
  have hrule : g.rule ∈ r.rules := r.sortedRules_perm.mem_iff.1 (by simp [hsorted])
  obtain ⟨_, -, h⟩ := bind_ok h
  obtain ⟨body, hbody, h⟩ := bind_ok h
  cases h
  have hscoped : body.WellScoped r.scope := Body.wellScoped_render ho (fun l hl =>
    reads_leaf hr hknown hplain hvars ho (expr_mem_exprs hrule) hl) hbody
  refine ⟨rfl, wellScoped_ruleStatements (hplain.names g.rule hrule) hscoped,
    continuesName_numbered hr.isIdentifier_name (List.all_eq_true.1 rfl) i, _, rfl, ?_⟩
  rw [hguard]
  exact readsOnly_fullGuard hr hplain hrule

end

/-- Tests one after another. -/
theorem wellScoped_tests {names : List String} {ss : List (Stmt String)}
    (h : ∀ s ∈ ss, ∃ c v, s = .retIf c v ∧ ReadsOnly names c ∧ ReadsOnly names v) :
    WellScoped names ss := by
  induction ss with
  | nil => exact .nil
  | cons s ss ih =>
    rw [List.forall_mem_cons] at h
    obtain ⟨⟨c, v, rfl, hc, hv⟩, h⟩ := h
    exact .retIf hc hv (ih h)

/-- More functions, more names in scope. -/
theorem scopeWith_mono {ns ns' : List String} (h : ns ⊆ ns') : r.scopeWith ns ⊆ r.scopeWith ns' := by
  intro n hn
  simp only [scopeWith, List.mem_append] at hn ⊢
  exact hn.imp_right (Or.imp_left (Or.imp_left fun hmem => h hmem))

theorem scope_subset {ns : List String} (h : coeffName r.name ∈ ns) : r.scope ⊆ r.scopeWith ns :=
  scopeWith_mono (List.cons_subset.2 ⟨h, List.nil_subset _⟩)

theorem mem_scopeWith {ns : List String} {n : String} (h : n ∈ ns) : n ∈ r.scopeWith ns := by
  simp only [scopeWith, List.mem_append]
  exact .inr (.inl (.inl h))

/-- The test of a served case reads what is in scope, where its function is. -/
theorem Serves.readsOnly {f : Script.Function String} {s : Stmt String} (h : r.Serves f s)
    (hr : r.Built) {ns : List String} (hself : coeffName r.name ∈ ns) (hf : f.name ∈ ns) :
    ∃ c v, s = .retIf c v ∧ ReadsOnly (r.scopeWith ns) c ∧ ReadsOnly (r.scopeWith ns) v := by
  obtain ⟨c, hs, hc⟩ := h.test
  exact ⟨c, _, hs, hc.mono (scope_subset hself),
    readsOnly_passOn hr (List.subset_append_left _ _) h.chars (mem_scopeWith hf)⟩

/-- The function that tries served cases in order, and then one that serves none. -/
def selecting (r : Recurrence) (served : List (Script.Function String × Stmt String)) (primary : String) :
    Script.Function String :=
  ⟨coeffName r.name, r.params, served.map (·.2) ++ [.ret (r.passOn primary)]⟩

/-- **Functions that serve cases are in scope** together with one that serves none and the one that selects
among them. -/
theorem wellScoped_functions (hr : r.Built) (ho : o.target = .js)
    {served : List (Script.Function String × Stmt String)} (hserved : ∀ p ∈ served, r.Serves p.1 p.2)
    {primary : String} (hprimary : ∀ c ∈ primary.toList, continuesName c)
    {fs : List (Script.Function String)} (hfs : fs = ⟨primary, r.params, [.ret o.dialect.zero]⟩ ::
      (served.map (·.1) ++ [r.selecting served primary])) :
    ∀ f ∈ fs, f.params = r.params ∧ WellScoped (r.scopeWith (fs.map (·.name))) f.body := by
  have hnames : fs.map (·.name) =
      primary :: (served.map (·.1.name) ++ [coeffName r.name]) := by
    rw [hfs]
    simp [selecting]
  have hself : coeffName r.name ∈ fs.map (·.name) := by simp [hnames]
  intro f hf
  rw [hfs, List.mem_cons, List.mem_append, List.mem_singleton] at hf
  rcases hf with rfl | hf | rfl
  · exact ⟨rfl, .ret (Expr.readsOnly_zero ho) .nil⟩
  · obtain ⟨p, hp, rfl⟩ := List.mem_map.1 hf
    exact ⟨(hserved p hp).params,
      (hserved p hp).body.mono (scope_subset hself)⟩
  · refine ⟨rfl, (wellScoped_tests (List.forall_mem_map.2 fun p hp => ?_)).append (.ret ?_ .nil)⟩
    · refine (hserved p hp).readsOnly hr hself ?_
      simpa [hnames] using .inr (.inl ⟨p.1, ⟨p.2, hp⟩, rfl⟩)
    · refine (readsOnly_passOn hr (List.subset_append_left _ _) hprimary (mem_scopeWith ?_)).mono
        (List.subset_append_right _ _)
      simp [hnames]

/-- **The module of a recurrence is closed.** -/
theorem closed_jsPerValue (hr : r.Built) (hknown : ∀ d ∈ r.diagnostics, d.code ≠ .unknownIdentifier)
    (hplain : r.Plain) (hvars : r.PassesOwn resolve) (ho : o.target = .js) {ss : List Strategy}
    {m : Script.Module String} (h : r.jsPerValue o resolve = .ok (ss, m)) :
    ∃ fs, m.content = .functions fs ∧ m.exports ⊆ fs.map (·.name) ∧
      ∀ f ∈ fs, f.params = r.params ∧ WellScoped (r.scopeWith (fs.map (·.name))) f.body := by
  obtain ⟨bases, hbases, h⟩ := bind_ok h
  obtain ⟨rules, hrules, h⟩ := bind_ok h
  cases h
  have hserved : ∀ p ∈ bases ++ rules.map (·.2), r.Serves p.1 p.2 := by
    refine List.forall_mem_append.2 ⟨fun p hp => ?_, List.forall_mem_map.2 fun q hq => ?_⟩
    · obtain ⟨⟨b, i⟩, hb, hp⟩ := exists_of_forall₂ (forall₂_of_mapM hbases) hp
      exact serves_jsBase hr hknown hplain hvars ho (List.fst_mem_of_mem_zipIdx hb) hp
    · obtain ⟨⟨g, i⟩, hg, hq⟩ := exists_of_forall₂ (forall₂_of_mapM hrules) hq
      exact serves_jsRule hr hknown hplain hvars ho (List.fst_mem_of_mem_zipIdx hg) hq
  have hprimary : ∀ c ∈ (coeffName r.name ++ "$primary").toList, continuesName c := by
    rw [String.toList_append, List.forall_mem_append]
    exact ⟨continuesName_coeffName hr.isIdentifier_name, List.all_eq_true.1 rfl⟩
  refine ⟨_, rfl, by simp, wellScoped_functions hr ho hserved hprimary ?_⟩
  simp [selecting]

/-- **Generated code for single values is closed**, if the caller has the runtime variables that it passes
to other recurrences, and what is put into the code stays what it is. -/
theorem generatePerValue_closed (hr : r.Built)
    (hknown : ∀ d ∈ r.diagnostics, d.code ≠ .unknownIdentifier) (hplain : r.Plain)
    (hvars : r.PassesOwn resolve) (ho : o.target = .js) {u : GeneratedUnit}
    (h : r.generatePerValue o resolve = .ok u) : u.Closed := by
  rw [generatePerValue, ho] at h
  dsimp only at h
  obtain ⟨⟨ss, m⟩, hm, h⟩ := bind_ok h
  cases h
  obtain ⟨fs, hcontent, hexports, hfs⟩ := closed_jsPerValue hr hknown hplain hvars ho hm
  refine ⟨m, fs, rfl, hcontent, hexports, fun f hf => ?_⟩
  obtain ⟨hparams, hbody⟩ := hfs f hf
  rw [hparams]
  exact hbody

end

/-! ## A callee with a runtime variable -/

/-- A recurrence that reads a runtime variable. -/
def reader : Except Error Recurrence := do
  let r ← create "B" ["n"] ["y"] {}
  r.build [.base [("n", 0)] (.raw "y")]

/-- A recurrence that calls the one that reads a runtime variable. -/
def caller (vars : List String) : Except Error Recurrence := do
  let r ← create "A" ["n"] vars {}
  r.build [.base [("n", 0)] (.number 1), .rule "n > 0" "B[n-1]" none none]

/-- The two recurrences in a catalog. -/
def readerCalled (vars : List String) : Except Error Catalog := do
  let b ← reader
  let a ← caller vars
  (← ({} : Catalog).register b userModule).register a userModule

theorem built_readerCalled {vars : List String} {c : Catalog} (h : readerCalled vars = .ok c) :
    ∀ r ∈ c.all, r.Built := by
  obtain ⟨b, hb, h⟩ := bind_ok h
  obtain ⟨a, ha, h⟩ := bind_ok h
  obtain ⟨c', hc', h⟩ := bind_ok h
  rw [Catalog.all_register h, Catalog.all_register hc', List.forall_mem_append, List.forall_mem_append]
  exact ⟨⟨by rintro _ ⟨⟩, List.forall_mem_singleton.2 (Built.of_create hb)⟩,
    List.forall_mem_singleton.2 (Built.of_create ha)⟩

/-- A caller that has the runtime variable passes it on. -/
theorem generatePerValue_closed_reader : ∃ c r u, readerCalled ["y"] = .ok c ∧ c.problems = [] ∧
    r ∈ c.all ∧ r.dependencies = ["B"] ∧ r.Built ∧
    (∀ d ∈ r.diagnostics, d.code ≠ .unknownIdentifier) ∧ r.Plain ∧ r.PassesOwn c.resolver ∧
    r.generatePerValue { target := .js } c.resolver = .ok u ∧ u.Closed := by
  have hcheck : ((readerCalled ["y"]).toOption.any fun c => c.problems.isEmpty &&
      c.all.any fun r => r.dependencies == ["B"] && r.diagnostics.isEmpty && decide r.Plain &&
        decide (r.PassesOwn c.resolver) &&
        (r.generatePerValue { target := .js } c.resolver).toOption.any fun _ => true) = true := by
    decide +kernel
  obtain ⟨c, hc, hcheck⟩ := exists_ok_of_any hcheck
  simp only [Bool.and_eq_true, List.isEmpty_iff, List.any_eq_true, beq_iff_eq, decide_eq_true_eq]
    at hcheck
  obtain ⟨hproblems, r, hr, ⟨⟨⟨hcalls, hquiet⟩, hplain⟩, hvars⟩, hgenerate⟩ := hcheck
  obtain ⟨u, hu, -⟩ := exists_ok_of_any hgenerate
  have hbuilt := built_readerCalled hc r hr
  have hknown : ∀ d ∈ r.diagnostics, d.code ≠ .unknownIdentifier := by simp [hquiet]
  exact ⟨c, r, u, hc, hproblems, hr, hcalls, hbuilt, hknown, hplain, hvars, hu,
    generatePerValue_closed hbuilt hknown hplain hvars rfl hu⟩

/-- Whether a function returns the value of the callee for a name that is not in scope. -/
def readsUnbound (u : GeneratedUnit) (fs : List (Script.Function String)) : Bool :=
  fs.any fun f =>
    !(f.params ++ (fs.map (·.name) ++ u.dependencies ++ mathNames)).contains "y" &&
      match f.body with
      | [.ret v] => v == "BCoeff(n - 1, y)"
      | _ => false

/-- The call mentions the runtime variable of the callee. -/
theorem mentions_unbound : Mentions "BCoeff(n - 1, y)".toList ['y'] :=
  ⟨rfl, "BCoeff(n - 1, ".toList, [')'], rfl, by rintro c ⟨⟩; decide, by rintro c ⟨⟩; rfl⟩

theorem not_closed_of_readsUnbound {u : GeneratedUnit} {m : Script.Module String}
    {fs : List (Script.Function String)} (hsource : u.source = .script m)
    (hcontent : m.content = .functions fs) (h : readsUnbound u fs) : ¬u.Closed := by
  rintro ⟨m', fs', hsource', hcontent', -, hbodies⟩
  obtain rfl := Source.script.inj (hsource.symm.trans hsource')
  obtain rfl := Content.functions.inj (hcontent.symm.trans hcontent')
  obtain ⟨f, hf, h⟩ := List.any_eq_true.1 h
  obtain ⟨hscope, hbody⟩ := Bool.and_eq_true_iff.1 h
  split at hbody
  · next v hv =>
    have hscoped := hbodies f hf
    rw [hv, beq_iff_eq.1 hbody] at hscoped
    cases hscoped with
    | ret hreads =>
      rcases hreads _ mentions_unbound with hmem | hmem
      · rw [Bool.not_eq_true', ← Bool.not_eq_true, List.contains_iff_mem] at hscope
        exact hscope hmem
      · simp [reservedWords] at hmem
  · cases hbody

/-- **The runtime variable of a callee is read unbound** where the caller does not have it, though the
catalog has no problems and nothing is reported. -/
theorem unbound_variable : ∃ c r u, readerCalled [] = .ok c ∧ c.problems = [] ∧
    (∀ s ∈ c.all, s.Built ∧ s.Plain ∧ s.diagnostics = []) ∧ r ∈ c.all ∧
    r.generatePerValue { target := .js } c.resolver = .ok u ∧ ¬u.Closed := by
  have hcheck : ((readerCalled []).toOption.any fun c => c.problems.isEmpty &&
      (c.all.all fun s => decide s.Plain && s.diagnostics.isEmpty) &&
      c.all.any fun r => (r.generatePerValue { target := .js } c.resolver).toOption.any fun u =>
        match u.source with
        | .script ⟨_, _, .functions fs, _⟩ => readsUnbound u fs
        | _ => false) = true := by
    decide +kernel
  obtain ⟨c, hc, hcheck⟩ := exists_ok_of_any hcheck
  simp only [Bool.and_eq_true, List.isEmpty_iff, List.any_eq_true, List.all_eq_true,
    decide_eq_true_eq] at hcheck
  obtain ⟨⟨hproblems, hquiet⟩, r, hr, hgenerate⟩ := hcheck
  obtain ⟨u, hu, hunbound⟩ := exists_ok_of_any hgenerate
  refine ⟨c, r, u, hc, hproblems, fun s hs => ⟨built_readerCalled hc s hs, hquiet s hs⟩, hr, hu, ?_⟩
  split at hunbound
  · next hsource => exact not_closed_of_readsUnbound hsource rfl hunbound
  · cases hunbound

end Recurrence

end RecurrenceCompiler
