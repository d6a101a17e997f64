import RecurrenceCompiler.Proofs.Codegen.CaseCode

/-!
# Modules for single values

The module of a recurrence has a function for each case and one that tries the cases in order: it calls the
function of the first case whose guard holds (`Recurrence.firstCase`), which is that of the case that is
selected (`firstCase_of_select`). Where texts are read as arithmetic reads them, the module can be read
(`Runnable.exists_valueFunctions`), and what selects a case gives back what the function of the case does
(`ServedBy.run_selecting`).
-/

namespace RecurrenceCompiler

open Text Decimal Arith Script

/-- The expression that counts, unless no case does. -/
def Selection.value? : Selection → Option Expr
  | .base _ b => some b.value
  | .rule ρ => some ρ.expr
  | .primary => none

namespace Recurrence

/-! ## Cases in order -/

/-- A case in code for single values: the name of its function, the guard under which it is called, and the
value that it computes. -/
structure CodeCase where
  function : String
  guard : Guard
  value : Expr

/-- A base case with its number. -/
def baseCase (r : Recurrence) (p : BaseCase × Nat) : CodeCase :=
  ⟨coeffName r.name ++ "$base" ++ toString p.2, r.baseGuard p.1, p.1.value⟩

/-- A rule with its number. -/
def ruleCase (r : Recurrence) (p : RuleGuard × Nat) : CodeCase :=
  ⟨coeffName r.name ++ "$rule" ++ toString p.2, p.1.guard, p.1.rule.expr⟩

/-- The cases in the order in which code tries them. -/
def codeCases (r : Recurrence) : List CodeCase :=
  r.bases.zipIdx.map r.baseCase ++ r.ruleGuards.zipIdx.map r.ruleCase

/-- The name of the function for points without a case. -/
def primaryName (r : Recurrence) : String :=
  coeffName r.name ++ "$primary"

/-- The first case whose guard holds. -/
def firstCase (env : Env Float) : List CodeCase → Except Error (Option CodeCase)
  | [] => .ok none
  | c :: cs => do
    if ← c.guard.holds env then return some c else firstCase env cs

section
variable {r : Recurrence} {env : Env Float}

theorem firstCase_append {as bs : List CodeCase} {found : Option CodeCase} (h : firstCase env as = .ok found) :
    firstCase env (as ++ bs) = if found.isSome then .ok found else firstCase env bs := by
  induction as with
  | nil =>
    cases h
    rfl
  | cons a as ih =>
    obtain ⟨b, hb, h⟩ := bind_ok h
    rw [List.cons_append, firstCase, hb]
    cases b with
    | true =>
      cases h
      rfl
    | false => exact ih h

/-- Base cases are tried as they are selected. -/
theorem firstCase_bases {bases : List BaseCase} (hslots : ∀ b ∈ bases, b.slots.length = r.indices.length)
    {i j : Nat} {found : Option (Nat × BaseCase)} (h : r.selectBase env i bases = .ok found) :
    ∃ c, firstCase env ((bases.zipIdx j).map r.baseCase) = .ok c ∧
      c.map (·.value) = found.map (·.2.value) := by
  induction bases generalizing i j with
  | nil =>
    cases h
    exact ⟨none, rfl, rfl⟩
  | cons b bases ih =>
    rw [List.forall_mem_cons] at hslots
    obtain ⟨m, hm, h⟩ := bind_ok h
    rw [matchesBase_eq hslots.1] at hm
    rw [List.zipIdx_cons, List.map_cons, firstCase, baseCase, hm]
    cases m with
    | true =>
      cases h
      exact ⟨_, rfl, rfl⟩
    | false => exact ih hslots.2 h

/-- Rules are tried as they are selected. -/
theorem firstCase_rules {gs : List RuleGuard} (hguards : ∀ g ∈ gs, g.guard = r.fullGuard g.rule) {j : Nat}
    {found : Option Rule} (h : r.selectRule env (gs.map (·.rule)) = .ok found) :
    ∃ c, firstCase env ((gs.zipIdx j).map r.ruleCase) = .ok c ∧ c.map (·.value) = found.map (·.expr) := by
  induction gs generalizing j with
  | nil =>
    cases h
    exact ⟨none, rfl, rfl⟩
  | cons g gs ih =>
    rw [List.forall_mem_cons] at hguards
    obtain ⟨m, hm, h⟩ := bind_ok h
    rw [← hguards.1] at hm
    rw [List.zipIdx_cons, List.map_cons, firstCase, ruleCase, hm]
    cases m with
    | true =>
      cases h
      exact ⟨_, rfl, rfl⟩
    | false => exact ih hguards.2 h

/-- **The first case whose guard holds is the one that is selected.** -/
theorem firstCase_of_select (hr : r.Built) {chosen : Selection} (h : r.select env = .ok chosen) :
    ∃ c, firstCase env r.codeCases = .ok c ∧ c.map (·.value) = chosen.value? := by
  obtain ⟨base, hbase, h⟩ := bind_ok h
  obtain ⟨c, hc, hvalue⟩ := firstCase_bases (j := 0) (fun b hb => hr.wellFormed.slots b hb) hbase
  rw [codeCases, firstCase_append hc]
  cases base with
  | some p =>
    obtain ⟨i, b⟩ := p
    cases h
    obtain ⟨d, rfl, -⟩ := Option.map_eq_some_iff.1 hvalue
    exact ⟨_, rfl, hvalue⟩
  | none =>
    obtain rfl : c = none := Option.map_eq_none_iff.1 hvalue
    obtain ⟨rule, hrule, h⟩ := bind_ok h
    rw [← map_rule_ruleGuards] at hrule
    have hguards : ∀ g ∈ r.ruleGuards, g.guard = r.fullGuard g.rule := by
      intro g hg
      obtain ⟨before, after, -, hguard, -⟩ := mem_guardsAfter hg
      exact hguard
    obtain ⟨c, hc, hvalue⟩ := firstCase_rules (j := 0) hguards hrule
    refine ⟨c, hc, hvalue.trans ?_⟩
    cases rule with
    | some ρ =>
      cases h
      rfl
    | none =>
      cases h
      rfl

end

/-! ## Cases that are served -/

/-- A function that is called with the parameters of the one that calls it. -/
def passScript (r : Recurrence) (name : String) : Expression :=
  .call (.name name) (r.params.map .name)

/-- A case is served by a function that computes its value and by a test of its guard, after which that
function is called. -/
structure ServedBy (r : Recurrence) (resolve : Resolver) (c : CodeCase) (f : Script.Function Expression)
    (s : Stmt Expression) : Prop where
  name : f.name = c.function
  computes : r.Computes resolve f c.value
  test : ∃ x, s = .retIf x (r.passScript c.function) ∧ c.guard.TestedBy x

/-- The functions of a module: one for points without a case, those of the cases, and the one that tries the
cases in order. -/
def valueFunctions (r : Recurrence) (served : List (Script.Function Expression × Stmt Expression)) :
    List (Script.Function Expression) :=
  ⟨r.primaryName, r.params, [.ret (.num 0.0)]⟩ :: (served.map (·.1) ++
    [⟨coeffName r.name, r.params, served.map (·.2) ++ [.ret (r.passScript r.primaryName)]⟩])

section
variable {r : Recurrence} {resolve : Resolver} {w : World Float} {s : Locals Float} {env : Env Float}
  {cases : List CodeCase} {served : List (Script.Function Expression × Stmt Expression)}
  (hserved : List.Forall₂ (fun c p => r.ServedBy resolve c p.1 p.2) cases served)
include hserved

theorem declared_tests : declared (served.map (·.2)) = [] := by
  induction hserved with
  | nil => rfl
  | @cons c p cs ps hc _ ih =>
    obtain ⟨x, hx, -⟩ := hc.test
    rw [List.map_cons, hx]
    exact ih

theorem map_name_served : served.map (·.1.name) = cases.map (·.function) := by
  induction hserved with
  | nil => rfl
  | cons hc _ ih => rw [List.map_cons, List.map_cons, hc.name, ih]

/-- **The tests lead to the function of the first case whose guard holds.** -/
theorem runStmts_tests (hw : w.Reads s env) {found : Option CodeCase} (hfound : firstCase env cases = .ok found)
    {v : Value Float} (hv : w.eval s (r.passScript ((found.map (·.function)).getD r.primaryName)) = .ok v)
    (limits : Limits) :
    runStmts limits w s (served.map (·.2) ++ [.ret (r.passScript r.primaryName)]) = .ok (s, some v) := by
  induction hserved with
  | nil =>
    cases hfound
    exact runStmts_ret hv
  | @cons c p cs ps hc _ ih =>
    obtain ⟨b, hb, hfound⟩ := bind_ok hfound
    obtain ⟨x, hx, htest⟩ := hc.test
    rw [List.map_cons, List.cons_append, hx, runStmts, runStmt, htest hw b hb]
    cases b with
    | true =>
      cases hfound
      dsimp only [Option.map_some, Option.getD_some] at hv
      dsimp only [bind, Except.bind]
      rw [if_pos rfl, hv]
      rfl
    | false => exact ih hfound

end

/-! ## Names of functions -/

/-- The name of a function that only the functions of its module call: it goes on with a dollar sign behind the
name of the function that tries the cases. -/
def IsInner (r : Recurrence) (n : String) : Prop :=
  ∃ role, n = coeffName r.name ++ role ∧ '$' ∈ role.toList ∧ ∀ c ∈ role.toList, continuesName c

section
variable {r : Recurrence} {n : String}

theorem isInner_numbered {role : String} (hrole : '$' ∈ role.toList ∧ ∀ c ∈ role.toList, continuesName c) (i : Nat) :
    r.IsInner (coeffName r.name ++ role ++ toString i) := by
  refine ⟨role ++ toString i, String.append_assoc, ?_, ?_⟩
  · rw [String.toList_append]
    exact List.mem_append_left _ hrole.1
  · rw [String.toList_append, List.forall_mem_append]
    exact ⟨hrole.2, Body.continuesName_toString i⟩

theorem isInner_primaryName : r.IsInner r.primaryName :=
  ⟨"$primary", rfl, by decide, List.all_eq_true.1 rfl⟩

theorem isInner_baseCase (p : BaseCase × Nat) : r.IsInner (r.baseCase p).function :=
  isInner_numbered ⟨by decide, List.all_eq_true.1 rfl⟩ _

theorem isInner_ruleCase (p : RuleGuard × Nat) : r.IsInner (r.ruleCase p).function :=
  isInner_numbered ⟨by decide, List.all_eq_true.1 rfl⟩ _

/-- The functions of cases are called in their module only. -/
theorem isInner_codeCase : ∀ c ∈ r.codeCases, r.IsInner c.function :=
  List.forall_mem_append.2 ⟨List.forall_mem_map.2 fun p _ => isInner_baseCase p,
    List.forall_mem_map.2 fun p _ => isInner_ruleCase p⟩

theorem IsInner.dollar (h : r.IsInner n) : '$' ∈ n.toList := by
  obtain ⟨role, rfl, hdollar, -⟩ := h
  rw [String.toList_append]
  exact List.mem_append_right _ hdollar

theorem dollar_notMem {n : String} (h : isIdentifier n) : '$' ∉ n.toList := by
  intro hmem
  cases isWord_of_isIdentifier h '$' hmem

theorem IsInner.notMem_params (h : r.IsInner n) (hr : r.Built) : n ∉ r.params := fun hn =>
  dollar_notMem (hr.isIdentifier_param hn) h.dollar

theorem IsInner.ne_coeffName (h : r.IsInner n) {d : String} (hd : isIdentifier d) : n ≠ coeffName d := by
  rintro rfl
  have hdollar := h.dollar
  rw [coeffName, String.toList_append] at hdollar
  rcases List.mem_append.1 hdollar with hmem | hmem
  · exact dollar_notMem hd hmem
  · exact absurd hmem (by decide)

theorem IsInner.not_isElementary (h : r.IsInner n) : ¬ IsElementary n := by
  have hmath : ∀ m ∈ mathNames, '$' ∉ m.toList := by decide
  rintro (hn | rfl | rfl)
  · exact hmath n hn h.dollar
  · exact absurd h.dollar (by decide)
  · exact absurd h.dollar (by decide)

theorem IsInner.isText (h : r.IsInner n) (hr : r.Built) : IsText .operand n [.name n] := by
  have hwords : ∀ m ∈ reservedWords, '$' ∉ m.toList := by decide
  refine isText_name ?_ fun hres => hwords n hres h.dollar
  obtain ⟨role, rfl, -, hrole⟩ := h
  exact isScriptName_append (isScriptName_coeffName hr.isIdentifier_name) hrole

/-- Names with distinct numbers are distinct. -/
theorem nodup_numbered {α : Type} (stem : String) (as : List α) :
    (as.zipIdx.map fun p => stem ++ toString p.2).Nodup := by
  have hinj : Function.Injective fun k : Nat => stem ++ toString k := by
    intro k k' h
    have hlist := congrArg String.toList h
    simp only [String.toList_append, Body.toList_toString, List.append_cancel_left_eq] at hlist
    simpa using congrArg natOfDigits hlist
  have hnumbers : (as.zipIdx.map Prod.snd).Nodup := by
    rw [List.zipIdx_map_snd]
    exact List.nodup_range'
  have hmap := hnumbers.map hinj
  rwa [List.map_map] at hmap

/-- **No two functions of a module have the same name.** -/
theorem nodup_functionNames (hr : r.Built) :
    (r.primaryName :: (r.codeCases.map (·.function) ++ [coeffName r.name])).Nodup := by
  have hbases : ((r.bases.zipIdx.map r.baseCase).map (·.function)).Nodup := by
    rw [List.map_map]
    exact nodup_numbered _ _
  have hrules : ((r.ruleGuards.zipIdx.map r.ruleCase).map (·.function)).Nodup := by
    rw [List.map_map]
    exact nodup_numbered _ _
  rw [codeCases, List.map_append, List.nodup_cons, List.nodup_append, List.nodup_append]
  have hstem {x y : String} (h : coeffName r.name ++ x = coeffName r.name ++ y) : x.toList = y.toList := by
    simpa using congrArg String.toList h
  refine ⟨fun hmem => ?_, ⟨hbases, hrules, fun n hn m hm heq => ?_⟩, List.nodup_singleton _, fun n hn m hm heq => ?_⟩
  · rcases List.mem_append.1 hmem with hmem | hmem
    · rcases List.mem_append.1 hmem with hmem | hmem
      · obtain ⟨c, hc, hname⟩ := List.mem_map.1 hmem
        obtain ⟨p, -, rfl⟩ := List.mem_map.1 hc
        rw [baseCase, primaryName, String.append_assoc] at hname
        simpa using hstem hname
      · obtain ⟨c, hc, hname⟩ := List.mem_map.1 hmem
        obtain ⟨p, -, rfl⟩ := List.mem_map.1 hc
        rw [ruleCase, primaryName, String.append_assoc] at hname
        simpa using hstem hname
    · exact isInner_primaryName.ne_coeffName hr.isIdentifier_name (List.mem_singleton.1 hmem)
  · obtain ⟨c, hc, rfl⟩ := List.mem_map.1 hn
    obtain ⟨p, -, rfl⟩ := List.mem_map.1 hc
    obtain ⟨d, hd, rfl⟩ := List.mem_map.1 hm
    obtain ⟨q, -, rfl⟩ := List.mem_map.1 hd
    rw [baseCase, ruleCase, String.append_assoc, String.append_assoc] at heq
    simpa using hstem heq
  · obtain ⟨c, hc, rfl⟩ := List.mem_map.1 (List.map_append ▸ hn)
    exact (isInner_codeCase c hc).ne_coeffName hr.isIdentifier_name (heq.trans (List.mem_singleton.1 hm))

end

/-! ## Reading modules -/

section
variable {r : Recurrence} {resolve : Resolver} {o : CodegenOptions}

/-- Parameters are passed on in a call. -/
theorem Scripted.isText_passOn (h : r.Scripted) {n : String} (hn : IsText .operand n [.name n]) :
    IsText .operand (r.passOn n) [r.passScript n] := by
  have hparams : List.Forall₂ (fun t x => IsText .cond t [x]) r.params (r.params.map .name) := by
    rw [List.forall₂_map_right_iff, List.forall₂_same]
    exact fun v hv => ((h.isText_param hv).binary 1).cond
  exact hn.call (isText_args hparams (List.append_ne_nil_of_left_ne_nil h.built.indices_ne_nil _))

/-- A call with the parameters is returned. -/
theorem Scripted.readReturn_passOn (h : r.Scripted) {n : String} (hn : r.IsInner n) :
    readReturn (r.passOn n) = .ok (r.passScript n) := by
  refine ((h.isText_passOn (hn.isText h.built)).binary 1).cond.readReturn ?_
  obtain ⟨role, rfl, -, -⟩ := hn
  simp only [passOn, coeffName, String.append_assoc]
  exact leadsInLine_identifier h.built.isIdentifier_name _

/-- **The test of a case can be read.** -/
theorem Scripted.exists_test (h : r.Scripted) {g : Guard} (hg : ∀ t ∈ g.sides, IsSide t) {n : String}
    (hn : r.IsInner n) : ∃ x, readStmt (.retIf g.render (r.passOn n)) = .ok [.retIf x (r.passScript n)] ∧
      g.TestedBy x := by
  obtain ⟨x, hx, htest⟩ := g.exists_test hg
  refine ⟨x, ?_, htest⟩
  rw [readStmt, hx.readText, h.readReturn_passOn hn]
  rfl

/-- The sides of the guard of a base case are indices and integers. -/
theorem Scripted.isSide_baseGuard (h : r.Scripted) {b : BaseCase} (hb : b ∈ r.bases) :
    ∀ t ∈ (r.baseGuard b).sides, IsSide t := by
  intro t ht
  obtain ⟨c, hc, ht⟩ := List.mem_flatMap.1 ht
  obtain ⟨i, hi, v, hv, rfl⟩ := mem_slotEqualities (h.built.wellFormed.slots b hb) hc
  rcases List.mem_pair.1 ht with rfl | rfl
  · exact h.isSide_param (List.mem_append_left _ hi)
  · exact isSide_intText (h.built.reported.slots b hb v hv)

/-- Those of the guard of a rule can be read. -/
theorem Scripted.isSide_fullGuard (h : r.Scripted) {rule : Rule} (hrule : rule ∈ r.rules) :
    ∀ t ∈ (r.fullGuard rule).sides, IsSide t := by
  intro t ht
  refine (h.readable ?_).isSide
  rw [fullGuard, Guard.and, Guard.sides, List.flatMap_append] at ht
  rcases List.mem_append.1 ht with ht | ht
  · exact List.mem_append_right _ (List.mem_flatMap.2 ⟨rule, hrule, List.mem_append_left _ ht⟩)
  · exact List.mem_append_left _ (List.mem_append_left _ ht)

/-- Code serves a case once it is read. -/
def ReadsCase (r : Recurrence) (resolve : Resolver) (c : CodeCase) (p : Script.Function String × Stmt String) : Prop :=
  ∃ f s, readFunction p.1 = .ok f ∧ readStmt p.2 = .ok [s] ∧ declared [p.2] = [] ∧ r.ServedBy resolve c f s

/-- **The code of a base case serves it.** -/
theorem Runnable.readsBase (h : r.Runnable resolve) (ho : o.target = .js) {b : BaseCase} (hb : b ∈ r.bases)
    {i : Nat} {p : Script.Function String × Stmt String} (hp : r.jsBase o resolve b i = .ok p) :
    r.ReadsCase resolve (r.baseCase (b, i)) p := by
  obtain ⟨text, htext, hp⟩ := bind_ok hp
  cases hp
  obtain ⟨f, hf, hname, hcomputes⟩ := h.exists_baseFunction ho hb htext (r.baseCase (b, i)).function
  obtain ⟨x, hx, htest⟩ := h.exists_test (h.isSide_baseGuard hb)
    (isInner_baseCase (b, i))
  exact ⟨f, _, hf, hx, rfl, hname, hcomputes, x, rfl, htest⟩

/-- **The code of a rule serves it.** -/
theorem Runnable.readsRule (h : r.Runnable resolve) (ho : o.target = .js) {g : RuleGuard} (hg : g ∈ r.ruleGuards)
    {i : Nat} {q : Strategy × Script.Function String × Stmt String} (hq : r.jsRule o resolve g i = .ok q) :
    r.ReadsCase resolve (r.ruleCase (g, i)) q.2 := by
  obtain ⟨before, after, hsorted, hguard, -⟩ := mem_guardsAfter hg
  have hrule : g.rule ∈ r.rules := r.sortedRules_perm.mem_iff.1 (by simp [hsorted])
  obtain ⟨_, -, hq⟩ := bind_ok hq
  obtain ⟨body, hbody, hq⟩ := bind_ok hq
  cases hq
  obtain ⟨f, hf, hname, hcomputes⟩ := h.exists_ruleFunction ho hrule hbody (r.ruleCase (g, i)).function
  obtain ⟨x, hx, htest⟩ := h.exists_test (g := g.guard) (hguard ▸ h.isSide_fullGuard hrule)
    (isInner_ruleCase (g, i))
  exact ⟨f, _, hf, hx, rfl, hname, hcomputes, x, rfl, htest⟩

/-- Code that serves cases is read as functions and tests. -/
theorem exists_served {cases : List CodeCase} {ps : List (Script.Function String × Stmt String)}
    (h : List.Forall₂ (r.ReadsCase resolve) cases ps) :
    ∃ served : List (Script.Function Expression × Stmt Expression),
      (ps.map (·.1)).mapM readFunction = .ok (served.map (·.1)) ∧
      readStmts (ps.map (·.2)) = .ok (served.map (·.2)) ∧ declared (ps.map (·.2)) = [] ∧
      List.Forall₂ (fun c p => r.ServedBy resolve c p.1 p.2) cases served := by
  induction h with
  | nil => exact ⟨[], rfl, rfl, rfl, .nil⟩
  | @cons c p cs ps hc _ ih =>
    obtain ⟨f, s, hf, hs, hdeclared, hserved⟩ := hc
    obtain ⟨served, hfs, hss, hnone, hrest⟩ := ih
    refine ⟨(f, s) :: served, ?_, ?_, ?_, .cons hserved hrest⟩
    · rw [List.map_cons, List.mapM_cons, hf, hfs]
      rfl
    · rw [List.map_cons, readStmts, hs, hss]
      rfl
    · rw [List.map_cons, ← List.singleton_append, declared_append, hdeclared, hnone, List.append_nil]

/-- What holds of each result of a list of computations. -/
theorem forall₂_of_mapM_of {α β : Type} {f : α → Except Error β} {R : α → β → Prop} {xs : List α} {ys : List β}
    (h : xs.mapM f = .ok ys) (hR : ∀ x ∈ xs, ∀ y, f x = .ok y → R x y) : List.Forall₂ R xs ys := by
  induction xs generalizing ys with
  | nil =>
    cases h
    exact .nil
  | cons x xs ih =>
    rw [List.forall_mem_cons] at hR
    rw [List.mapM_cons] at h
    obtain ⟨y, hy, h⟩ := bind_ok h
    obtain ⟨ys, hys, h⟩ := bind_ok h
    cases h
    exact .cons (hR.1 y hy) (ih hys hR.2)

/-- The zero of scripts is returned. -/
theorem readStmts_zero (ho : o.target = .js) : readStmts [.ret o.dialect.zero] = .ok [.ret (.num 0.0)] := by
  have hzero : o.dialect.zero = intText 0 := by
    rw [Dialect.zero, CodegenOptions.dialect, ho]
    rfl
  have htext : IsText .operand (intText 0) [.num 0.0] := isText_intText le_rfl
  rw [hzero]
  refine (htext.binary 1).cond.readStmts_ret (leadsInLine_of_head fun c hc => ?_)
  obtain rfl : '0' = c := Option.some.inj hc
  rfl

/-- **The module of a recurrence is read as functions that serve its cases.** -/
theorem Runnable.exists_valueFunctions (h : r.Runnable resolve) (ho : o.target = .js) {ss : List Strategy}
    {m : Script.Module String} (hm : r.jsPerValue o resolve = .ok (ss, m)) : ∃ served,
      readContent m.content = .ok (.functions (r.valueFunctions served)) ∧
      m.name = r.name ++ "Module" ∧ m.exports = [coeffName r.name] ∧
      List.Forall₂ (fun c p => r.ServedBy resolve c p.1 p.2) r.codeCases served := by
  obtain ⟨bases, hbases, hm⟩ := bind_ok hm
  obtain ⟨rules, hrules, hm⟩ := bind_ok hm
  cases hm
  have hcode : List.Forall₂ (r.ReadsCase resolve) r.codeCases (bases ++ rules.map (·.2)) := by
    refine List.rel_append ?_ ?_
    · rw [List.forall₂_map_left_iff]
      exact forall₂_of_mapM_of hbases fun p hp _ hy => h.readsBase ho (List.fst_mem_of_mem_zipIdx hp) hy
    · rw [List.forall₂_map_left_iff, List.forall₂_map_right_iff]
      exact forall₂_of_mapM_of hrules fun p hp _ hy => h.readsRule ho (List.fst_mem_of_mem_zipIdx hp) hy
  obtain ⟨served, hfunctions, htests, hdeclared, hserved⟩ := exists_served hcode
  refine ⟨served, ?_, rfl, rfl, hserved⟩
  have hnone : ∀ n ∈ ([] : List String), Body.Introduced n := by simp
  have hempty := h.canDeclareUnder List.nodup_nil hnone
  have hprimary : readFunction ⟨r.primaryName, r.params, [.ret o.dialect.zero]⟩ =
      .ok ⟨r.primaryName, r.params, [.ret (.num 0.0)]⟩ := by
    have hdeclared : declared [Stmt.ret o.dialect.zero] = [] := rfl
    rw [readFunction, hdeclared, hempty, readStmts_zero ho]
    rfl
  have hselect : readFunction ⟨coeffName r.name, r.params,
      (bases ++ rules.map (·.2)).map (·.2) ++ [.ret (r.passOn r.primaryName)]⟩ =
      .ok ⟨coeffName r.name, r.params, served.map (·.2) ++ [.ret (r.passScript r.primaryName)]⟩ := by
    have hret : readStmts [.ret (r.passOn r.primaryName)] = .ok [.ret (r.passScript r.primaryName)] := by
      rw [readStmts, readStmt, h.readReturn_passOn isInner_primaryName]
      rfl
    have hbody : declared ((bases ++ rules.map (·.2)).map (·.2) ++ [.ret (r.passOn r.primaryName)]) = [] := by
      rw [declared_append, hdeclared]
      rfl
    rw [readFunction, hbody, hempty, readStmts_append htests hret]
    rfl
  have hall : readContent (.functions (⟨r.primaryName, r.params, [.ret o.dialect.zero]⟩ ::
      ((bases ++ rules.map (·.2)).map (·.1) ++ [⟨coeffName r.name, r.params,
        (bases ++ rules.map (·.2)).map (·.2) ++ [.ret (r.passOn r.primaryName)]⟩]))) =
      .ok (.functions (r.valueFunctions served)) := by
    rw [readContent, List.mapM_cons, hprimary, List.mapM_append, hfunctions, List.mapM_cons, hselect]
    rfl
  simpa [primaryName, Function.comp_def] using hall

end

/-! ## Running modules -/

section
variable {r : Recurrence} {resolve : Resolver} {vars : RuntimeVars Float} {point : List Float} {w : World Float}
  {s : Locals Float} {v : Value Float}

/-- **A function that passes on its parameters** passes on the point and the runtime variables. -/
theorem HasPoint.eval_passScript (hs : r.HasPoint vars point s) (hrank : point.length = r.indices.length)
    {n : String} (hn : s.find? n = none) {f : Callable} (hf : w.names n = .ok (.function f))
    (hv : w.value f (pointArgs r.runtimeVars vars point) = .ok v) : w.eval s (r.passScript n) = .ok v := by
  have hargs : Expression.evalAll (s.read w.names) w.value (r.params.map .name) =
      .ok (pointArgs r.runtimeVars vars point) := by
    rw [params, List.map_append]
    refine evalAll_of_forall₂ (List.rel_append ?_ ?_)
    · rw [List.forall₂_map_left_iff, List.forall₂_map_right_iff, List.forall₂_iff_get]
      refine ⟨hrank.symm, fun i hi hi' => Locals.read_of_find? ?_⟩
      exact hs.index i _ _ (List.getElem?_eq_getElem hi) (List.getElem?_eq_getElem hi')
    · rw [List.forall₂_map_left_iff, List.forall₂_map_right_iff, List.forall₂_same]
      exact fun v hv => Locals.read_of_find? (hs.var v hv)
  have hname : s.read w.names n = .ok (.function f) := by
    rw [Locals.read, hn]
    exact hf
  rw [World.eval, passScript, Expression.eval, Expression.eval, hname, hargs]
  exact hv

/-- The function for points without a case gives zero. -/
theorem run_primary (r : Recurrence) (limits : Limits) (values : List (Value Float)) : ∃ args,
    (⟨r.primaryName, r.params, [.ret (.num 0.0)]⟩ : Script.Function Expression).run limits w values =
      .ok ⟨.num 0.0, args⟩ :=
  exists_run_of_ret (runStmts_ret rfl)

/-- **What tries the cases gives back what the function of the first case does** whose guard holds at the
point. -/
theorem Runnable.run_selecting (h : r.Runnable resolve) (hp : r.Passable vars point) (hw : w.Elementary)
    {served : List (Script.Function Expression × Stmt Expression)}
    (hserved : List.Forall₂ (fun c p => r.ServedBy resolve c p.1 p.2) r.codeCases served) {found : Option CodeCase}
    (hfound : firstCase (r.pointEnv point) r.codeCases = .ok found) {n : String}
    (hn : (found.map (·.function)).getD r.primaryName = n) (hinner : r.IsInner n) {f : Callable}
    (hf : w.names n = .ok (.function f)) (hv : w.value f (pointArgs r.runtimeVars vars point) = .ok v)
    (limits : Limits) : ∃ args,
      (⟨coeffName r.name, r.params, served.map (·.2) ++ [.ret (r.passScript r.primaryName)]⟩ :
        Script.Function Expression).run limits w (pointArgs r.runtimeVars vars point) = .ok ⟨v, args⟩ := by
  have hnone : ∀ n ∈ ([] : List String), Body.Introduced n := by simp
  have hs : r.HasPoint vars point _ := hasPoint_params h.built h.params hp.rank hnone
  have hdeclared : declared (served.map (·.2) ++ [.ret (r.passScript r.primaryName)]) = [] := by
    rw [declared_append, declared_tests hserved]
    rfl
  have hfree : ((Locals.ofParams r.params (pointArgs r.runtimeVars vars point)).enter []).find? n = none :=
    Locals.find?_eq_none (by simpa using hinner.notMem_params h.built)
  refine exists_run_of_ret (s := (Locals.ofParams r.params (pointArgs r.runtimeVars vars point)).enter []) ?_
  dsimp only
  rw [hdeclared]
  refine runStmts_tests hserved (hs.reads h.toScripted hp hw) hfound ?_ limits
  rw [hn]
  exact hs.eval_passScript hp.rank hfree hf hv

end

end Recurrence

end RecurrenceCompiler
