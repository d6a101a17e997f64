import RecurrenceCompiler.Catalog.Evaluate
import RecurrenceCompiler.Proofs.Codegen.ScriptBodies
import RecurrenceCompiler.Proofs.Codegen.ScriptTexts
import RecurrenceCompiler.Proofs.Recurrence.Derivation
import RecurrenceCompiler.Proofs.Recurrence.Fixing

/-!
# The code of a case

Code for single values has one function a case. It is called with a point and the runtime variables
(`pointArgs`), and gives the value of the case there, if the functions that it calls give the values of the
calls of the case (`Computes`): the function of a base case (`Runnable.exists_baseFunction`) and the function
of a rule, whatever strategy its body was rendered by (`Runnable.exists_ruleFunction`).
-/

namespace RecurrenceCompiler

open Text Decimal Arith Script

/-! ## Names -/

namespace Body

/-- A name that bodies introduce ends in a digit. -/
theorem Introduced.isDigit_last {n : String} (h : Introduced n) : ∃ c ∈ n.toList.getLast?, isDigit c = true := by
  have hnumbered (stem : String) (k : Nat) : ∃ c ∈ (stem ++ toString k).toList.getLast?, isDigit c = true := by
    have hne : Nat.toDigits 10 k ≠ [] := Nat.toDigits_ne_nil
    rw [String.toList_append, toList_toString, List.getLast?_append_of_ne_nil _ hne]
    exact ⟨_, List.getLast?_eq_some_getLast hne,
      List.all_eq_true.1 (all_isDigit_toDigits k) _ (List.getLast_mem hne)⟩
  cases h with
  | term | shared => exact hnumbered _ _

theorem not_introduced_coeffName (n : String) : ¬ Introduced (coeffName n) := by
  intro h
  obtain ⟨c, hc, hdigit⟩ := h.isDigit_last
  rw [coeffName, String.toList_append] at hc
  simp at hc
  subst hc
  cases hdigit

theorem Introduced.not_isElementary {n : String} (h : Introduced n) : ¬ IsElementary n := by
  have hmath : ∀ m ∈ mathNames, m.toList.head? ≠ some '_' := by decide
  have hhead := h.underscore
  rintro (hn | rfl | rfl)
  · exact hmath n hn hhead
  · exact absurd hhead (by decide)
  · exact absurd hhead (by decide)

end Body

namespace Script

/-- A name may go on with what continues names. -/
theorem isScriptName_append {n m : String} (hn : isScriptName n) (hm : ∀ c ∈ m.toList, continuesName c) :
    isScriptName (n ++ m) := by
  rw [isScriptName] at hn ⊢
  rw [String.toList_append]
  cases hcs : n.toList with
  | nil =>
    rw [hcs] at hn
    cases hn
  | cons c cs =>
    rw [hcs, Bool.and_eq_true] at hn
    rw [List.cons_append, Bool.and_eq_true, List.all_append, Bool.and_eq_true]
    exact ⟨hn.1, hn.2, List.all_eq_true.2 hm⟩

end Script

theorem isScriptName_coeffName {n : String} (hn : isIdentifier n) : isScriptName (coeffName n) :=
  isScriptName_append (isScriptName_of_isIdentifier hn) (List.all_eq_true.1 rfl)

/-- The name of a function can be written in scripts. -/
theorem isText_coeffName {n : String} (hn : isIdentifier n) : IsText .operand (coeffName n) [.name (coeffName n)] := by
  have hreserved : ∀ m ∈ reservedWords, ¬ "Coeff".toList <:+ m.toList := by decide
  refine isText_name (isScriptName_coeffName hn) fun hres => hreserved _ hres ?_
  rw [coeffName, String.toList_append]
  exact List.suffix_append _ _

/-! ## Texts that are returned -/

namespace Script

/-- No line break stands before the first word of a text, so the whole of it is returned. -/
def LeadsInLine (t : String) : Prop :=
  ∀ c ∈ t.toList.takeWhile isBlank, isLineBreak c = false

theorem leadsInLine_of_head {t : String} (h : ∀ c ∈ t.toList.head?, isBlank c = false) : LeadsInLine t := by
  rw [LeadsInLine]
  cases ht : t.toList with
  | nil => simp
  | cons c cs =>
    rw [ht] at h
    simp [h c rfl]

theorem leadsInLine_paren (t : String) : LeadsInLine ("(" ++ t ++ ")") :=
  leadsInLine_of_head (by simp [isBlank])

theorem LeadsInLine.append {l r : String} (hl : LeadsInLine l) (hr : LeadsInLine r) : LeadsInLine (l ++ r) := by
  intro c hc
  rw [String.toList_append, List.takeWhile_append] at hc
  split at hc
  · next hlength =>
    have hall : l.toList.takeWhile isBlank = l.toList := (List.takeWhile_prefix _).eq_of_length hlength
    rcases List.mem_append.1 hc with hc | hc
    · exact hl c (hall.symm ▸ hc)
    · exact hr c hc
  · exact hl c hc

/-- What starts with a name stands on the line that it is put on. -/
theorem leadsInLine_name {n : String} (h : isNameRun n.toList) (rest : String) : LeadsInLine (n ++ rest) := by
  refine leadsInLine_of_head fun c hc => ?_
  have hne : n.toList ≠ [] := by
    intro hnil
    rw [hnil] at h
    cases h
  rw [String.toList_append, List.head?_append_of_ne_nil _ hne] at hc
  have hcontinues := continuesName_of_isNameRun h c (List.mem_of_mem_head? hc)
  rw [← Bool.not_eq_true]
  intro hblank
  rw [continuesName_of_isBlank hblank] at hcontinues
  cases hcontinues

theorem leadsInLine_identifier {n : String} (h : isIdentifier n) (rest : String) : LeadsInLine (n ++ rest) :=
  leadsInLine_name (Dialect.isNameRun_of_isIdentifier h) rest

theorem leadsInLine_number {d : Dialect} (hd : d.target = .js) (x : Float) : LeadsInLine (d.number x) := by
  rw [Dialect.number, hd]
  dsimp only
  split
  · exact leadsInLine_paren _
  · refine leadsInLine_of_head fun c hc => ?_
    have hjoint : isJoint c = false := by
      refine (spells_numberChars x).not_isJoint c (List.mem_of_mem_head? ?_)
      simpa [numberText] using hc
    rw [← Bool.not_eq_true]
    intro hblank
    rw [isJoint_of_isBlank hblank] at hjoint
    cases hjoint

/-- Before an operator stands a blank, which is no line break. -/
theorem leadsInLine_op (o : BinOp) (rest : String) : LeadsInLine (" " ++ o.text ++ rest) := by
  rw [LeadsInLine, String.toList_append]
  have hblank : (List.takeWhile isBlank ((" " ++ o.text).toList ++ rest.toList)) = [' '] := by
    cases o <;> rfl
  rw [hblank]
  exact List.forall_mem_singleton.2 rfl

theorem closedTexts_leadsInLine {d : Dialect} (hd : d.target = .js) : ClosedTexts d LeadsInLine where
  zero := by
    rw [Dialect.zero, hd]
    exact leadsInLine_of_head (by simp [isBlank])
  empty := by simp [LeadsInLine]
  paren _ := leadsInLine_paren _
  join {l r} o hl _ := by
    have hjoin := hl.append (leadsInLine_op o (" " ++ r))
    simpa [String.append_assoc] using hjoin

/-- Blanks have no tokens. -/
theorem tokens?_blanks {cs : List Char} (h : ∀ c ∈ cs, isBlank c) : tokens? cs = some [] := by
  induction cs with
  | nil => rfl
  | cons c cs ih =>
    rw [List.forall_mem_cons] at h
    rw [tokens?_blank h.1, ih h.2]

/-- **What a text stands for is returned** if it starts on the line of the return. -/
theorem IsText.readReturn {text : String} {e : Expression} (h : IsText .cond text [e]) (hlead : LeadsInLine text) :
    readReturn text = .ok e := by
  have hne : (text.toList.takeWhile isBlank).length ≠ text.toList.length := by
    intro hlength
    have hall := (List.takeWhile_prefix _).eq_of_length hlength
    obtain ⟨ts, hts, hparse⟩ := h
    rw [tokens?_blanks (List.takeWhile_eq_self_iff.1 hall)] at hts
    obtain ⟨t, us, hstart, -⟩ := hparse.starts
    rw [hstart] at hts
    cases hts
  have hline : (text.toList.takeWhile isBlank).any isLineBreak = false := by
    simpa [LeadsInLine] using hlead
  rw [Script.readReturn, if_neg (by simpa using hne), h.readText, hline]
  rfl

theorem IsText.readStmts_ret {text : String} {e : Expression} (h : IsText .cond text [e]) (hlead : LeadsInLine text) :
    readStmts [.ret text] = .ok [.ret e] := by
  rw [readStmts, readStmt, h.readReturn hlead]
  rfl

end Script

namespace Recurrence

/-! ## Functions that return -/

section
variable {limits : Limits} {w : World Float} {s : Locals Float} {v : Value Float}

theorem runStmts_ret {e : Expression} (h : w.eval s e = .ok v) : runStmts limits w s [.ret e] = .ok (s, some v) := by
  rw [runStmts, runStmt, h]
  rfl

/-- A function gives back what its statements return. -/
theorem exists_run_of_ret {f : Script.Function Expression} {values : List (Value Float)}
    (h : runStmts limits w ((Locals.ofParams f.params values).enter (declared f.body)) f.body = .ok (s, some v)) :
    ∃ args, f.run limits w values = .ok ⟨v, args⟩ := by
  rw [Function.run]
  dsimp only
  rw [h]
  exact ⟨_, rfl⟩

end

/-! ## Titles of rules -/

theorem declared_nameComment {ε : Type} (name : Option String) : declared (nameComment name : List (Stmt ε)) = [] := by
  cases name with
  | none => rfl
  | some n =>
    rw [nameComment]
    split <;> rfl

/-- A title of one line is read as the comment that it is. -/
theorem readStmts_nameComment {name : Option String} (hname : ∀ n ∈ name, isOneLine n) :
    readStmts (nameComment name) = .ok (nameComment name) := by
  cases name with
  | none => rfl
  | some n =>
    rw [nameComment, nameComment]
    split
    · rfl
    · rw [readStmts, Body.readStmt_comment (hname n rfl)]
      rfl

theorem runStmts_nameComment (name : Option String) (limits : Limits) {w : World Float} {s : Locals Float} :
    runStmts limits w s (nameComment name) = .ok (s, none) := by
  cases name with
  | none => rfl
  | some n =>
    rw [nameComment]
    split <;> rfl

/-! ## Recurrences that can be run -/

/-- A recurrence whose code for single values can be run. Scripts read its texts as they are, and the names of
its rules stay on their lines. Its parameters hide no function that it calls and are none of the names that
bodies introduce. What it calls has as many indices and no runtime variables but its own. -/
structure Runnable (r : Recurrence) (resolve : Resolver) : Prop extends r.Scripted where
  titles : ∀ rule ∈ r.rules, ∀ n ∈ rule.name, isOneLine n
  params : ∀ n ∈ r.params, ¬ Body.Introduced n
  functions : ∀ d, d = r.name ∨ r.Calls d → coeffName d ∉ r.params
  rank : ∀ d, r.Calls d → ∀ s, resolve d = some s → s.indices.length = r.indices.length
  vars : ∀ d, r.Calls d → ∀ s, resolve d = some s → s.runtimeVars ⊆ r.runtimeVars

/-- A check that the code of a recurrence can be run. -/
def isRunnable (r : Recurrence) (resolve : Resolver) : Bool :=
  r.isScripted && r.rules.all (fun rule => rule.name.all fun n => isOneLine n) &&
    r.params.all (fun n => n.toList.head? != some '_') &&
    (r.name :: r.dependencies).all (fun d => !r.params.contains (coeffName d)) &&
    r.dependencies.all fun d => (resolve d).all fun s =>
      s.indices.length == r.indices.length && s.runtimeVars.all r.runtimeVars.contains

theorem runnable_of_isRunnable {r : Recurrence} {resolve : Resolver} (hbalanced : r.Balanced)
    (h : r.isRunnable resolve) : r.Runnable resolve := by
  simp only [isRunnable, Bool.and_eq_true, List.all_eq_true, Option.all_eq_true, bne_iff_ne, Bool.not_eq_true',
    List.contains_eq_mem, decide_eq_false_iff_not, decide_eq_true_eq, beq_iff_eq] at h
  obtain ⟨⟨⟨⟨hscripted, htitles⟩, hparams⟩, hfunctions⟩, hcallees⟩ := h
  exact {
    toScripted := scripted_of_isScripted hbalanced hscripted
    titles := htitles
    params := fun n hn hintroduced => hparams n hn hintroduced.underscore
    functions := fun d hd => hfunctions d (List.mem_cons.2 (hd.imp_right mem_dependencies.2))
    rank := fun d hd s hs => (hcallees d (mem_dependencies.2 hd) s hs).1
    vars := fun d hd s hs v hv => (hcallees d (mem_dependencies.2 hd) s hs).2 v hv }

/-! ## Points in running functions -/

/-- The arguments of a function for single values: a point, and then runtime variables. -/
def pointArgs (names : List String) (vars : RuntimeVars Float) (point : List Float) : List (Value Float) :=
  point.map .num ++ names.map vars.script

/-- What can be passed to the functions of a recurrence: a point of its rank without negative zeros, and tables
that scripts can hold. Elementary functions are not given values. -/
structure Passable (r : Recurrence) (vars : RuntimeVars Float) (point : List Float) : Prop where
  rank : point.length = r.indices.length
  point : NoNegativeZero point
  elementary : ∀ fn : MathFn, vars fn.name = none
  tables : ∀ v ∈ r.runtimeVars, ∀ xs, vars v = some (.table xs) → xs.length < 2 ^ 32

/-- A running function that has some of the indices at a point, and the runtime variables. It hides none of the
surroundings. -/
structure HasNames (r : Recurrence) (vars : RuntimeVars Float) (point : List Float) (names : List String)
    (s : Locals Float) : Prop where
  index : ∀ (i : Nat) n x, r.indices[i]? = some n → n ∈ names → point[i]? = some x →
    s.find? n = some ⟨n, some (.num x)⟩
  var : ∀ v ∈ r.runtimeVars, s.find? v = some ⟨v, some (vars.script v)⟩
  free : ∀ n, IsElementary n → s.find? n = none

/-- A running function that was called with a point. Besides its parameters it has at most names that bodies
introduce. -/
structure HasPoint (r : Recurrence) (vars : RuntimeVars Float) (point : List Float) (s : Locals Float) :
    Prop where
  index : ∀ (i : Nat) n x, r.indices[i]? = some n → point[i]? = some x → s.find? n = some ⟨n, some (.num x)⟩
  var : ∀ v ∈ r.runtimeVars, s.find? v = some ⟨v, some (vars.script v)⟩
  free : ∀ n, n ∉ r.params → ¬ Body.Introduced n → s.find? n = none

section
variable {r : Recurrence} {resolve : Resolver} {vars : RuntimeVars Float} {point : List Float}
  {s s' : Locals Float} {w : World Float}

/-- **A function that is called with a point has it.** -/
theorem hasPoint_params (hr : r.Built) (hparams : ∀ n ∈ r.params, ¬ Body.Introduced n)
    (hrank : point.length = r.indices.length) {names : List String} (hnames : ∀ n ∈ names, Body.Introduced n) :
    r.HasPoint vars point ((Locals.ofParams r.params (pointArgs r.runtimeVars vars point)).enter names) := by
  have hfind {i : Nat} {n : String} {v : Value Float} (hn : r.params[i]? = some n)
      (hv : (pointArgs r.runtimeVars vars point)[i]? = some v) :
      ((Locals.ofParams r.params (pointArgs r.runtimeVars vars point)).enter names).find? n = some ⟨n, some v⟩ := by
    rw [Locals.find?_enter fun hmem => hparams n (List.mem_of_getElem? hn) (hnames n hmem)]
    exact Locals.find?_ofParams hr.nodup_names hn hv
  refine ⟨fun i n x hn hx => hfind (i := i) ?_ ?_, fun v hv => ?_, fun n hn hnot => ?_⟩
  · rw [Recurrence.params, List.getElem?_append_left (List.getElem?_eq_some_iff.1 hn).1, hn]
  · have hmap : (point.map Value.num)[i]? = some (.num x) := by rw [List.getElem?_map, hx]; rfl
    rw [pointArgs, List.getElem?_append_left (List.getElem?_eq_some_iff.1 hmap).1, hmap]
  · obtain ⟨j, hj⟩ := List.getElem?_of_mem hv
    refine hfind (i := r.indices.length + j) ?_ ?_
    · rw [Recurrence.params, List.getElem?_append_right (by omega), Nat.add_sub_cancel_left, hj]
    · rw [pointArgs, List.getElem?_append_right (by simp [hrank]), List.length_map, hrank, Nat.add_sub_cancel_left,
        List.getElem?_map, hj]
      rfl
  · rw [Locals.find?_enter fun hmem => hnot (hnames n hmem)]
    exact Locals.find?_eq_none (by rwa [Locals.names_ofParams])

/-- What bodies introduce takes nothing away. -/
theorem HasPoint.congr (hs : r.HasPoint vars point s) (hparams : ∀ n ∈ r.params, ¬ Body.Introduced n)
    (hother : ∀ n, ¬ Body.Introduced n → s'.find? n = s.find? n) : r.HasPoint vars point s' := by
  refine ⟨fun i n x hn hx => ?_, fun v hv => ?_, fun n hn hnot => ?_⟩
  · rw [hother n (hparams n (List.mem_append_left _ (List.mem_of_getElem? hn)))]
    exact hs.index i n x hn hx
  · rw [hother v (hparams v (List.mem_append_right _ hv))]
    exact hs.var v hv
  · rw [hother n hnot]
    exact hs.free n hn hnot

/-- **A function provides what leaves read of the names that it has.** -/
theorem HasNames.provides {names : List String} (hs : r.HasNames vars point names s) (h : r.Scripted)
    (hp : r.Passable vars point) (hw : w.Elementary) (hnames : names ⊆ r.params) :
    w.Provides s ((r.pointScope vars point).only names) r.arrayVars := by
  refine ⟨hw.reads (fun n v hn => ?_) hs.free, fun n hn e he hne => ?_⟩
  · obtain ⟨hmem, hvalue⟩ : n ∈ names ∧ (r.pointScope vars point).value n = some v := by
      rw [Scope.only] at hn
      dsimp only at hn
      split at hn
      · next hmem => exact ⟨hmem, hn⟩
      · cases hn
    by_cases hi : n ∈ r.indices
    · rw [pointScope] at hvalue
      dsimp only at hvalue
      rw [if_pos (List.contains_iff_mem.2 hi)] at hvalue
      exact hs.index _ n v (List.getElem?_idxOf hi) hmem hvalue
    · have hscalar := scalar_of_pointScope hi hvalue
      rw [hs.var n ((List.mem_append.1 (hnames hmem)).resolve_left hi), RuntimeVars.script, hscalar]
      rfl
  · have hvar : n ∈ r.runtimeVars := h.built.arrays hn
    obtain ⟨xs, hxs, rfl⟩ := r.exists_of_pointScope_table point he hne
    refine ⟨Locals.read_of_find? ?_, hp.tables n hvar xs hxs⟩
    rw [hs.var n hvar, RuntimeVars.script, hxs]
    rfl

/-- A function that has a point has all of its indices. -/
theorem HasPoint.hasNames (hs : r.HasPoint vars point s) (h : r.Scripted) : r.HasNames vars point r.params s where
  index i n x hn _ hx := hs.index i n x hn hx
  var := hs.var
  free n hn := hs.free n (h.notMem_of_isElementary hn) fun hintroduced => hintroduced.not_isElementary hn

/-- **A function that has a point provides what the leaves of a recurrence read.** -/
theorem HasPoint.provides (hs : r.HasPoint vars point s) (h : r.Scripted) (hp : r.Passable vars point)
    (hw : w.Elementary) : w.Provides s ((r.pointScope vars point).only r.params) r.arrayVars :=
  (hs.hasNames h).provides h hp hw (List.Subset.refl _)

/-- **It has the values that the guards of a recurrence read.** -/
theorem HasPoint.reads (hs : r.HasPoint vars point s) (h : r.Scripted) (hp : r.Passable vars point)
    (hw : w.Elementary) : w.Reads s (r.pointEnv point) := by
  refine (hs.provides h hp hw).toReads.mono fun n v hn => ?_
  rw [pointEnv] at hn
  split at hn
  · next hi =>
    have hmem : n ∈ r.params := List.mem_append_left _ (List.contains_iff_mem.1 hi)
    rw [Scope.only]
    dsimp only
    rw [if_pos hmem, pointScope]
    dsimp only
    rw [if_pos hi, hn]
  · cases hn

/-! ## Calls -/

/-- What a call is in a script: the function of its target is called with the shifted indices and with the
runtime variables of the target. -/
def callScript (r : Recurrence) (resolve : Resolver) (c : Call) : Expression :=
  .call (.name (coeffName (c.target.getD r.name)))
    (r.indices.zipIdx.map (fun p => .shifted p.1 (c.shiftAt p.2)) ++ (r.callVars resolve c.target).map .name)

/-- A stored call goes to the recurrence itself or to one that it calls. -/
theorem Built.target_of_call (hr : r.Built) {e : Expr} (he : e ∈ r.exprs) {c : Call} (hc : .call c ∈ e.leaves) :
    isIdentifier (c.target.getD r.name) ∧
      (c.target.getD r.name = r.name ∨ r.Calls (c.target.getD r.name)) := by
  cases ht : c.target with
  | none => exact ⟨hr.isIdentifier_name, .inl rfl⟩
  | some t =>
    refine ⟨?_, (hr.target_cases he hc ht).imp_right mem_dependencies.1⟩
    cases (hr.reported.exprs e he).kept _ hc with
    | call htarget => exact htarget t ht

/-- What a call passes are runtime variables of the caller. -/
theorem Runnable.callVars_subset (h : r.Runnable resolve) {target : Option String}
    (htarget : target.getD r.name = r.name ∨ r.Calls (target.getD r.name)) :
    r.callVars resolve target ⊆ r.runtimeVars := by
  cases target with
  | none => exact List.Subset.refl _
  | some t =>
    rw [callVars]
    split
    · exact List.Subset.refl _
    · next hne =>
      cases hs : resolve t with
      | none => exact List.Subset.refl _
      | some s => exact h.vars t (htarget.resolve_left (by simpa using hne)) s hs

theorem intercalate_intercalate {sep : String} {as bs : List String} (h : as ≠ []) :
    sep.intercalate (sep.intercalate as :: bs) = sep.intercalate (as ++ bs) := by
  induction as with
  | nil => exact absurd rfl h
  | cons a as ih =>
    cases as with
    | nil => rw [String.intercalate_singleton, List.singleton_append]
    | cons a' as =>
      have ih := ih (List.cons_ne_nil a' as)
      rw [List.cons_append, List.cons_append, String.intercalate_cons_cons, String.intercalate_cons_cons,
        ← List.cons_append, ← ih]
      cases bs with
      | nil => rw [String.intercalate_singleton, String.intercalate_singleton]
      | cons b bs =>
        rw [String.intercalate_cons_cons, String.intercalate_cons_cons]
        simp only [String.append_assoc]

/-- **A call is rendered as an operand.** -/
theorem Runnable.exists_call (h : r.Runnable resolve) {o : CodegenOptions} (ho : o.target = .js) {e : Expr}
    (he : e ∈ r.exprs) {c : Call} (hc : .call c ∈ e.leaves) : ∃ text,
      renderExpr o.dialect (r.perValueCall o resolve) (.call c) = .ok text ∧
        IsText .operand text [r.callScript resolve c] := by
  obtain ⟨hid, htarget⟩ := h.built.target_of_call he hc
  have hindices : List.Forall₂ (fun t x => IsText .cond t [x]) (r.callArgs c)
      (r.indices.zipIdx.map fun p => .shifted p.1 (c.shiftAt p.2)) := by
    rw [callArgs, List.forall₂_map_left_iff, List.forall₂_map_right_iff, List.forall₂_same]
    intro p hp
    have hparam : p.1 ∈ r.params := List.mem_append_left _ (List.fst_mem_of_mem_zipIdx hp)
    exact (isText_shiftedIndex (h.isText_param hparam) _ (by decide : 1 ≤ 5)).cond
  have hvars : List.Forall₂ (fun t x => IsText .cond t [x]) (r.callVars resolve c.target)
      ((r.callVars resolve c.target).map .name) := by
    rw [List.forall₂_map_right_iff, List.forall₂_same]
    intro v hv
    have hparam : v ∈ r.params := List.mem_append_right _ (h.callVars_subset htarget hv)
    exact ((h.isText_param hparam).binary 1).cond
  have hne : r.callArgs c ≠ [] := by simp [callArgs, h.built.indices_ne_nil]
  have hargs := isText_args (List.rel_append hindices hvars) (List.append_ne_nil_of_left_ne_nil hne _)
  rw [← intercalate_intercalate hne] at hargs
  refine ⟨_, ?_, (isText_coeffName hid).call hargs⟩
  rw [renderExpr, perValueCall, ho]

theorem evalAll_of_forall₂ {names : Expression.Names Float} {functions : Expression.Functions Float}
    {es : List Expression} {vs : List (Value Float)}
    (h : List.Forall₂ (fun e v => e.eval names functions = .ok v) es vs) :
    Expression.evalAll names functions es = .ok vs := by
  induction h with
  | nil => rfl
  | cons he _ ih =>
    rw [Expression.evalAll, he, ih]
    rfl

/-- **What a call passes on** is the shifted point and the runtime variables. -/
theorem HasPoint.evalAll_args (hs : r.HasPoint vars point s) (hp : r.Passable vars point)
    (hnumbers : KnowsNumbers (s.read w.names)) (c : Call) {names : List String} (hnames : names ⊆ r.runtimeVars) :
    Expression.evalAll (s.read w.names) w.value
        (r.indices.zipIdx.map (fun p => .shifted p.1 (c.shiftAt p.2)) ++ names.map .name) =
      .ok (pointArgs names vars (shiftPoint point c)) := by
  refine evalAll_of_forall₂ (List.rel_append ?_ ?_)
  · rw [shiftPoint, List.map_map, List.forall₂_map_left_iff, List.forall₂_map_right_iff, List.forall₂_iff_get]
    refine ⟨by simp [hp.rank], fun i hi hi' => ?_⟩
    rw [List.length_zipIdx] at hi hi'
    have hindex := hs.index i _ _ (List.getElem?_eq_getElem hi) (List.getElem?_eq_getElem hi')
    have hx := hp.point _ (List.getElem_mem hi')
    have hvalue := eval_shifted hnumbers w.value (Locals.read_of_find? hindex) hx (c.shiftAt i)
    have hshift : point[i] + (c.wholeShiftAt i).toFloat = point[i] + ofInt (c.shiftAt i) := add_toFloat hx _
    simp only [List.get_eq_getElem, List.getElem_zipIdx, Nat.zero_add]
    exact hvalue.trans (congrArg (fun y => Except.ok (Value.num y)) hshift.symm)
  · rw [List.forall₂_map_left_iff, List.forall₂_map_right_iff, List.forall₂_same]
    intro v hv
    exact Locals.read_of_find? (hs.var v (hnames hv))

end

/-! ## What functions compute -/

/-- Calls that shift a point alike have the same value. -/
def RespectsShifts (call : Call → Except Error Float) : Prop :=
  ∀ c c' : Call, c.target = c'.target → c.shifts.map Whole.toInt = c'.shifts.map Whole.toInt → call c = call c'

/-- The functions around a running function give calls their values. -/
def Answers (r : Recurrence) (resolve : Resolver) (vars : RuntimeVars Float) (point : List Float)
    (call : Call → Except Error Float) (w : World Float) (calls : List Call) : Prop :=
  ∀ c ∈ calls, ∀ v, call c = .ok v → ∃ f, w.names (coeffName (c.target.getD r.name)) = .ok (.function f) ∧
    w.value f (pointArgs (r.callVars resolve c.target) vars (shiftPoint point c)) = .ok (.num v)

/-- A function that is called with a point gives back the value that an expression has there, if the functions
around it give the calls of the expression their values. -/
def Computes (r : Recurrence) (resolve : Resolver) (f : Script.Function Expression) (e : Expr) : Prop :=
  ∀ ⦃w : World Float⦄ ⦃vars : RuntimeVars Float⦄ ⦃point : List Float⦄ ⦃call : Call → Except Error Float⦄ ⦃x : Float⦄,
    w.Elementary → r.Passable vars point → RespectsShifts call → r.Answers resolve vars point call w e.calls →
    e.eval (r.pointScope vars point) call = .ok x → ∀ limits, ∃ args,
      f.run limits w (pointArgs r.runtimeVars vars point) = .ok ⟨.num x, args⟩

section
variable {r : Recurrence} {resolve : Resolver} {o : CodegenOptions} {vars : RuntimeVars Float} {point : List Float}
  {s : Locals Float} {w : World Float} {call : Call → Except Error Float}

/-- A call has its value in a script. -/
theorem Runnable.eval_call (h : r.Runnable resolve) {e : Expr} (he : e ∈ r.exprs) {c : Call}
    (hc : .call c ∈ e.leaves) (hs : r.HasPoint vars point s) (hp : r.Passable vars point) (hw : w.Elementary)
    (hcalls : r.Answers resolve vars point call w [c]) {v : Float} (hv : call c = .ok v) :
    w.eval s (r.callScript resolve c) = .ok (.num v) := by
  obtain ⟨-, htarget⟩ := h.built.target_of_call he hc
  obtain ⟨f, hf, hvalue⟩ := hcalls c (List.mem_singleton_self c) v hv
  have hname : s.read w.names (coeffName (c.target.getD r.name)) = .ok (.function f) := by
    rw [Locals.read, hs.free _ (h.functions _ htarget) (Body.not_introduced_coeffName _)]
    exact hf
  have hargs := hs.evalAll_args hp (hs.reads h.toScripted hp hw).numbers c (h.callVars_subset htarget)
  rw [World.eval, callScript, Expression.eval, Expression.eval, hname, hargs]
  exact hvalue

/-- A leaf that is a call or an operand is rendered as an operand. -/
theorem Runnable.exists_leaf (h : r.Runnable resolve) (ho : o.target = .js) {e l : Expr} (he : e ∈ r.exprs)
    (hl : l ∈ e.leaves) (hleaf : (∃ c, l = .call c) ∨ r.IsOperand l) : ∃ text,
      renderExpr o.dialect (r.perValueCall o resolve) l = .ok text ∧
        IsText .operand text [l.toScript (r.callScript resolve)] := by
  rcases hleaf with ⟨c, rfl⟩ | hoperand
  · exact h.exists_call ho he hl
  · exact h.exists_operand ho _ _ hoperand

/-- **A leaf has its value in a script** that was called with a point. -/
theorem Runnable.kept_leaf (h : r.Runnable resolve) {e l : Expr} (he : e ∈ r.exprs) (hl : l ∈ e.leaves)
    (hleaf : (∃ c, l = .call c) ∨ r.IsOperand l) (hs : r.HasPoint vars point s) (hp : r.Passable vars point)
    (hw : w.Elementary) (hcalls : r.Answers resolve vars point call w e.calls) :
    Expr.Kept (r.pointScope vars point) call (r.callScript resolve) (s.read w.names) w.value l := by
  intro v hv
  rcases hleaf with ⟨c, rfl⟩ | hoperand
  · have hmem : c ∈ e.calls := List.mem_filterMap.2 ⟨_, hl, rfl⟩
    exact h.eval_call he hl hs hp hw (List.forall_mem_singleton.2 (hcalls c hmem)) hv
  · refine h.kept_operand hoperand (hs.provides h.toScripted hp hw) call _ v ?_
    exact h.carries_only (h.value_elementary hp.elementary point) he hl call v hv

/-- The text of a leaf stands on the line that it is put on. -/
theorem Runnable.leadsInLine_leaf (h : r.Runnable resolve) (ho : o.target = .js) {e l : Expr} (he : e ∈ r.exprs)
    (hl : l ∈ e.leaves) (hleaf : (∃ c, l = .call c) ∨ r.IsOperand l) :
    l.HasText o.dialect (r.perValueCall o resolve) LeadsInLine := by
  have hd : o.dialect.target = .js := ho
  have hname {n : String} (hn : isIdentifier n) : LeadsInLine n := by
    simpa using leadsInLine_identifier hn ""
  intro text htext
  rcases hleaf with ⟨c, rfl⟩ | hoperand
  · rw [renderExpr, perValueCall, ho] at htext
    cases htext
    simp only [coeffName, String.append_assoc]
    exact leadsInLine_identifier (h.built.target_of_call he hl).1 _
  · cases hoperand with
    | number =>
      cases htext
      exact leadsInLine_number hd _
    | param hn =>
      cases htext
      exact hname (h.built.isIdentifier_param hn)
    | name hid =>
      cases htext
      exact hname hid
    | paren =>
      cases htext
      exact leadsInLine_of_head (by simp [isBlank])
    | index =>
      cases htext
      rw [Dialect.indexValue, hd]
      exact leadsInLine_paren _
    | lookup htable =>
      cases htext
      rw [String.append_assoc, String.append_assoc]
      exact leadsInLine_identifier (h.built.isIdentifier_param (List.mem_append_right _ (h.built.arrays htable))) _

/-! ## Expressions of rules -/

/-- An expression whose body can be read and run: its leaves are calls and operands, and its shared form has its
value. -/
structure Writable (r : Recurrence) (threshold : Int) (e : Expr) : Prop where
  regular : e.Regular
  leaves : ∀ l ∈ e.leaves, (∃ c, l = .call c) ∨ r.IsOperand l
  shared : Body.SharesValues r.indices threshold e

theorem Writable.refs {threshold : Int} {e : Expr} (h : r.Writable threshold e) : ∀ n, .ref n ∉ e.leaves := by
  intro n hn
  obtain ⟨c, hc⟩ | hoperand := h.leaves _ hn
  · cases hc
  · cases hoperand

/-- What has the shape of a rule, without negative zeros among its constants, has the value of its shared form. -/
theorem Scripted.sharesValues (h : r.Scripted) {e : Expr} (he : e.IsRule r.indices.length)
    (hz : e.NoNegativeZero) (threshold : Int) : Body.SharesValues r.indices threshold e := fun _ =>
  Interpretation.ofShared_share_of_isRule
    (fun i hi => comma_not_mem_of_isIdentifier (h.built.wellFormed.identifiers i hi))
    h.built.wellFormed.distinct le_rfl he hz _

/-- **The right-hand side of a rule can be read and run.** -/
theorem Scripted.writable_rule (h : r.Scripted) {rule : Rule} (hrule : rule ∈ r.rules) (threshold : Int) :
    r.Writable threshold rule.expr where
  regular := Expr.regular_of_isRuleShaped (h.built.readShaped.rules rule hrule)
  leaves _ hl := h.isOperand_rule hrule hl
  shared := h.sharesValues (h.balanced.rules rule hrule).1 (h.constants _ (expr_mem_exprs hrule)) threshold

/-! ## The functions of cases -/

/-- Names that bodies introduce can be declared besides the parameters. -/
theorem Runnable.canDeclareUnder (h : r.Runnable resolve) {names : List String} (hnodup : names.Nodup)
    (hintroduced : ∀ n ∈ names, Body.Introduced n) : canDeclareUnder r.params names = true := by
  have hwords : ∀ m ∈ "let" :: reservedWords, m.toList.head? ≠ some '_' := by decide
  have hword {m : String} (hm : m ∈ "let" :: reservedWords) : m ∉ names := fun hmem =>
    hwords m hm (hintroduced m hmem).underscore
  simp only [Script.canDeclareUnder, canDeclare, canBeParams, Bool.and_eq_true, decide_eq_true_eq,
    List.all_eq_true, Bool.not_eq_true', ← Bool.not_eq_true, List.contains_iff_mem]
  exact ⟨⟨⟨h.built.nodup_names, fun n hn => (h.names n hn).1⟩,
    ⟨hnodup, fun n hn hres => hword (List.mem_cons_of_mem _ hres) hn⟩, hword List.mem_cons_self⟩,
    fun n hn hparam => h.params n hparam (hintroduced n hn)⟩

/-- **The function of a base case** can be read, and it computes the value of the case. -/
theorem Runnable.exists_baseFunction (h : r.Runnable resolve) (ho : o.target = .js) {b : BaseCase}
    (hb : b ∈ r.bases) {text : String} (htext : renderExpr o.dialect (r.perValueCall o resolve) b.value = .ok text)
    (name : String) : ∃ f, readFunction ⟨name, r.params, [.ret text]⟩ = .ok f ∧ f.name = name ∧
      r.Computes resolve f b.value := by
  have he := value_mem_exprs hb
  have hleaf {l : Expr} (hl : l ∈ b.value.leaves) : (∃ c, l = .call c) ∨ r.IsOperand l :=
    .inr (h.isOperand_value hb hl)
  obtain ⟨text', htext', hscript⟩ := Expr.exists_script (h.balanced.values b hb).regular fun l hl =>
    h.exists_leaf ho he hl (hleaf hl)
  obtain rfl := Except.ok.inj (htext.symm.trans htext')
  have hlead : LeadsInLine text := Expr.text_of_leaves (closedTexts_leadsInLine ho) b.value
    (fun l hl => h.leadsInLine_leaf ho he hl (hleaf hl)) text htext
  have hread := (hscript.lower (by decide : 1 ≤ 5)).cond.readStmts_ret hlead
  have hnone : ∀ n ∈ ([] : List String), Body.Introduced n := by simp
  have hdeclared : declared [Stmt.ret text] = [] := rfl
  refine ⟨⟨name, r.params, [.ret (b.value.toScript (r.callScript resolve))]⟩, ?_, rfl, ?_⟩
  · rw [readFunction, hdeclared, h.canDeclareUnder List.nodup_nil hnone, hread]
    rfl
  · intro w vars point call x hw hp _ hcalls hx limits
    have hs : r.HasPoint vars point _ := hasPoint_params h.built h.params hp.rank hnone
    have hvalue := Expr.kept_of_leaves b.value
      (fun l hl => h.kept_leaf he hl (hleaf hl) hs hp hw hcalls) x hx
    exact exists_run_of_ret (runStmts_ret hvalue)

/-- **The function of a rule** can be read, and it computes the value of the rule. -/
theorem Runnable.exists_ruleFunction (h : r.Runnable resolve) (ho : o.target = .js) {g : RuleGuard}
    (hg : g.rule ∈ r.rules) {b : Body} (hb : r.ruleBody o resolve g = .ok b) (name : String) :
    ∃ f, readFunction ⟨name, r.params, ruleStatements g b⟩ = .ok f ∧ f.name = name ∧
      r.Computes resolve f g.rule.expr := by
  have he := expr_mem_exprs hg
  have hwritable := h.writable_rule hg o.cseThreshold
  have hleaf {l : Expr} (hl : l ∈ g.rule.expr.leaves) := hwritable.leaves l hl
  obtain ⟨es, x, hes, hdeclared, hscript⟩ :=
    Body.readStmts_of_render hb hwritable.regular hwritable.shared hwritable.refs fun l hl => by
      obtain ⟨text, htext, hscript⟩ := h.exists_leaf ho he hl (hleaf hl)
      exact ⟨text, _, htext, hscript⟩
  have hlead : LeadsInLine b.result := (Body.texts_of_render (closedTexts_leadsInLine ho)
    (fun n hn => by simpa using leadsInLine_name hn "")
    (fun l hl => h.leadsInLine_leaf ho he hl (hleaf hl)) hb).result
  have hintroduced := Body.introduced_of_render hb
  have hnames : declared (ruleStatements g b) = declared b.statements := by
    rw [ruleStatements, declared_append, declared_append, declared_nameComment, List.nil_append]
    exact List.append_nil _
  have hread : readStmts (ruleStatements g b) = .ok (nameComment g.rule.name ++ es ++ [.ret x]) :=
    readStmts_append (readStmts_append (readStmts_nameComment (h.titles g.rule hg)) hes)
      ((hscript.lower (by decide : 1 ≤ 5)).cond.readStmts_ret hlead)
  refine ⟨⟨name, r.params, nameComment g.rule.name ++ es ++ [.ret x]⟩, ?_, rfl, ?_⟩
  · rw [readFunction, hnames,
      h.canDeclareUnder (Body.renders_of_render hb).wellNamed.nodup hintroduced, hread]
    rfl
  · intro w vars point call v hw hp hrespects hcalls hv limits
    have hbody : declared (nameComment g.rule.name ++ es ++ [.ret x] : List (Stmt Expression)) =
        declared b.statements := by
      rw [declared_append, declared_append, declared_nameComment, List.nil_append, hdeclared]
      exact List.append_nil _
    generalize hparams : Locals.ofParams r.params (pointArgs r.runtimeVars vars point) = params
    have hs : r.HasPoint vars point (params.enter (declared b.statements)) :=
      hparams ▸ hasPoint_params h.built h.params hp.rank hintroduced
    obtain ⟨s', hrun, hvalue, -, -⟩ := Body.runStmts_of_render (w := w) hb hwritable.regular hwritable.shared
      hwritable.refs (s := params.enter (declared b.statements)) (by simp) hrespects (fun l hl => by
        obtain ⟨text, htext, hscript⟩ := h.exists_leaf ho he hl (hleaf hl)
        refine ⟨text, _, htext, hscript, fun v hv s' hnames hother => ?_⟩
        refine h.kept_leaf he hl (hleaf hl) (hs.congr h.params fun n hn => hother n ?_) hp hw hcalls v hv
        exact fun hmem => hn (hintroduced n hmem)) hv hes hscript limits
    refine exists_run_of_ret (s := s') ?_
    dsimp only
    rw [hbody, hparams, List.append_assoc, runStmts_append (runStmts_nameComment _ _), runStmts_append hrun]
    exact runStmts_ret hvalue

end

end Recurrence

end RecurrenceCompiler
