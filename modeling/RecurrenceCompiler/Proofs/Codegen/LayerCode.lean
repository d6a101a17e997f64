import RecurrenceCompiler.Proofs.Codegen.LayerChoice
import RecurrenceCompiler.Proofs.Codegen.SlotBodies
import RecurrenceCompiler.Proofs.Codegen.ValuePrograms

/-!
# Running the code of rule layers

The code of a group fills a layer role by role. The block of a role writes the value of its rule to the slots that
it is said to write (`runStmts_block`), so after all blocks a slot holds the value of the rule that writes it last
(`runStmts_roleCode`). That is the rule that interpretation selects at the point of the slot, so a layer holds what
interpretation derives if the layers that it reads do (`runStmts_derivable`).
-/

namespace RecurrenceCompiler

open Text Decimal Arith Script

namespace Recurrence

variable {r : Recurrence}

/-! ## Blocks -/

section
variable {g : LayerGroup} {lr : LayerRule} {env : Env Float} {size : Int} {k : Nat}

/-- The slots that a block writes, as integers. -/
theorem writes_zero (hrole : lr.role = .zero) (hsize : size.natAbs ≤ 2 ^ 53) (hk : k ≤ 2 ^ 53) :
    g.writes env (ofInt size) (ofInt k) lr = decide (0 < size ∧ k = 0) := by
  have hcount := isInt_ofInt hsize
  have hslot := isInt_ofInt (i := k) (by omega)
  rw [Bool.eq_iff_iff, decide_eq_true_iff, LayerGroup.writes, hrole]
  change (Carrier.lt (0.0 : Float) (ofInt size) && (0.0 : Float) == ofInt k) = true ↔ _
  rw [Bool.and_eq_true, indexArithmetic_double.lt_iff isInt_zero hcount,
    isInt_zero.isIntegral.beq_iff hslot.isIntegral, isInt_zero.toInt_eq, hslot.toInt_eq]
  omega

theorem writes_general {start : Int} (hrole : lr.role = .general start) (hsize : size.natAbs ≤ 2 ^ 53)
    (hk : k < 2 ^ 53) :
    g.writes env (ofInt size) (ofInt k) lr = decide (g.firstSlot start ≤ k ∧ (k : Int) < size) := by
  have hcount := isInt_ofInt hsize
  have hslot := isInt_ofInt (i := k) (by omega)
  have hat : IsSlot (ofInt k) := ⟨hslot.isIntegral, by rw [hslot.toInt_eq]; omega, by rw [hslot.toInt_eq]; omega⟩
  rw [Bool.eq_iff_iff, decide_eq_true_iff, LayerGroup.writes, hrole]
  change (decide (ofInt (g.firstSlot start) ≤ ofInt k) && Carrier.lt (ofInt k) (ofInt size)) = true ↔ _
  rw [Bool.and_eq_true, decide_eq_true_iff, indexArithmetic_double.lt_iff hslot hcount,
    (rounds_ofInt _).isIntegral.le_iff hslot.isIntegral, toInt_ofInt, hat.grid_le_iff, hslot.toInt_eq]

/-- A number that is a slot of a layer where it is between the ends of the layer. -/
def IsSlotIn (size : Int) (x : Float) : Prop :=
  Carrier.le (0.0 : Float) x = true → Carrier.lt x (ofInt size) = true → ∃ m : Nat, (m : Int) < size ∧ x = ofInt m

theorem writes_max {e : String} {x : Float} (hrole : lr.role = .max e) (hx : Arith.eval env e = .ok x) :
    g.writes env (ofInt size) (ofInt k) lr =
      (Carrier.le (0.0 : Float) x && Carrier.lt x (ofInt size) && Carrier.eq x (ofInt k)) := by
  rw [LayerGroup.writes, hrole]
  dsimp only
  rw [hx]
  rfl

end

/-- The slots after the block of a rule has run: those that it writes have the value of the rule. -/
def withBlock (g : LayerGroup) (env : Env Float) (size : Int) (value : Rule → Nat → Float) (f : Nat → Value Float)
    (lr : LayerRule) : Nat → Value Float :=
  fun k => if g.writes env (ofInt size) (ofInt k) lr then .num (value lr.rule k) else f k

/-! ### Blocks as scripts -/

section
variable {o : CodegenOptions} {plan : LayerPlan} {g : LayerGroup} {buffers : List Buffer} {lr : LayerRule}
  {role : RoleCode} {code : List (Stmt Expression)}

/-- A comment in front of statements stays one. -/
theorem readStmts_comment {t : String} (ht : isOneLine t) {ss : List (Stmt String)}
    (h : readStmts (.comment t :: ss) = .ok code) : ∃ rest, readStmts ss = .ok rest ∧ code = .comment t :: rest := by
  obtain ⟨first, hfirst, h⟩ := bind_ok h
  obtain ⟨rest, hrest, h⟩ := bind_ok h
  cases h
  cases (Body.readStmt_comment ht).symm.trans hfirst
  exact ⟨rest, hrest, rfl⟩

/-- What is read from a single statement. -/
theorem readStmts_single {stmt : Stmt String} (h : readStmts [stmt] = .ok code) : readStmt stmt = .ok code := by
  obtain ⟨first, hfirst, h⟩ := bind_ok h
  obtain ⟨rest, hrest, h⟩ := bind_ok h
  cases h
  cases hrest
  rw [hfirst, List.append_nil]

theorem isOneLine_append {l r : String} (hl : isOneLine l) (hr : isOneLine r) : isOneLine (l ++ r) := by
  rw [isOneLine, String.toList_append, List.all_append, Bool.and_eq_true]
  exact ⟨hl, hr⟩

theorem isOneLine_identifier {n : String} (h : isIdentifier n) : isOneLine n :=
  List.all_eq_true.2 fun c hc => by
    have hcontinues := continuesName_of_isNameRun (Dialect.isNameRun_of_isIdentifier h) c hc
    have hblank (hbreak : isLineBreak c = true) : isBlank c = true := by
      simp only [isLineBreak, Bool.or_eq_true, beq_iff_eq] at hbreak
      rcases hbreak with ((rfl | rfl) | hc) | hc <;> simp [isBlank, *]
    rw [Bool.not_eq_true', ← Bool.not_eq_true]
    intro hbreak
    rw [continuesName_of_isBlank (hblank hbreak)] at hcontinues
    cases hcontinues

/-- The block for slot zero, read as a script. -/
theorem reads_zeroCode (haux : isIdentifier plan.aux) (hcode : r.zeroCode o plan buffers lr = .ok role)
    (hread : readStmts role.2 = .ok code) : ∃ b body,
      r.layerBody o plan buffers (some 0) (lr.rule.expr.substitute (fixed plan.aux "0")) = .ok b ∧
      readStmts (writeSlot "0" b) = .ok body ∧
      code = [.comment (plan.aux ++ " = 0"), .when (.binary .gt (.name "N_VALUES") (.num 0.0)) body] := by
  obtain ⟨b, hb, hcode⟩ := bind_ok hcode
  cases hcode
  obtain ⟨rest, hrest, rfl⟩ := readStmts_comment (isOneLine_append (isOneLine_identifier haux) rfl) hread
  have hwhen := readStmts_single hrest
  rw [readStmt] at hwhen
  obtain ⟨c, hc, hwhen⟩ := bind_ok hwhen
  obtain ⟨⟨⟩, -, hwhen⟩ := bind_ok hwhen
  obtain ⟨body, hbody, hwhen⟩ := bind_ok hwhen
  cases hwhen
  cases readText_sizePositive.symm.trans hc
  exact ⟨b, body, hb, hbody, rfl⟩

/-- The block for the slots from a start on. -/
theorem reads_generalCode {start : Int} (hcode : r.generalCode o plan buffers start lr = .ok role)
    (hread : readStmts role.2 = .ok code) : ∃ b body, r.layerBody o plan buffers none lr.rule.expr = .ok b ∧
      readStmts (writeSlot plan.aux b) = .ok body ∧ code = [.loop plan.aux start body] := by
  obtain ⟨b, hb, hcode⟩ := bind_ok hcode
  cases hcode
  have hloop := readStmts_single hread
  rw [readStmt] at hloop
  obtain ⟨⟨⟩, -, hloop⟩ := bind_ok hloop
  obtain ⟨⟨⟩, -, hloop⟩ := bind_ok hloop
  obtain ⟨body, hbody, hloop⟩ := bind_ok hloop
  cases hloop
  exact ⟨b, body, hb, hbody, rfl⟩

/-- The condition that an index is at a slot of the layer. -/
abbrev isInLayer (aux : String) : Expression :=
  .both (.binary .ge (.name aux) (.num 0.0)) (.binary .lt (.name aux) (.name "N_VALUES"))

/-- The block for the one slot that an expression names. -/
theorem reads_maxCode {expr : String} (haux : IsText .operand plan.aux [.name plan.aux]) (hid : isIdentifier plan.aux)
    (hexpr : isOneLine expr) (hcode : r.maxCode o plan buffers expr lr = .ok role)
    (hread : readStmts role.2 = .ok code) : ∃ b body e, r.layerBody o plan buffers none lr.rule.expr = .ok b ∧
      readStmts (writeSlot plan.aux b) = .ok body ∧ readText expr = .ok e ∧
      code = [.comment (plan.aux ++ " = " ++ expr),
        .block [.index plan.aux e, .when (isInLayer plan.aux) body]] := by
  obtain ⟨b, hb, hcode⟩ := bind_ok hcode
  cases hcode
  have htitle := isOneLine_append (isOneLine_append (isOneLine_identifier hid) (by rfl : isOneLine " = ")) hexpr
  obtain ⟨rest, hrest, rfl⟩ := readStmts_comment htitle hread
  have hblock := readStmts_single hrest
  rw [readStmt] at hblock
  obtain ⟨⟨⟩, -, hblock⟩ := bind_ok hblock
  obtain ⟨inner, hinner, hblock⟩ := bind_ok hblock
  cases hblock
  obtain ⟨e, body, he, hbody, rfl⟩ := readStmts_slot haux hinner
  exact ⟨b, body, e, hb, hbody, he, rfl⟩

end

/-! ### Running blocks -/

section
variable {o : CodegenOptions} {plan : LayerPlan} {g : LayerGroup} {buffers : List Buffer} {layer : String → Int}
  {size : Int} {vars : RuntimeVars Float} {w : World Float} {s : Locals Float} {limits : Limits} {length : Nat}
  {call : Nat → Call → Except Error Float} {value : Rule → Nat → Float} {env : Env Float} {lr : LayerRule}
  {role : RoleCode} {code : List (Stmt Expression)} {f : Nat → Value Float} {named : List (String × Value Float)}

variable (h : r.RunnableGroup plan g buffers) (ho : o.target = .js) (hw : w.Elementary)
  (hvars : ∀ fn : MathFn, vars fn.name = none)
  (htables : ∀ v ∈ r.runtimeVars, ∀ xs, vars v = some (.table xs) → xs.length < 2 ^ 32)
  (hpos : 0 ≤ size) (hsize : size ≤ length) (hlength : length < 2 ^ 32) (hpasses : size < limits.passes)
  (hrespects : ∀ k, RespectsShifts (call k)) (hs : r.HasRuleLayer plan layer size vars w s)
  (hfinds : ∀ lr ∈ g.rules, ∀ c ∈ lr.rule.expr.calls, ∀ k : Nat, (k : Int) < size → ∀ v, call k c = .ok v →
    r.Finds plan buffers s k c v)
  (henv : r.layerEnvAt plan.aux (r.layerPoint plan.aux layer 0) = env) (hlr : lr ∈ g.rules)
  (hvalue : ∀ k : Nat, (k : Int) < size → g.writes env (ofInt size) (ofInt k) lr = true →
    lr.rule.expr.eval (r.pointScope vars (r.layerPoint plan.aux layer k)) (call k) = .ok (value lr.rule k))
  (hread : readStmts role.2 = .ok code)
  (hfind : s.find? "out" = some ⟨"out", some (Value.slots length f named)⟩)

include h ho hw hvars htables hpos hsize hlength hrespects hs hfinds hlr hvalue hread hfind

/-- **The block for slot zero** writes it if the layer has it. -/
theorem RunnableGroup.runStmts_zero (hrole : lr.role = .zero) (hcode : r.zeroCode o plan buffers lr = .ok role) :
    ∃ t, runStmts limits w s code = .ok (t, none) ∧ Wrote s t length (withBlock g env size value f lr) := by
  obtain ⟨b, body, hb, hbody, rfl⟩ :=
    reads_zeroCode (h.scripted.built.wellFormed.identifiers _ h.aux) hcode hread
  have hwrites {k : Nat} (hk : k < length) :
      g.writes env (ofInt size) (ofInt k) lr = decide (0 < size ∧ k = 0) :=
    writes_zero hrole (by omega) (by omega)
  have hcount : w.eval s (.name "N_VALUES") = .ok (.num (ofInt size)) := hs.count
  have htest : w.test s (.binary .gt (.name "N_VALUES") (.num 0.0)) = .ok (decide (0 < size)) := by
    rw [World.test_binary hcount rfl]
    refine congrArg Except.ok (Bool.eq_iff_iff.2 ?_)
    rw [decide_eq_true_iff]
    exact indexArithmetic_double.lt_iff isInt_zero (isInt_ofInt (by omega))
  have hfills : decide (0 < size) = true → FillsSlot limits w length body s 0 (.num (value lr.rule 0)) := fun hsome =>
    have hsome := of_decide_eq_true hsome
    h.fillsSlot_zero ho hw hvars htables hsize hlength hrespects hs hfinds hlr hrole hb hbody hsome
      (hvalue 0 hsome (by rw [hwrites (by omega)]; simpa using hsome))
  obtain ⟨t, hrun, hwrote⟩ := runStmt_when htest hfind hfills
  refine ⟨t, ?_, hwrote.congr fun k hk => ?_⟩
  · rw [runStmts, runStmt]
    exact runStmts_singleton hrun
  · rw [withBlock, hwrites hk]
    by_cases hsome : 0 < size
    · by_cases hzero : k = 0
      · subst hzero
        simp [hsome]
      · simp [hsome, hzero]
    · simp [hsome]

include hpasses in
/-- **The block for the slots from a start on** writes those of the layer. -/
theorem RunnableGroup.runStmts_general {start : Int} (hrole : lr.role = .general start)
    (hcode : r.generalCode o plan buffers (g.firstSlot start) lr = .ok role) :
    ∃ t, runStmts limits w s code = .ok (t, none) ∧ Wrote s t length (withBlock g env size value f lr) := by
  obtain ⟨b, body, hb, hbody, rfl⟩ := reads_generalCode hcode hread
  have hparam := h.params _ (List.mem_append_left _ h.aux)
  have hwrites {k : Nat} (hk : k < length) :
      g.writes env (ofInt size) (ofInt k) lr = decide (g.firstSlot start ≤ k ∧ (k : Int) < size) :=
    writes_general hrole (by omega) (by omega)
  have hstart : 0 ≤ g.firstSlot start := by
    have hstart := h.starts lr hlr start hrole
    rw [LayerGroup.firstSlot]
    split <;> omega
  obtain ⟨t, hrun, hwrote⟩ := runStmt_fillFrom (fun k => .num (value lr.rule k)) hs.count hfind hs.aux hparam.1
    hparam.2.1 hstart hpos hsize hlength hpasses fun k t hk hlt ht =>
      h.fillsSlot ho hw hvars htables hsize hlength hrespects hs hfinds hlr hb hbody hlt
        ⟨ht.others, fun n hn => by simpa [ht.names] using hn⟩ ht.index
        (hvalue k hlt (by rw [hwrites (by omega)]; simpa using ⟨hk, hlt⟩))
  refine ⟨t, runStmts_singleton hrun, hwrote.congr fun k hk => ?_⟩
  rw [withBlock, hwrites hk]
  simp

omit ho hvars htables hpos hsize hlength hrespects hfinds hlr hvalue hread hfind in
include henv in
/-- A function that computes a layer reads the layer indices, also where the auxiliary index has no value yet. -/
theorem RunnableGroup.reads_layer : w.Reads (s.enter [plan.aux]) env := by
  have hkept {n : String} (hne : n ≠ plan.aux) : (s.enter [plan.aux]).find? n = s.find? n :=
    Locals.find?_enter (by simpa using hne)
  refine hw.reads (fun n v hn => ?_) fun n hn => ?_
  · rw [← henv, layerEnvAt] at hn
    split at hn
    · cases hn
    · next hne =>
      have hne : n ≠ plan.aux := by simpa using hne
      rw [pointEnv] at hn
      split at hn
      · next hmem =>
        have hmem := List.contains_iff_mem.1 hmem
        rw [getElem?_layerPoint (List.getElem?_idxOf hmem), if_neg hne, Option.some.injEq] at hn
        rw [hkept hne, ← hn]
        refine hs.index n ?_
        rw [h.indices, List.mem_filter]
        exact ⟨hmem, by simpa using hne⟩
      · cases hn
  · have hne : n ≠ plan.aux := by
      rintro rfl
      exact h.scripted.notMem_of_isElementary hn (List.mem_append_left _ h.aux)
    rw [hkept hne]
    exact Locals.find?_eq_none (hs.free n (.inl hn))

omit hpos in
include henv in
/-- **The block for the one slot that an expression names** writes it if it is one of the layer. -/
theorem RunnableGroup.runStmts_max {e : String} (hrole : lr.role = .max e) {x : Float}
    (hx : Arith.eval env e = .ok x) (hslot : IsSlotIn size x) (hcode : r.maxCode o plan buffers e lr = .ok role) :
    ∃ t, runStmts limits w s code = .ok (t, none) ∧ Wrote s t length (withBlock g env size value f lr) := by
  have hmem : plan.aux ∈ r.params := List.mem_append_left _ h.aux
  have hparam := h.params _ hmem
  obtain ⟨hline, hreadable⟩ := h.slots lr hlr e hrole
  obtain ⟨b, body, y, hb, hbody, hy, rfl⟩ := reads_maxCode (h.scripted.isText_param hmem)
    (h.scripted.built.wellFormed.identifiers _ h.aux) hline hcode hread
  -- The scope of the block, once the index has its value.
  have hindex : runStmt limits w (s.enter [plan.aux]) (.index plan.aux y) =
      .ok ((s.enter [plan.aux]).assign plan.aux (.num x), none) := by
    obtain ⟨y', hy', hside⟩ := hreadable.isSide
    obtain rfl := Except.ok.inj ((hy'.lower (by decide : 1 ≤ 5)).cond.readText.symm.trans hy)
    rw [runStmt, hside (h.reads_layer hw hs henv) x hx]
    rfl
  generalize hinner : (s.enter [plan.aux]).assign plan.aux (.num x) = inner at hindex
  have hnames : inner.names = plan.aux :: s.names := by
    rw [← hinner, Locals.names_assign, Locals.names_enter]
    rfl
  have hat : inner.find? plan.aux = some ⟨plan.aux, some (.num x)⟩ := by
    rw [← hinner]
    exact Locals.find?_assign_self (by simp)
  have hother : ∀ n, n ≠ plan.aux → inner.find? n = s.find? n := by
    intro n hn
    rw [← hinner, Locals.find?_assign_of_ne hn, Locals.find?_enter (by simpa using hn)]
  have hcount : w.eval inner (.name "N_VALUES") = .ok (.num (ofInt size)) :=
    (Locals.read_congr (hother _ (Ne.symm hparam.2.1))).trans hs.count
  have hvaluex : w.eval inner (.name plan.aux) = .ok (.num x) := Locals.read_of_find? hat
  have htest : w.test inner (isInLayer plan.aux) =
      .ok (Carrier.le (0.0 : Float) x && Carrier.lt x (ofInt size)) := by
    have hzero : w.eval inner (.num 0.0) = .ok (.num 0.0) := rfl
    rw [World.test_both_of (World.test_binary hvaluex hzero), World.test_binary hvaluex hcount]
    have hle : (Value.num (0.0 : Float)).lessEq (.num x) = Carrier.le (0.0 : Float) x := rfl
    have hlt : (Value.num x).less (.num (ofInt size)) = Carrier.lt x (ofInt size) := rfl
    simp only [Operator.apply, Value.holds, hle, hlt]
    cases Carrier.le (0.0 : Float) x <;> rfl
  have hout := (hother "out" (Ne.symm hparam.1)).trans hfind
  -- In the block the buffer is written where the test holds.
  obtain ⟨t, hrun, hwrote⟩ : ∃ t, runStmt limits w inner (.when (isInLayer plan.aux) body) = .ok (t, none) ∧
      Wrote inner t length (withBlock g env size value f lr) := by
    have hwrites (k : Nat) : g.writes env (ofInt size) (ofInt k) lr =
        (Carrier.le (0.0 : Float) x && Carrier.lt x (ofInt size) && Carrier.eq x (ofInt k)) := writes_max hrole hx
    cases hin : Carrier.le (0.0 : Float) x && Carrier.lt x (ofInt size) with
    | false =>
      rw [hin] at htest
      have hfills : false = true → FillsSlot limits w length body inner 0 (.num 0) := fun hfalse => by cases hfalse
      obtain ⟨t, hrun, hwrote⟩ := runStmt_when htest hout hfills
      refine ⟨t, hrun, hwrote.congr fun k _ => ?_⟩
      rw [withBlock, hwrites, hin]
      rfl
    | true =>
      rw [hin] at htest
      obtain ⟨m, hlt, rfl⟩ := hslot (Bool.and_eq_true_iff.1 hin).1 (Bool.and_eq_true_iff.1 hin).2
      have hequal {k : Nat} (hk : k < length) : Carrier.eq (ofInt m) (ofInt k) = decide (m = k) := by
        have hm := isInt_ofInt (i := m) (by omega)
        have hk := isInt_ofInt (i := k) (by omega)
        rw [Bool.eq_iff_iff, decide_eq_true_iff]
        refine (hm.isIntegral.beq_iff hk.isIntegral).trans ?_
        rw [hm.toInt_eq, hk.toInt_eq]
        omega
      have hwritten : g.writes env (ofInt size) (ofInt m) lr = true := by
        rw [hwrites, hin, hequal (by omega)]
        simp
      obtain ⟨t, hrun, hwrote⟩ := runStmt_when htest hout fun _ =>
        h.fillsSlot ho hw hvars htables hsize hlength hrespects hs hfinds hlr hb hbody hlt
          ⟨fun n _ hn => hother n hn, fun n hn => by simpa [hnames] using hn⟩ hat (hvalue m hlt hwritten)
      refine ⟨t, hrun, hwrote.congr fun k hk => ?_⟩
      rw [withBlock, hwrites, hin, hequal hk, if_pos rfl, Function.update_apply]
      by_cases heq : k = m
      · simp [heq]
      · simp [heq, Ne.symm heq]
  refine ⟨s.leave t, ?_, .leave (hwrote.names.trans hnames)
    (fun n hn hne => (hwrote.others n hn).trans (hother n hne)) hwrote.out hs.aux hparam.1⟩
  have hdeclared : declared [Stmt.index plan.aux y, .when (isInLayer plan.aux) body] = [plan.aux] := rfl
  have hblock : runStmts limits w (s.enter [plan.aux]) [.index plan.aux y, .when (isInLayer plan.aux) body] =
      .ok (t, none) := by
    rw [runStmts, hindex]
    exact runStmts_singleton hrun
  rw [runStmts, runStmt]
  refine runStmts_singleton ?_
  rw [runStmt, hdeclared, hblock]
  rfl

include henv hpasses in
/-- **The block of a rule writes the slots that it is said to write**, and no others. -/
theorem RunnableGroup.runStmts_block (hslots : ∀ e, lr.role = .max e → ∃ x, Arith.eval env e = .ok x ∧ IsSlotIn size x)
    (hcode : r.blockCode o plan g buffers lr = .ok role) :
    ∃ t, runStmts limits w s code = .ok (t, none) ∧ Wrote s t length (withBlock g env size value f lr) := by
  cases hrole : lr.role with
  | zero =>
    rw [blockCode, hrole] at hcode
    exact h.runStmts_zero ho hw hvars htables hpos hsize hlength hrespects hs hfinds hlr hvalue hread hfind hrole hcode
  | general start =>
    rw [blockCode, hrole] at hcode
    exact h.runStmts_general ho hw hvars htables hpos hsize hlength hpasses hrespects hs hfinds hlr hvalue hread hfind
      hrole hcode
  | max e =>
    rw [blockCode, hrole] at hcode
    obtain ⟨x, hx, hslot⟩ := hslots e hrole
    exact h.runStmts_max ho hw hvars htables hsize hlength hrespects hs hfinds henv hlr hvalue hread hfind hrole hx
      hslot hcode

end

/-! ## Groups -/

/-- Statements that are read one after another. -/
theorem exists_of_readStmts_append {ss ts : List (Stmt String)} {code : List (Stmt Expression)}
    (h : readStmts (ss ++ ts) = .ok code) :
    ∃ front back, readStmts ss = .ok front ∧ readStmts ts = .ok back ∧ code = front ++ back := by
  induction ss generalizing code with
  | nil => exact ⟨[], code, rfl, h, rfl⟩
  | cons s ss ih =>
    obtain ⟨first, hfirst, h⟩ := bind_ok h
    obtain ⟨rest, hrest, h⟩ := bind_ok h
    cases h
    obtain ⟨front, back, hfront, hback, rfl⟩ := ih hrest
    refine ⟨first ++ front, back, ?_, hback, (List.append_assoc ..).symm⟩
    rw [readStmts, hfirst, hfront]
    rfl

/-- After blocks have run, a slot has the value of the rule whose block writes it last. -/
theorem foldl_withBlock {g : LayerGroup} {env : Env Float} {size : Int} {value : Rule → Nat → Float}
    {f : Nat → Value Float} (lrs : List LayerRule) (k : Nat) :
    lrs.foldl (withBlock g env size value) f k =
      (((lrs.filter (g.writes env (ofInt size) (ofInt k))).getLast?.map (·.rule)).map fun ρ =>
        Value.num (value ρ k)).getD (f k) := by
  induction lrs generalizing f with
  | nil => rfl
  | cons lr lrs ih =>
    rw [List.foldl_cons, ih, withBlock, List.filter_cons]
    split
    · cases hrest : (lrs.filter (g.writes env (ofInt size) (ofInt k))) with
      | nil => rfl
      | cons lr' rest =>
        rw [List.getLast?_cons_cons, List.getLast?_eq_some_getLast (List.cons_ne_nil lr' rest)]
        rfl
    · rfl

section
variable {o : CodegenOptions} {plan : LayerPlan} {g : LayerGroup} {buffers : List Buffer} {layer : String → Int}
  {size : Int} {vars : RuntimeVars Float} {w : World Float} {limits : Limits} {length : Nat}
  {call : Nat → Call → Except Error Float} {value : Rule → Nat → Float} {env : Env Float}

variable (h : r.RunnableGroup plan g buffers) (ho : o.target = .js) (hw : w.Elementary)
  (hvars : ∀ fn : MathFn, vars fn.name = none)
  (htables : ∀ v ∈ r.runtimeVars, ∀ xs, vars v = some (.table xs) → xs.length < 2 ^ 32)
  (hpos : 0 ≤ size) (hsize : size ≤ length) (hlength : length < 2 ^ 32) (hpasses : size < limits.passes)
  (hrespects : ∀ k, RespectsShifts (call k))
  (henv : r.layerEnvAt plan.aux (r.layerPoint plan.aux layer 0) = env)
  (hslots : ∀ lr ∈ g.rules, ∀ e, lr.role = .max e → ∃ x, Arith.eval env e = .ok x ∧ IsSlotIn size x)
  (hvalue : ∀ lr ∈ g.rules, ∀ k : Nat, (k : Int) < size → g.writes env (ofInt size) (ofInt k) lr = true →
    lr.rule.expr.eval (r.pointScope vars (r.layerPoint plan.aux layer k)) (call k) = .ok (value lr.rule k))

include h ho hw hvars htables hpos hsize hlength hpasses hrespects henv hslots hvalue

/-- Blocks that run one after another. -/
theorem RunnableGroup.runStmts_blocks {lrs : List LayerRule} (hlrs : ∀ lr ∈ lrs, lr ∈ g.rules)
    {roles : List RoleCode}
    (hroles : List.Forall₂ (fun lr role => r.blockCode o plan g buffers lr = .ok role) lrs roles) :
    ∀ {code : List (Stmt Expression)} {s : Locals Float} {f : Nat → Value Float} {named : List (String × Value Float)},
      readStmts (roles.flatMap (·.2)) = .ok code → r.HasRuleLayer plan layer size vars w s →
      (∀ lr ∈ g.rules, ∀ c ∈ lr.rule.expr.calls, ∀ k : Nat, (k : Int) < size → ∀ v, call k c = .ok v →
        r.Finds plan buffers s k c v) →
      s.find? "out" = some ⟨"out", some (Value.slots length f named)⟩ →
      ∃ t, runStmts limits w s code = .ok (t, none) ∧
        Wrote s t length (lrs.foldl (withBlock g env size value) f) := by
  induction hroles with
  | nil =>
    intro code s f named hread _ _ hfind
    cases hread
    exact ⟨s, rfl, .refl hfind⟩
  | @cons lr role lrs roles hcode _ ih =>
    intro code s f named hread hs hfinds hfind
    rw [List.forall_mem_cons] at hlrs
    rw [List.flatMap_cons] at hread
    obtain ⟨front, back, hfront, hback, rfl⟩ := exists_of_readStmts_append hread
    obtain ⟨t, hrun, hwrote⟩ := h.runStmts_block ho hw hvars htables hpos hsize hlength hpasses hrespects hs hfinds
      henv hlrs.1 (hvalue lr hlrs.1) hfront hfind (hslots lr hlrs.1) hcode
    obtain ⟨named', hfind'⟩ := hwrote.out
    obtain ⟨u, hrest, hwrote'⟩ := ih hlrs.2 hback (hs.wrote h hwrote) (fun lr hlr c hc k hk v hv =>
      (hfinds lr hlr c hc k hk v hv).congr fun b hb _ => hwrote.others b.name (h.names b hb).2.1) hfind'
    exact ⟨u, (runStmts_append hrun).trans hrest, hwrote.trans hwrote'⟩

/-- **The code of a group leaves each slot with the value of the rule that writes it last**, and slots that no rule
writes as they were. -/
theorem RunnableGroup.runStmts_roleCode {roles : List RoleCode} (hroles : r.roleCode o plan g buffers = .ok roles)
    {code : List (Stmt Expression)} (hread : readStmts (roles.flatMap (·.2)) = .ok code) {s : Locals Float}
    (hs : r.HasRuleLayer plan layer size vars w s)
    (hfinds : ∀ lr ∈ g.rules, ∀ c ∈ lr.rule.expr.calls, ∀ k : Nat, (k : Int) < size → ∀ v, call k c = .ok v →
      r.Finds plan buffers s k c v)
    {f : Nat → Value Float} {named : List (String × Value Float)}
    (hfind : s.find? "out" = some ⟨"out", some (Value.slots length f named)⟩) :
    ∃ t, runStmts limits w s code = .ok (t, none) ∧ Wrote s t length fun k =>
      ((g.writer? env (ofInt size) (ofInt k)).map fun ρ => Value.num (value ρ k)).getD (f k) := by
  rw [roleCode_eq] at hroles
  obtain ⟨t, hrun, hwrote⟩ := h.runStmts_blocks ho hw hvars htables hpos hsize hlength hpasses hrespects henv hslots
    hvalue (fun lr hlr => LayerGroup.mem_of_mem_blocks hlr) (forall₂_of_mapM hroles) hread hs hfinds hfind
  exact ⟨t, hrun, hwrote.congr fun k _ => foldl_withBlock g.blocks k⟩

end

/-! ## Layers and interpretation -/

/-- Only slots of the layer are written. -/
theorem lt_of_writes {g : LayerGroup} {lr : LayerRule} {env : Env Float} {size : Int} {k : Nat}
    (hsize : size.natAbs ≤ 2 ^ 53) (hk : k < 2 ^ 53) (hslots : ∀ e, lr.role = .max e → ∃ x,
      Arith.eval env e = .ok x ∧ IsSlotIn size x) (h : g.writes env (ofInt size) (ofInt k) lr = true) :
    (k : Int) < size := by
  cases hrole : lr.role with
  | zero =>
    rw [writes_zero hrole hsize hk.le, decide_eq_true_iff] at h
    omega
  | general start =>
    rw [writes_general hrole hsize hk, decide_eq_true_iff] at h
    exact h.2
  | max e =>
    obtain ⟨x, hx, hslot⟩ := hslots e hrole
    rw [writes_max hrole hx, Bool.and_eq_true, Bool.and_eq_true] at h
    obtain ⟨m, hm, rfl⟩ := hslot h.1.1 h.1.2
    have hm' := isInt_ofInt (i := m) (by omega)
    have hk' := isInt_ofInt (i := k) (by omega)
    have heq := (hm'.isIntegral.beq_iff hk'.isIntegral).1 h.2
    rw [hm'.toInt_eq, hk'.toInt_eq] at heq
    omega

section
variable {o : CodegenOptions} {resolve : Resolver} {padding : Amount} {plan : LayerPlan} {g : LayerGroup}
  {buffers : List Buffer} {layer : String → Int} {size : Int} {vars : RuntimeVars Float} {w : World Float}
  {limits : Limits} {length : Nat} {env : Env Float} {value : Nat → Float}

/-- What is derived at a slot of a rule layer is the value of the rule that writes the slot last, zero if none
does. -/
theorem writer?_of_derivable (hr : r.Built) (hplan : r.planLayers padding = .ok plan) (haux : r.AuxBounded plan)
    (hgroup : plan.groupAt? r env = some g) {k : Nat}
    (henv : r.layerEnvAt plan.aux (r.layerPoint plan.aux layer k) = env)
    (hslot : r.AtSlot plan (r.layerPoint plan.aux layer k) (ofInt size) (ofInt k))
    (hbase : ¬ r.AtBaseLayer plan (r.layerPoint plan.aux layer k)) {x : Float}
    (hx : Derivable resolve vars r (r.layerPoint plan.aux layer k) x) :
    (∀ ρ, g.writer? env (ofInt size) (ofInt k) = some ρ →
      ρ.expr.eval (r.pointScope vars (r.layerPoint plan.aux layer k))
        (derivedCall resolve vars r (r.layerPoint plan.aux layer k)) = .ok x) ∧
    (g.writer? env (ofInt size) (ofInt k) = none → x = 0.0) := by
  have hplanned := planned_of_planLayersIn hplan
  obtain ⟨chosen, hselect, hvalue⟩ := hx.exists_selected
  obtain ⟨found, hfound, rfl⟩ := hplanned.selected_rule hr.wellFormed hbase hselect
  have hwriter := hslot.writer?_eq_selected hr.wellFormed hplanned haux hfound
  rw [henv, LayerPlan.writer?, hgroup, Option.bind_some] at hwriter
  rw [hwriter]
  constructor
  · rintro ρ rfl
    exact hvalue
  · rintro rfl
    cases hvalue
    rfl

/-- **The rule code of a layer computes what interpretation derives.** If the buffers hold the values that are
derived at the points of the calls, and each rule that writes a slot has a value there, then a layer of zeros
becomes the layer of the values that are derived at the points of its slots. -/
theorem RunnableGroup.runStmts_derivable (h : r.RunnableGroup plan g buffers)
    (hplan : r.planLayers padding = .ok plan) (haux : r.AuxBounded plan) (ho : o.target = .js) (hw : w.Elementary)
    (hvars : ∀ fn : MathFn, vars fn.name = none)
    (htables : ∀ v ∈ r.runtimeVars, ∀ xs, vars v = some (.table xs) → xs.length < 2 ^ 32)
    (hpos : 0 ≤ size) (hsize : size ≤ length) (hlength : length < 2 ^ 32) (hpasses : size < limits.passes)
    (henv : r.layerEnvAt plan.aux (r.layerPoint plan.aux layer 0) = env) (hgroup : plan.groupAt? r env = some g)
    (hslots : ∀ lr ∈ g.rules, ∀ e, lr.role = .max e → ∃ x, Arith.eval env e = .ok x ∧ IsSlotIn size x)
    (hat : ∀ k : Nat, (k : Int) < size → r.AtSlot plan (r.layerPoint plan.aux layer k) (ofInt size) (ofInt k) ∧
      ¬ r.AtBaseLayer plan (r.layerPoint plan.aux layer k) ∧
      Derivable resolve vars r (r.layerPoint plan.aux layer k) (value k))
    (hwritten : ∀ lr ∈ g.rules, ∀ k : Nat, (k : Int) < size → g.writes env (ofInt size) (ofInt k) lr = true →
      ∃ v, lr.rule.expr.eval (r.pointScope vars (r.layerPoint plan.aux layer k))
        (derivedCall resolve vars r (r.layerPoint plan.aux layer k)) = .ok v)
    {roles : List RoleCode} (hroles : r.roleCode o plan g buffers = .ok roles) {code : List (Stmt Expression)}
    (hread : readStmts (roles.flatMap (·.2)) = .ok code) {s : Locals Float}
    (hs : r.HasRuleLayer plan layer size vars w s)
    (hfinds : ∀ lr ∈ g.rules, ∀ c ∈ lr.rule.expr.calls, ∀ k : Nat, (k : Int) < size → ∀ v,
      derivedCall resolve vars r (r.layerPoint plan.aux layer k) c = .ok v → r.Finds plan buffers s k c v)
    {named : List (String × Value Float)}
    (hfind : s.find? "out" = some ⟨"out", some (Value.slots length (fun _ => .num 0.0) named)⟩) :
    ∃ t, runStmts limits w s code = .ok (t, none) ∧
      Wrote s t length fun k => .num (if (k : Int) < size then value k else 0.0) := by
  let result (ρ : Rule) (k : Nat) : Float := (ρ.expr.eval (r.pointScope vars (r.layerPoint plan.aux layer k))
    (derivedCall resolve vars r (r.layerPoint plan.aux layer k))).toOption.getD 0.0
  have hresult {ρ : Rule} {k : Nat} {v : Float} (hv : ρ.expr.eval (r.pointScope vars (r.layerPoint plan.aux layer k))
      (derivedCall resolve vars r (r.layerPoint plan.aux layer k)) = .ok v) : result ρ k = v := by
    simp only [result, hv]
    rfl
  have hvalue : ∀ lr ∈ g.rules, ∀ k : Nat, (k : Int) < size → g.writes env (ofInt size) (ofInt k) lr = true →
      lr.rule.expr.eval (r.pointScope vars (r.layerPoint plan.aux layer k))
        (derivedCall resolve vars r (r.layerPoint plan.aux layer k)) = .ok (result lr.rule k) := by
    intro lr hlr k hk hwrites
    obtain ⟨v, hv⟩ := hwritten lr hlr k hk hwrites
    rw [hv, hresult hv]
  obtain ⟨t, hrun, hwrote⟩ := h.runStmts_roleCode ho hw hvars htables hpos hsize hlength hpasses
    (fun k => respectsShifts_derivedCall (passable_layerPoint hvars htables).point) henv hslots hvalue hroles hread hs
    hfinds hfind
  refine ⟨t, hrun, hwrote.congr fun k hk => ?_⟩
  split
  · next hlt =>
    obtain ⟨hslot, hbase, hderives⟩ := hat k hlt
    obtain ⟨hsome, hnone⟩ := writer?_of_derivable h.scripted.built hplan haux hgroup
      ((layerEnvAt_layerPoint 0).trans henv) hslot hbase hderives
    cases hwriter : g.writer? env (ofInt size) (ofInt k) with
    | none => rw [hnone hwriter]; rfl
    | some ρ =>
      rw [Option.map_some, Option.getD_some, hresult (hsome ρ hwriter)]
  · next hge =>
    have hnone : g.writer? env (ofInt size) (ofInt k) = none := writer?_eq_none fun lr hlr => by
      rw [← Bool.not_eq_true]
      exact fun hwrites => hge (lt_of_writes (by omega) (by omega) (hslots lr hlr) hwrites)
    rw [hnone]
    rfl

end

end Recurrence

end RecurrenceCompiler
