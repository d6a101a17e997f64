import RecurrenceCompiler.Codegen.Layered
import RecurrenceCompiler.Proofs.Codegen.RenderedTexts
import RecurrenceCompiler.Proofs.Expr.Substitution
import RecurrenceCompiler.Proofs.Recurrence.Reported
import RecurrenceCompiler.Proofs.RuleText.Products
import RecurrenceCompiler.Proofs.Script.Accesses
import RecurrenceCompiler.Proofs.Script.Shifts

/-!
# Reads of other layers

The body of a rule that writes slots reads other layers in three forms: at a slot that is known, at the
slot of the loop shifted upwards, or shifted downwards where that is not below zero (`SlotRead`). No other
text of a rule has a square bracket: the parser makes no table entries for rules (`Built.rules_kept`). So
when the body of a rule is read as a script, it reads tables in these forms only (`writesSlot_of_body`).
-/

namespace RecurrenceCompiler

open Text Decimal Arith Script RuleText

/-! ## Rules without table entries -/

/-- **The rules of a recurrence have no table entries.** -/
theorem Recurrence.Built.rules_kept {r : Recurrence} (h : r.Built) :
    ∀ rule ∈ r.rules, AllKept r.runtimeVars r.indices [] rule.expr := by
  induction h with
  | create h =>
    rw [(Recurrence.created_of_create h).rules]
    exact nofun
  | @step r s hr ih =>
    rcases r.run_cases s with h | ⟨ds, h⟩
    · generalize (s.run r).1 = r' at h
      cases h with
      | validity | base => exact ih
      | rule _ he => exact List.forall_mem_append.2 ⟨ih, List.forall_mem_singleton.2 (allKept_parseRule he)⟩
      | average _ _ hes =>
        refine List.forall_mem_append.2 ⟨ih, List.forall_mem_singleton.2 ?_⟩
        refine allKept_average (fun e he => ?_) (allKept_number _)
        obtain ⟨b, -, hb⟩ := Recurrence.exists_of_forall₂ hes he
        exact allKept_parseBody hb
    · rw [h]
      exact ih

/-- A leaf whose text has no square bracket. Calls have texts of their own. -/
def Expr.Unbracketed : Expr → Prop
  | .const (.number _) | .call _ => True
  | .var t | .index t => '[' ∉ t.toList
  | _ => False

theorem RuleText.Kept.unbracketed {vars indices : List String} (hvars : ∀ v ∈ vars, isIdentifier v)
    {l : Expr} (h : Kept vars indices [] l) : l.Unbracketed := by
  cases h with
  | number | call => trivial
  | runtime hv =>
    intro hmem
    have hword := isWord_of_isIdentifier (hvars _ hv) _ hmem
    cases hword
  | text ht _ | index ht => exact square_not_mem ht
  | lookup htable => cases htable

/-! ## Fixed names -/

namespace Arith

/-- The characters of the name that a scan is in. -/
def Scan.chars : Scan → List Char
  | .inside rev => rev.reverse
  | _ => []

/-- A text is made of its pieces. -/
theorem flatMap_piecesFrom (s : Scan) (cs : List Char) :
    (piecesFrom s cs).flatMap (Piece.replace fun _ => none) = s.chars ++ cs := by
  have hafter (c : Char) : (Scan.after c).chars = [] := by
    rw [Scan.after]
    split <;> rfl
  fun_induction piecesFrom s cs <;> simp_all [Piece.replace, Scan.chars]

/-- A text with names replaced is made of the characters of the text and of the replacements. -/
theorem mem_substitute {c : Char} {value : String → Option String} {text : String}
    (h : c ∈ (substitute value text).toList) :
    c ∈ text.toList ∨ ∃ n s, value n = some s ∧ c ∈ s.toList := by
  rw [substitute, String.toList_ofList] at h
  obtain ⟨p, hp, hc⟩ := List.mem_flatMap.1 h
  have hkept (hc : c ∈ p.replace fun _ => none) : c ∈ text.toList := by
    have hmem := List.mem_flatMap.2 ⟨p, hp, hc⟩
    rwa [pieces, flatMap_piecesFrom] at hmem
  cases p with
  | other d => exact .inl (hkept hc)
  | name cs =>
    rw [Piece.replace] at hc
    split at hc
    · next s hs => exact .inr ⟨_, s, hs, hc⟩
    · exact .inl (hkept hc)

end Arith

/-- Fixing an index keeps text free of square brackets. -/
theorem Expr.Unbracketed.fixed {l : Expr} (h : l.Unbracketed) (aux : String) :
    (l.substitute (fixed aux "0")).Unbracketed := by
  cases l with
  | index t =>
    intro hmem
    rcases mem_substitute hmem with hmem | ⟨n, s, hs, hmem⟩
    · exact h hmem
    · rw [RecurrenceCompiler.fixed] at hs
      split at hs
      · cases hs
        simp at hmem
      · cases hs
  | const | var | call => exact h
  | _ => exact h.elim

/-! ## Texts without square brackets -/

/-- A dialect that scripts can be read from: the vector type of C++ output is a name. -/
def Dialect.NamesVecType (d : Dialect) : Prop :=
  d.target = .cpp → isIdentifier d.vecType ∧ d.vecType ∉ reservedWords

namespace Dialect

variable {d : Dialect} (hd : d.NamesVecType)
include hd

/-- Zero is an operand that reads no table. -/
theorem exists_zero : ∃ z : Expression, IsText .operand d.zero [z] ∧ z.Plain := by
  have hzero : IsText .operand "0.0" [.num 0.0] := ⟨_, rfl, .num⟩
  cases htarget : d.target with
  | js =>
    have htext : d.zero = "0" := by simp [zero, htarget]
    have hzero : IsText .operand "0" [.num 0.0] := ⟨_, rfl, .num⟩
    exact ⟨.num 0.0, htext ▸ hzero, .num⟩
  | cpp =>
    obtain ⟨hname, hres⟩ := hd htarget
    have htext : d.zero = d.vecType ++ "(" ++ "0.0" ++ ")" := by
      simp [zero, htarget, String.append_assoc]
    have hcall := (isText_name (isScriptName_of_isIdentifier hname) hres).call (hzero.binary 1).cond.arg
    exact ⟨_, htext ▸ hcall, .call .name (List.forall_mem_singleton.2 .num)⟩

/-- A text behind the vector type, or in parentheses. -/
theorem square_not_mem_vecType (htarget : d.target = .cpp) : '[' ∉ d.vecType.toList := fun hmem => by
  cases isWord_of_isIdentifier (hd htarget).1 _ hmem

theorem square_not_mem_number (x : Float) : '[' ∉ (d.number x).toList := by
  have hnumber : '[' ∉ (numberText x).toList := by
    rw [numberText, String.toList_ofList]
    exact square_not_mem_numberChars x
  cases htarget : d.target with
  | js =>
    simp only [number, htarget]
    split
    · simpa using hnumber
    · exact hnumber
  | cpp =>
    have hvec := square_not_mem_vecType hd htarget
    simp only [number, htarget, cppNumber]
    split <;> simpa using ⟨hvec, hnumber⟩

theorem square_not_mem_indexValue {t : String} (ht : '[' ∉ t.toList) : '[' ∉ (d.indexValue t).toList := by
  cases htarget : d.target with
  | js => simpa [indexValue, htarget] using ht
  | cpp => simpa [indexValue, htarget] using ⟨square_not_mem_vecType hd htarget, ht⟩

theorem square_not_mem_zero : '[' ∉ d.zero.toList := by
  cases htarget : d.target with
  | js => simp [zero, htarget]
  | cpp => simpa [zero, htarget] using square_not_mem_vecType hd htarget

/-- **Parentheses and operators add no square brackets.** -/
theorem closedTexts_segmented (part : Expression → Prop) : ClosedTexts d (Segmented part) where
  zero := segmented_of_notMem (square_not_mem_zero hd)
  empty := segmented_of_notMem (by simp)
  paren h := h.paren
  join o hl hr := by
    cases o with
    | add => exact hl.join (m := .op .add) rfl rfl (by simp) hr
    | sub => exact hl.join (m := .op .sub) rfl rfl (by simp) hr
    | mul => exact hl.join (m := .op .mul) rfl rfl (by simp) hr
    | div => exact hl.join (m := .op .div) rfl rfl (by simp) hr

/-- A leaf is rendered with square brackets in the text of a call only. -/
theorem segmented_leaf {call : CallText} {part : Expression → Prop} {l : Expr} (h : l.Unbracketed)
    (hcall : ∀ c, l = .call c → ∀ text, call c = .ok text → Segmented part text) :
    l.HasText d call (Segmented part) := by
  intro text htext
  cases l with
  | const c =>
    cases c with
    | number x =>
      cases htext
      exact segmented_of_notMem (square_not_mem_number hd x)
    | raw => exact h.elim
  | var n =>
    cases htext
    exact segmented_of_notMem h
  | index t =>
    cases htext
    exact segmented_of_notMem (square_not_mem_indexValue hd h)
  | call c => exact hcall c rfl text htext
  | _ => exact h.elim

end Dialect

/-! ## The forms of reads -/

/-- A read of another layer, with one of some shifts: at a slot that is known, or at the loop's slot,
shifted upwards, or downwards where that is not below zero. -/
inductive Script.SlotRead (names : List String) (aux : String) (shifts : List Int) (zero : Expression) :
    Option Int → Expression → Prop
  | known {b a shift} : b ∈ names → shift ∈ shifts → 0 ≤ a + shift →
      SlotRead names aux shifts zero (some a) (.element (.name b) (.ofNumber (ofInt (a + shift))))
  | up {b shift} : b ∈ names → shift ∈ shifts → 0 ≤ shift →
      SlotRead names aux shifts zero none (.element (.name b) (.shifted aux shift))
  | down {b shift} : b ∈ names → shift ∈ shifts → shift < 0 →
      SlotRead names aux shifts zero none (.cond (.binary .ge (.shifted aux shift) (.num 0.0))
        (.element (.name b) (.shifted aux shift)) zero)

/-- The script of a read from a buffer, with a shift: at a slot that is known, or at the loop's slot. -/
def Script.slotScript (aux : String) (zero : Expression) (auxAt : Option Int) (name : String) (shift : Int) :
    Expression :=
  match auxAt with
  | some a => if a + shift < 0 then zero else .element (.name name) (.ofNumber (ofInt (a + shift)))
  | none =>
    if 0 ≤ shift then .element (.name name) (.shifted aux shift)
    else .cond (.binary .ge (.shifted aux shift) (.num 0.0)) (.element (.name name) (.shifted aux shift)) zero

namespace Recurrence

variable {r : Recurrence} {o : CodegenOptions} {plan : LayerPlan} {buffers : List Buffer}
  {auxAt : Option Int}

/-- **A read of another layer is the script of one** from the buffer that has its signature. -/
theorem exists_readCall {zero : Expression} (hzero : IsText .operand o.dialect.zero [zero])
    (haux : auxAt = none → IsText .operand plan.aux [.name plan.aux]) {c : Call} {b : Buffer}
    (hb : buffers.find? (fun b => b.signature ==
      bufferSignature (r.foreignTarget c) plan (r.layerShifts plan.layerIndices c)) = some b)
    (hname : IsText .operand b.name [.name b.name]) : ∃ text, r.readCall o plan buffers auxAt c = .ok text ∧
      IsText .operand text [slotScript plan.aux zero auxAt b.name (c.shiftAt plan.auxSlot)] := by
  rw [readCall]
  dsimp only
  rw [hb]
  refine ⟨_, rfl, ?_⟩
  cases auxAt with
  | some a =>
    dsimp only
    rw [slotScript]
    split
    · exact hzero
    · next hpos =>
      have hindex := ((isText_intText (i := a + c.shiftAt plan.auxSlot) (by omega)).binary 1).cond
      exact hname.element hindex
  | none =>
    dsimp only
    have hindex (level : Nat) (hlevel : level ≤ 5) := isText_shiftedIndex (haux rfl) (c.shiftAt plan.auxSlot) hlevel
    have helement := hname.element (hindex 1 (by omega)).cond
    rw [slotScript]
    split
    · exact helement
    · have hnum : IsText .operand "0" [.num 0.0] := ⟨_, rfl, .num⟩
      have hsymbol : Script.tokens? ">=".toList = some [.mark (.op .ge)] := rfl
      have htest := IsText.join (k := 4) rfl hsymbol (by omega : 1 ≤ 4) (hindex 4 (by omega)) (hnum.binary 5)
      have hchoice := (htest.choice (helement.binary 1).cond (hzero.binary 1).cond).paren
      simpa [String.append_assoc] using hchoice

/-- **A read of another layer has one of the forms**, or is zero. -/
theorem segmented_readCall (hd : o.dialect.NamesVecType) {zero : Expression}
    (hzero : IsText .operand o.dialect.zero [zero])
    (haux : auxAt = none → IsText .operand plan.aux [.name plan.aux])
    (hnames : ∀ b ∈ buffers, IsText .operand b.name [.name b.name]) {shifts : List Int} {c : Call}
    (hc : c.shiftAt plan.auxSlot ∈ shifts) {text : String}
    (h : r.readCall o plan buffers auxAt c = .ok text) :
    Segmented (SlotRead (buffers.map (·.name)) plan.aux shifts zero auxAt) text := by
  have hcode := h
  rw [readCall] at hcode
  dsimp only at hcode
  split at hcode
  · cases hcode
  · next b hb =>
    have hmem := List.mem_of_find?_eq_some hb
    have hname := List.mem_map_of_mem (f := (·.name)) hmem
    obtain ⟨text', htext, hread⟩ := exists_readCall (r := r) hzero haux hb (hnames b hmem)
    obtain rfl := Except.ok.inj (h.symm.trans htext)
    cases auxAt with
    | some a =>
      rw [slotScript] at hread
      split at hread
      · next hneg =>
        dsimp only at hcode
        rw [if_pos hneg] at hcode
        exact Except.ok.inj hcode ▸ segmented_of_notMem (Dialect.square_not_mem_zero hd)
      · exact hread.segmented (.known hname hc (by omega))
    | none =>
      rw [slotScript] at hread
      split at hread
      · next hpos => exact hread.segmented (.up hname hc hpos)
      · exact hread.segmented (.down hname hc (by omega))

/-- **The body of a rule reads other layers in these forms**, and no other table. -/
theorem texts_layerBody (hd : o.dialect.NamesVecType) {zero : Expression}
    (hzero : IsText .operand o.dialect.zero [zero])
    (haux : auxAt = none → IsText .operand plan.aux [.name plan.aux])
    (hnames : ∀ b ∈ buffers, IsText .operand b.name [.name b.name]) {e : Expr}
    (hleaves : ∀ l ∈ e.leaves, l.Unbracketed) {b : Body} (h : r.layerBody o plan buffers auxAt e = .ok b) :
    b.HasTexts (Segmented (SlotRead (buffers.map (·.name)) plan.aux
      (e.calls.map (·.shiftAt plan.auxSlot)) zero auxAt)) := by
  refine Body.texts_of_render (Dialect.closedTexts_segmented hd _) (fun n hn => ?_) (fun l hl => ?_) h
  · refine segmented_of_notMem fun hmem => ?_
    cases continuesName_of_isNameRun hn _ hmem
  · refine Dialect.segmented_leaf hd (hleaves l hl) fun c hc text htext => ?_
    subst hc
    have hmem : c ∈ e.calls := List.mem_filterMap.2 ⟨_, hl, rfl⟩
    exact segmented_readCall hd hzero haux hnames
      (List.mem_map_of_mem (f := fun c => c.shiftAt plan.auxSlot) hmem) htext

end Recurrence

/-! ## Bodies as scripts -/

namespace Body

variable {part : Expression → Prop} {b : Body}

/-- A comment of one line is read as a comment. -/
theorem readStmt_comment {t : String} (h : isOneLine t) : readStmt (.comment t) = .ok [.comment t] := by
  have hnone : t.toList.dropWhile (fun c => !isLineBreak c) = [] :=
    List.dropWhile_eq_nil_iff.2 (List.all_eq_true.1 h)
  rw [readStmt, readComment, hnone]

/-- **A body that writes a slot is read as one**, which declares the same names. -/
theorem writesSlot_of_body (h : b.HasTexts (Segmented part)) {slot : String} {e : Expression}
    (hslot : readText slot = .ok e) {stmts : List (Stmt Expression)}
    (hread : readStmts (Recurrence.writeSlot slot b) = .ok stmts) :
    WritesSlot part e stmts ∧ declared stmts = declared (Recurrence.writeSlot slot b) := by
  obtain ⟨ss, result, strategy⟩ := b
  obtain ⟨hss, hresult⟩ := h
  rw [Recurrence.writeSlot] at hread ⊢
  dsimp only at hss hresult hread ⊢
  induction ss generalizing stmts with
  | nil =>
    obtain ⟨first, hfirst, hread⟩ := bind_ok hread
    obtain ⟨rest, hrest, hread⟩ := bind_ok hread
    cases hread
    cases hrest
    rw [readStmt] at hfirst
    obtain ⟨x, hx, hfirst⟩ := bind_ok hfirst
    obtain ⟨v, hv, hfirst⟩ := bind_ok hfirst
    cases hfirst
    cases hslot.symm.trans hx
    exact ⟨.write (hresult.over hv), rfl⟩
  | cons s ss ih =>
    rw [List.forall_mem_cons] at hss
    obtain ⟨first, hfirst, hread⟩ := bind_ok hread
    obtain ⟨rest, hrest, hread⟩ := bind_ok hread
    cases hread
    obtain ⟨hwrites, hdeclared⟩ := ih hrest hss.2
    cases hss.1 with
    | comment hline =>
      cases (readStmt_comment hline).symm.trans hfirst
      exact ⟨.comment hwrites, hdeclared⟩
    | @value n text htext =>
      rw [readStmt] at hfirst
      obtain ⟨v, hv, hfirst⟩ := bind_ok hfirst
      cases hfirst
      exact ⟨.value (htext.over hv) hwrites, congrArg (n :: ·) hdeclared⟩

/-- The names that bodies introduce. -/
inductive Introduced : String → Prop
  | term {a : Char} (ha : a ∈ branchLetters) (k : Nat) :
      Introduced ("_" ++ String.singleton a ++ toString k)
  | shared (kind : ShareKind) (k : Nat) : Introduced ("_cse_" ++ kind.text ++ "_" ++ toString k)

theorem Introduced.underscore {n : String} (h : Introduced n) : n.toList.head? = some '_' := by
  cases h <;> simp

/-- **A body declares no other names.** -/
theorem introduced_of_render {d : Dialect} {call : CallText} {indices : List String}
    {optimization : Optimization} {threshold : Int} {e : Expr}
    (h : render d call indices optimization threshold e = .ok b) :
    ∀ n ∈ declared b.statements, Introduced n := by
  have hterms {ts : List (Term Expr)} {ns : List (String × String)}
      (h : declareTerms d call "t" 1 ts = .ok ns) :
      ∀ n ∈ declared (declarations ns), Introduced n := by
    rw [declared_declarations, (declareTerms_eq_ok h).1]
    exact List.forall_mem_map.2 fun k _ => .term (a := 't') (by decide) k
  cases renders_of_render h with
  | inline => exact nofun
  | sum hns | scaledSum hns _ => exact hterms hns
  | branchAverage hbranches _ =>
    intro n hn
    obtain ⟨a, ha, k, rfl⟩ := hbranches.mem_declared hn
    exact .term ha k
  | cse _ hstmts _ =>
    obtain ⟨ns, rfl, hnames, -⟩ := declareShared_eq_ok hstmts
    have hdeclared := declared_branch "CSE: cached calls and coefficients" ns []
    rw [List.append_nil] at hdeclared
    rw [hdeclared, hnames, declared, List.append_nil]
    refine List.forall_mem_map.2 fun c hc => ?_
    obtain ⟨-, k, -, hname⟩ := Expr.mem_nameFrom hc
    rw [hname]
    exact .shared c.kind k

/-- The names that a body declares start with an underscore. -/
theorem underscore_of_render {d : Dialect} {call : CallText} {indices : List String}
    {optimization : Optimization} {threshold : Int} {e : Expr}
    (h : render d call indices optimization threshold e = .ok b) :
    ∀ n ∈ declared b.statements, n.toList.head? = some '_' :=
  fun n hn => (introduced_of_render h n hn).underscore

end Body

end RecurrenceCompiler
