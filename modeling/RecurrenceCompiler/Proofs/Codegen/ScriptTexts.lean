import RecurrenceCompiler.Proofs.Codegen.Closed
import RecurrenceCompiler.Proofs.Codegen.Operands
import RecurrenceCompiler.Proofs.Codegen.Specializations
import RecurrenceCompiler.Proofs.Expr.Substitution
import RecurrenceCompiler.Proofs.Script.Scopes

/-!
# Texts of recurrences in scripts

Where the texts of a recurrence are sentences of arithmetic and scripts read them as arithmetic does
(`Recurrence.Scripted`), each leaf is rendered as an operand. A running function that has the indices and
the runtime variables gives it the value of the leaf (`Scripted.kept_operand`).
-/

namespace RecurrenceCompiler

open Text Decimal Arith Script

/-- A scope where only some names are bound to numbers. -/
def Scope.only {α : Type} (s : Scope α) (names : List String) : Scope α :=
  { s with value := fun n => if n ∈ names then s.value n else none }

/-! ## Sentences -/

namespace Script

variable {text : String}

/-- The tokens of a sentence are those of scripts, and no name among them is reserved. -/
theorem Verbatim.tokens (htext : Verbatim text) {ts : List Arith.Token} {t : Tree}
    (hts : Arith.tokens? text.toList = some ts) (ht : Derives .expr ts [t]) :
    tokens? text.toList = some (ts.map .ofArith) ∧ ∀ n, .name n ∈ ts → n ∉ reservedWords := by
  refine ⟨tokens?_of_arith hts ht.separated (factored_of_derives ht).spaced htext.plain, ?_⟩
  intro n hn hres
  have hmem := mentions_iff.2 (mem_pieceNames hts ht.separated n hn)
  rw [htext.names n hres] at hmem
  cases hmem

/-- A sentence is the text of its tree. -/
theorem Verbatim.isText_ofTree (htext : Verbatim text) {ts : List Arith.Token} {t : Tree}
    (hts : Arith.tokens? text.toList = some ts) (ht : Derives .expr ts [t]) :
    IsText (.binary 5) text [Expression.ofTree t] := by
  obtain ⟨htokens, hnames⟩ := htext.tokens hts ht
  exact ⟨_, htokens, parses_of_derives ht hnames 5 le_rfl⟩

/-- **A sentence is the text of an expression.** -/
theorem Verbatim.exists_isText (htext : Verbatim text) (h : IsSentence text.toList) :
    ∃ e, IsText (.binary 5) text [e] := by
  obtain ⟨ts, hts, t, ht⟩ := h
  exact ⟨_, htext.isText_ofTree hts ht⟩

/-- A sentence in parentheses is an operand. -/
theorem Verbatim.exists_operand {cs : List Char} (htext : Verbatim (String.ofList ('(' :: cs ++ [')'])))
    (hbal : RuleText.balanced cs) (h : IsSentence ('(' :: cs ++ [')'])) :
    ∃ e, IsText .operand (String.ofList ('(' :: cs ++ [')'])) [e] := by
  obtain ⟨ts, hts, t, ht⟩ := h
  obtain ⟨ms, hms, hinner⟩ := RuleText.derives_peel (RuleText.isWrapped_paren hbal) hts ht
  rw [RuleText.peel_paren] at hms
  obtain rfl := Option.some.inj (hts.symm.trans (tokens?_paren hms))
  obtain ⟨htokens, hnames⟩ := htext.tokens (by rwa [String.toList_ofList]) ht
  have hparse := parses_of_derives hinner (fun n hn => hnames n (by simp [hn])) 1 (by omega)
  refine ⟨Expression.ofTree t, _, htokens, ?_⟩
  rw [List.map_append, List.map_cons]
  exact .paren (.ofBinary hparse)

/-- **The expression of a sentence has its value.** -/
theorem Verbatim.eval_eq {α : Type} [Carrier α] (htext : Verbatim text) {e : Expression}
    (he : Expression.parse? text = some e) {env : Env α} {names : Expression.Names α}
    {functions : Expression.Functions α} (hserves : Serves env names functions) {v : α}
    (hv : Arith.eval env text = .ok v) : e.eval names functions = .ok (.num v) := by
  obtain ⟨ts, t, hts, ht, hv⟩ := eval_eq_ok_iff.1 hv
  have hparse := ((htext.isText_ofTree hts ht).lower (by decide : 1 ≤ 5)).cond.parse?
  obtain rfl := Option.some.inj (he.symm.trans hparse)
  exact eval_ofTree hserves hv

/-- A table entry is found at the place that its index text has for value. -/
theorem exists_entry_of_evalLookup {scope : Scope Float} {table i : String} {v : Float}
    (h : Expr.evalLookup scope table i = .ok v) : ∃ t k j, scope.table table = some t ∧
      Arith.eval scope.value i = .ok k ∧ Carrier.toNat? k = some j ∧ t.entries[j]? = some v := by
  rw [Expr.evalLookup] at h
  split at h
  · cases h
  · next t ht =>
    obtain ⟨k, hk, h⟩ := bind_ok h
    obtain ⟨k', hk', hk⟩ := bind_ok hk
    split at hk
    · cases hk
      split at h
      · next y hy =>
        cases h
        obtain ⟨j, hj, hentry⟩ := Option.bind_eq_some_iff.1 hy
        exact ⟨t, k, j, ht, hk', hj, hentry⟩
      · cases h
    · cases hk

/-- A running function has the values of the names in an environment, the elementary functions and the
words for numbers. -/
structure World.Reads (w : World Float) (s : Locals Float) (env : Env Float) : Prop where
  serves : Serves env (s.read w.names) w.value
  numbers : KnowsNumbers (s.read w.names)

/-- A running function has, besides, the tables that have entries. -/
structure World.Provides (w : World Float) (s : Locals Float) (scope : Scope Float) (tables : List String) :
    Prop extends w.Reads s scope.value where
  tables : ∀ n ∈ tables, ∀ t, scope.table n = some t → t.entries ≠ [] →
    s.read w.names n = .ok (.ofItems (t.entries.map .num)) ∧ t.entries.length < 2 ^ 32

/-- A name of the surroundings: an elementary function or a word for a number. -/
def IsElementary (n : String) : Prop :=
  n ∈ mathNames ∨ n = "NaN" ∨ n = "Infinity"

instance (n : String) : Decidable (IsElementary n) :=
  inferInstanceAs (Decidable (_ ∨ _))

/-- Names of the surroundings do not end as the names of generated functions and modules do. -/
theorem not_isElementary {n : String} (h : n.toList.getLast? ∈ [some 'f', some 'r', some 'e']) :
    ¬ IsElementary n := by
  have hmath : ∀ m ∈ mathNames, m.toList.getLast? ∉ [some 'f', some 'r', some 'e'] := by decide
  rintro (hn | rfl | rfl)
  · exact hmath n hn h
  · exact absurd h (by decide)
  · exact absurd h (by decide)

/-- What surrounds a function has the elementary functions and the words for numbers. -/
structure World.Elementary (w : World Float) : Prop where
  named : ∀ f : MathFn, w.names f.name = .ok (.function (.math f))
  apply : ∀ (f : MathFn) (vs : List Float), vs.length = f.arity →
    w.value (.math f) (vs.map .num) = .ok (.num (Carrier.apply f vs))
  numbers : KnowsNumbers w.names

/-- A name that a unit neither has nor imports, and that is none of an elementary function, is one of the host. -/
theorem nameIn_of_host {α : Type} [Carrier α] {p : Program} {unit : Nat} {u : LoadedUnit}
    (hu : p.units[unit]? = some u) {n : String}
    (hfree : u.content.defines n = false ∧ n ∉ u.imports.map (·.1) ∧ n ≠ u.name) (hfn : MathFn.ofName? n = none)
    {v : Value α} (hv : Host.value? n = some v) : p.nameIn unit n = .ok v := by
  obtain ⟨hdefines, himports, hname⟩ := hfree
  have himported : Json.getField? u.imports n = none := by
    rwa [← Option.not_isSome_iff_eq_none, Json.getField?_isSome]
  rw [Program.nameIn, hu]
  dsimp only
  rw [hdefines, hfn, himported, if_neg Bool.false_ne_true]
  dsimp only
  rw [if_neg (by simpa using hname), hv]

/-- **The surroundings of a unit** have the elementary functions and the words for numbers, if neither the
unit itself nor what it imports has a name of these. -/
theorem elementary_unitWorld {p : Program} {unit : Nat} {u : LoadedUnit} (hu : p.units[unit]? = some u)
    (hfree : ∀ n, IsElementary n → u.content.defines n = false ∧ n ∉ u.imports.map (·.1) ∧ n ≠ u.name)
    (limits : Limits) (depth : Nat) : (unitWorld p unit limits (depth + 1) : World Float).Elementary := by
  refine ⟨fun f => ?_, fun f vs hvs => congrArg Except.ok (applyMath_map f hvs), ?_, ?_⟩
  · have hname : MathFn.ofName? f.name = some f := by cases f <;> rfl
    change p.nameIn unit f.name = _
    rw [Program.nameIn, hu]
    dsimp only
    rw [(hfree _ (.inl (name_mem_mathNames f))).1, hname, if_neg Bool.false_ne_true]
  · exact nameIn_of_host hu (hfree _ (.inr (.inl rfl))) (by decide) rfl
  · exact nameIn_of_host hu (hfree _ (.inr (.inr rfl))) (by decide) rfl

section
variable {w : World Float} {s s' : Locals Float} {env : Env Float}

/-- A function that has the values itself and leaves the rest to its surroundings. -/
theorem World.Elementary.reads (hw : w.Elementary)
    (hvalues : ∀ n v, env n = some v → s.find? n = some ⟨n, some (.num v)⟩)
    (hfree : ∀ n, IsElementary n → s.find? n = none) : w.Reads s env := by
  have hread {n : String} (hn : IsElementary n) : s.read w.names n = w.names n := by
    rw [Locals.read, hfree n hn]
  refine ⟨⟨fun n v hn => Locals.read_of_find? (hvalues n v hn), fun f => ?_, hw.apply⟩, ?_, ?_⟩
  · rw [hread (.inl (name_mem_mathNames f))]
    exact hw.named f
  · rw [hread (.inr (.inl rfl))]
    exact hw.numbers.nan
  · rw [hread (.inr (.inr rfl))]
    exact hw.numbers.infinity

/-- What stays bound is still read. -/
theorem World.Reads.congr (h : w.Reads s env)
    (hread : ∀ n, (env n).isSome ∨ IsElementary n → s'.find? n = s.find? n) : w.Reads s' env := by
  have heq {n : String} (hn : (env n).isSome ∨ IsElementary n) : s'.read w.names n = s.read w.names n :=
    Locals.read_congr (hread n hn)
  refine ⟨⟨fun n v hn => ?_, fun f => ?_, h.serves.apply⟩, ?_, ?_⟩
  · rw [heq (.inl (by rw [hn]; rfl))]
    exact h.serves.values n v hn
  · rw [heq (.inr (.inl (name_mem_mathNames f)))]
    exact h.serves.named f
  · rw [heq (.inr (.inr (.inl rfl)))]
    exact h.numbers.nan
  · rw [heq (.inr (.inr (.inr rfl)))]
    exact h.numbers.infinity

/-- A function that has the values of an environment has those of a part of it. -/
theorem World.Reads.mono {env' : Env Float} (h : w.Reads s env) (hsub : ∀ n v, env' n = some v → env n = some v) :
    w.Reads s env' :=
  ⟨⟨fun n v hn => h.serves.values n v (hsub n v hn), h.serves.named, h.serves.apply⟩, h.numbers⟩

/-- What stays bound is still provided. -/
theorem World.Provides.congr {scope : Scope Float} {tables : List String}
    (h : w.Provides s scope tables)
    (hread : ∀ n, (scope.value n).isSome ∨ n ∈ tables ∨ IsElementary n → s'.find? n = s.find? n) :
    w.Provides s' scope tables := by
  refine ⟨h.toReads.congr fun n hn => hread n (hn.imp_right .inr), fun n hn t ht hne => ?_⟩
  rw [Locals.read_congr (hread n (.inr (.inl hn)))]
  exact h.tables n hn t ht hne

end

end Script

/-! ## Texts of a recurrence -/

namespace Script

/-- A sentence of arithmetic that scripts read as it is. -/
structure Readable (t : String) : Prop where
  sentence : IsSentence t.toList
  verbatim : Verbatim t

/-- What a text is read as. -/
theorem IsText.ofText_eq {t : String} {x : Expression} (h : IsText .cond t [x]) :
    Expression.ofText t = x := by
  rw [Expression.ofText, h.parse?, Option.getD_some]

theorem IsText.toScript_var {t : String} {x : Expression} (h : IsText .operand t [x])
    {call : Call → Expression} : (Expr.var t).toScript call = x := by
  rw [Expr.toScript, (h.binary 1).cond.ofText_eq]

variable {t : String}

theorem Readable.isText_ofText (h : Readable t) : IsText .cond t [Expression.ofText t] := by
  obtain ⟨x, hx⟩ := h.verbatim.exists_isText h.sentence
  have hcond := (hx.lower (by decide : 1 ≤ 5)).cond
  rwa [hcond.ofText_eq]

/-- **What a sentence is read as has its value.** -/
theorem Readable.eval_ofText {α : Type} [Carrier α] (h : Readable t) {env : Env α}
    {names : Expression.Names α} {functions : Expression.Functions α}
    (hserves : Serves env names functions) {v : α} (hv : Arith.eval env t = .ok v) :
    (Expression.ofText t).eval names functions = .ok (.num v) :=
  h.verbatim.eval_eq h.isText_ofText.parse? hserves hv

instance (t : String) : Decidable (Verbatim t) :=
  decidable_of_iff ((¬ ['-', '-'] <:+: t.toList ∧ ¬ ['+', '+'] <:+: t.toList ∧
      ∀ l ∈ Arith.literals t.toList, isOctal l = false) ∧ ∀ n ∈ reservedWords, Arith.mentions t n = false)
    ⟨fun h => ⟨⟨h.1.1, h.1.2.1, h.1.2.2⟩, h.2⟩, fun h => ⟨⟨h.plain.minus, h.plain.plus, h.plain.decimal⟩, h.names⟩⟩

/-- Whether a text has a value where each name stands for one, and scripts read it as it is. -/
def isReadable (t : String) : Bool :=
  (Arith.eval (fun _ => some (1 : Float)) t).toOption.isSome && decide (Verbatim t)

theorem readable_of_isReadable (h : isReadable t) : Readable t := by
  rw [isReadable, Bool.and_eq_true, decide_eq_true_eq] at h
  obtain ⟨v, hv⟩ := Option.isSome_iff_exists.1 h.1
  cases heval : Arith.eval (fun _ => some (1 : Float)) t with
  | error e =>
    rw [heval] at hv
    cases hv
  | ok x => exact ⟨(eval_eq_ok_iff.1 heval).isSentence, h.2⟩

/-- A name that scripts read is not reserved. -/
theorem Readable.not_reserved (h : Readable t) (hid : isIdentifier t) : t ∉ reservedWords := by
  intro hres
  have hmentions := h.verbatim.names t hres
  rw [← Bool.not_eq_true, mentions_iff] at hmentions
  exact hmentions (by rw [pieceNames_name hid]; simp)

end Script

theorem not_isElementary_coeffName (n : String) : ¬ IsElementary (coeffName n) :=
  not_isElementary (by simp [coeffName, String.toList_append])

namespace Recurrence

/-- A recurrence whose texts are sentences of arithmetic that scripts read as they are, without unknown
names. No index or runtime variable has a name that scripts need for something else, and no constant is the
negative zero. -/
structure Scripted (r : Recurrence) : Prop where
  balanced : r.Balanced
  known : ∀ d ∈ r.diagnostics, d.code ≠ .unknownIdentifier
  sentences : ∀ t ∈ r.texts, IsSentence t.toList
  verbatim : ∀ t ∈ r.texts, Script.Verbatim t
  names : ∀ n ∈ r.params, n ∉ reservedWords ∧ n ∉ mathNames ∧ n ≠ "NaN" ∧ n ≠ "Infinity"
  constants : ∀ e ∈ r.exprs, e.NoNegativeZero

variable {r : Recurrence}

theorem Scripted.built (h : r.Scripted) : r.Built :=
  h.balanced.built

/-- Whether scripts read the texts of a recurrence as they are, with the names and constants that it has. -/
def isScripted (r : Recurrence) : Bool :=
  r.diagnostics.all (fun d => decide (d.code ≠ .unknownIdentifier)) && r.texts.all isReadable &&
    r.params.all (fun n => !(reservedWords ++ mathNames ++ ["NaN", "Infinity"]).contains n) &&
    r.exprs.all fun e => decide e.NoNegativeZero

theorem scripted_of_isScripted (hbalanced : r.Balanced) (h : r.isScripted) : r.Scripted := by
  simp only [isScripted, Bool.and_eq_true, List.all_eq_true, decide_eq_true_eq] at h
  obtain ⟨⟨⟨hknown, htexts⟩, hnames⟩, hconstants⟩ := h
  exact {
    balanced := hbalanced
    known := hknown
    sentences := fun t ht => (readable_of_isReadable (htexts t ht)).sentence
    verbatim := fun t ht => (readable_of_isReadable (htexts t ht)).verbatim
    names := fun n hn => by simpa [not_or, and_assoc] using hnames n hn
    constants := hconstants }

/-- No index and no runtime variable has a name of the surroundings. -/
theorem Scripted.notMem_of_isElementary (h : r.Scripted) {n : String} (hn : IsElementary n) : n ∉ r.params := by
  intro hmem
  obtain ⟨-, hmath, hnan, hinf⟩ := h.names n hmem
  exact hn.elim hmath fun hn => hn.elim hnan hinf

theorem Scripted.isText_param (h : r.Scripted) {n : String} (hn : n ∈ r.params) :
    IsText .operand n [.name n] :=
  isText_name (isScriptName_of_isIdentifier (h.built.isIdentifier_param hn)) (h.names n hn).1

theorem Scripted.readable (h : r.Scripted) {t : String} (ht : t ∈ r.texts) : Readable t :=
  ⟨h.sentences t ht, h.verbatim t ht⟩

/-- The text of a leaf that is no runtime variable can be read. -/
theorem Scripted.readable_leaf (h : r.Scripted) {e l : Expr} (he : e ∈ r.exprs) (hl : l ∈ e.leaves)
    {t : String} (ht : t ∈ (r.context none).leafTexts l) : Readable t := by
  refine h.readable (texts_subset_of_mem_exprs he (List.mem_filterMap.2 ⟨l, hl, ?_⟩))
  cases l with
  | var n =>
    rw [RuleText.Context.leafTexts] at ht
    split at ht
    · cases ht
    · rw [List.mem_singleton.1 ht]
      rfl
  | index i | lookup table i =>
    rw [List.mem_singleton.1 ht]
    rfl
  | _ => cases ht

/-! ## Points -/

theorem Scripted.elementary_notMem (h : r.Scripted) (fn : MathFn) : fn.name ∉ r.indices := fun hfn =>
  h.notMem_of_isElementary (.inl (name_mem_mathNames fn)) (List.mem_append_left _ hfn)

/-- No index has the name of an elementary function, so no point binds such a name. -/
theorem Scripted.value_elementary (h : r.Scripted) {vars : RuntimeVars Float}
    (hvars : ∀ fn : MathFn, vars fn.name = none) (point : List Float) (fn : MathFn) :
    (r.pointScope vars point).value fn.name = none := by
  have hnot : ¬ r.indices.contains fn.name = true := mt List.contains_iff_mem.1 (h.elementary_notMem fn)
  rw [pointScope]
  dsimp only
  rw [if_neg hnot, hvars fn]

/-- What is no index and has a value at a point is a scalar. -/
theorem scalar_of_pointScope {vars : RuntimeVars Float} {point : List Float} {n : String} {v : Float}
    (hn : n ∉ r.indices) (hv : (r.pointScope vars point).value n = some v) : vars n = some (.scalar v) := by
  rw [pointScope] at hv
  dsimp only at hv
  rw [if_neg (mt List.contains_iff_mem.1 hn)] at hv
  split at hv
  · next x hx => rw [hx, Option.some.inj hv]
  · cases hv

/-- What has entries at a point is a table. -/
theorem exists_of_pointScope_table (r : Recurrence) {vars : RuntimeVars Float} (point : List Float) {n : String}
    {e : Tabulated Float} (he : (r.pointScope vars point).table n = some e) (hne : e.entries ≠ []) :
    ∃ xs, vars n = some (.table xs) ∧ e = .ofList xs := by
  rw [pointScope] at he
  dsimp only at he
  split at he
  · next xs hxs => exact ⟨xs, hxs, (Option.some.inj he).symm⟩
  · cases he
  · obtain ⟨a, -, rfl⟩ := Option.map_eq_some_iff.1 he
    exact absurd rfl hne

/-! ## Leaves -/

/-- A leaf that is rendered as an operand of scripts. Texts that are rendered as they are stand in
parentheses. -/
inductive IsOperand (r : Recurrence) : Expr → Prop
  | number {x : Float} : isNegativeZero x = false → IsOperand r (.number x)
  | param {n : String} : n ∈ r.params → IsOperand r (.var n)
  | name {n : String} : isIdentifier n → Readable n → IsOperand r (.var n)
  | paren {cs : List Char} : RuleText.balanced cs → Readable (String.ofList ('(' :: cs ++ [')'])) →
      IsOperand r (.var (String.ofList ('(' :: cs ++ [')'])))
  | index {t : String} : Readable t → IsOperand r (.index t)
  | lookup {table i : String} : table ∈ r.arrayVars → Readable i → IsOperand r (.lookup table i)

/-- **What the parser cuts out of texts is rendered as an operand.** -/
theorem Scripted.isOperand_leaf (h : r.Scripted) {e l : Expr} (he : e ∈ r.exprs) (hl : l ∈ e.leaves)
    {whole : List Char} (hleaf : RuleText.Leaf (r.context none) whole l) : r.IsOperand l := by
  have hread {t : String} (ht : t ∈ (r.context none).leafTexts l) := h.readable_leaf he hl ht
  have hvar {n : String} (hn : n ∉ r.runtimeVars) : n ∈ (r.context none).leafTexts (.var n) := by
    have hnot : (r.context none).runtimeVars.contains n = false := by
      rw [List.contains_eq_mem, decide_eq_false_iff_not]
      exact hn
    rw [RuleText.Context.leafTexts, hnot]
    exact List.mem_singleton_self n
  cases hleaf with
  | number x => exact .number (h.constants e he x hl)
  | runtime hv => exact .param (List.mem_append_right _ hv)
  | name hid hv _ => exact .name hid (hread (hvar hv))
  | @verbatim cs hcs =>
    refine .paren hcs.balanced (hread (hvar fun hv => ?_))
    have hword := isWord_of_isIdentifier (h.built.wellFormed.runtime _ hv) '(' (by simp)
    cases hword
  | index => exact .index (hread (List.mem_singleton_self _))

/-- The leaves of rules are calls or operands. -/
theorem Scripted.isOperand_rule (h : r.Scripted) {rule : Rule} (hrule : rule ∈ r.rules) {l : Expr}
    (hl : l ∈ rule.expr.leaves) : (∃ c, l = .call c) ∨ r.IsOperand l := by
  refine ((h.balanced.rules rule hrule).2 l hl).imp_right fun hleaf => ?_
  obtain ⟨whole, hleaf⟩ := hleaf
  exact h.isOperand_leaf (expr_mem_exprs hrule) hl hleaf

/-- The leaves of values of base cases are operands. -/
theorem Scripted.isOperand_value (h : r.Scripted) {b : BaseCase} (hb : b ∈ r.bases) {l : Expr}
    (hl : l ∈ b.value.leaves) : r.IsOperand l := by
  have he := value_mem_exprs hb
  cases hvalue : b.value with
  | lookup table i =>
    have hmem := h.balanced.values b hb
    rw [hvalue] at hmem hl he
    obtain rfl := List.mem_singleton.1 hl
    cases hmem with
    | lookup htable => exact .lookup htable (h.readable_leaf he hl (List.mem_singleton_self _))
    | product hcoeff _ => cases hcoeff
  | _ =>
    have hmem := h.balanced.values b hb
    rw [hvalue] at hmem hl he
    cases hmem with
    | product _ hleaves => exact h.isOperand_leaf he hl (hleaves l hl)

/-- **Operands are rendered as the operands of scripts that they are.** -/
theorem Scripted.exists_operand (h : r.Scripted) {d : Dialect} (hd : d.target = .js) (callText : CallText)
    (call : Call → Expression) {l : Expr} (hl : r.IsOperand l) :
    ∃ text, renderExpr d callText l = .ok text ∧ IsText .operand text [l.toScript call] := by
  cases hl with
  | number hx => exact ⟨_, rfl, isText_number hd _⟩
  | @param n hn =>
    have htext := h.isText_param hn
    exact ⟨n, rfl, htext.toScript_var ▸ htext⟩
  | @name n hid hread =>
    have htext := isText_name (isScriptName_of_isIdentifier hid) (hread.not_reserved hid)
    exact ⟨n, rfl, htext.toScript_var ▸ htext⟩
  | @paren cs hbal hread =>
    have hsentence := hread.sentence
    rw [String.toList_ofList] at hsentence
    obtain ⟨x, hx⟩ := hread.verbatim.exists_operand hbal hsentence
    exact ⟨_, rfl, hx.toScript_var ▸ hx⟩
  | @index t hread =>
    refine ⟨_, rfl, ?_⟩
    rw [Dialect.indexValue, hd]
    exact hread.isText_ofText.paren
  | @lookup table i htable hread =>
    have hparam : table ∈ r.params := List.mem_append_right _ (h.built.arrays htable)
    exact ⟨_, rfl, (h.isText_param hparam).element hread.isText_ofText⟩

/-- **A running function gives an operand the value of its leaf** if it provides what the leaf reads. -/
theorem Scripted.kept_operand (h : r.Scripted) {l : Expr} (hl : r.IsOperand l) {w : World Float}
    {s : Locals Float} {scope : Scope Float} (hw : w.Provides s scope r.arrayVars)
    (value : Call → Except Error Float) (call : Call → Expression) :
    Expr.Kept scope value call (s.read w.names) w.value l := by
  intro v hv
  cases hl with
  | number hx =>
    cases hv
    exact eval_ofNumber hw.numbers _ hx
  | @param n hn =>
    rw [Expr.eval, orThrow_eq, eval_eq_ok_iff, hasValue_identifier (h.built.isIdentifier_param hn)] at hv
    rw [(h.isText_param hn).toScript_var, Expression.eval]
    exact hw.serves.values n v hv
  | name hid hread =>
    rw [Expr.eval, orThrow_eq] at hv
    exact hread.eval_ofText hw.serves hv
  | paren hbal hread =>
    rw [Expr.eval, orThrow_eq] at hv
    exact hread.eval_ofText hw.serves hv
  | index hread =>
    rw [Expr.eval, orThrow_eq] at hv
    exact hread.eval_ofText hw.serves hv
  | @lookup table i htable hread =>
    rw [Expr.eval, orThrow_eq] at hv
    obtain ⟨t, k, j, ht, hk, hj, hentry⟩ := exists_entry_of_evalLookup hv
    have hne : t.entries ≠ [] := by
      intro heq
      simp [heq] at hentry
    obtain ⟨htables, hlength⟩ := hw.tables table htable t ht hne
    have hlt := (List.getElem?_eq_some_iff.1 hentry).1
    have hslot : (Value.num k : Value Float).slot? = some j := by
      rw [Value.slot?, hj]
      exact Option.filter_eq_some_iff.2 ⟨rfl, by simp; omega⟩
    have helement : (Value.ofItems (t.entries.map .num)).element (.num k) = .ok (.num v) := by
      rw [Value.ofItems, Value.element, hslot]
      simp [hentry]
    rw [Expr.toScript, Expression.eval, Expression.eval, htables, hread.eval_ofText hw.serves hk]
    exact helement

/-- A text with known names has the value that it has where only indices and runtime variables are
bound. -/
theorem Scripted.eval_only (h : r.Scripted) {scope : Scope Float}
    (hfree : ∀ f : MathFn, scope.value f.name = none) {t : String}
    (hknown : ∀ n ∈ namesIn t, (r.context none).knows n) :
    Carries (Arith.eval scope.value t) (Arith.eval (scope.only r.params).value t) := by
  intro v hv
  rw [eval_eq_ok_iff] at hv ⊢
  refine hv.congr fun n hn => ?_
  change scope.value n = if n ∈ r.params then scope.value n else none
  split
  · rfl
  · next hparam =>
    have hknows := hknown n (by simpa [Arith.mentions] using hn)
    simp only [RuleText.Context.knows, Bool.or_eq_true, List.contains_iff_mem] at hknows
    rcases hknows with ((hi | hv) | hf) | ha
    · exact absurd (List.mem_append_left _ hi) hparam
    · exact absurd (List.mem_append_right _ hv) hparam
    · obtain ⟨f, hf⟩ := Option.isSome_iff_exists.1 hf
      rw [← ofName?_eq_some hf]
      exact hfree f
    · exact absurd (List.mem_append_right _ (h.built.arrays ha)) hparam

/-- **A leaf has its value where only indices and runtime variables are bound.** -/
theorem Scripted.carries_only (h : r.Scripted) {scope : Scope Float}
    (hfree : ∀ f : MathFn, scope.value f.name = none) {e l : Expr} (he : e ∈ r.exprs) (hl : l ∈ e.leaves)
    (value : Call → Except Error Float) :
    Carries (l.eval scope value) (l.eval (scope.only r.params) value) := by
  have hknown {t : String} (ht : t ∈ (r.context none).leafTexts l) :=
    h.eval_only hfree fun n hn => h.built.knows h.known he hl ht hn
  have hruntime {v : String} (hv : v ∈ r.runtimeVars) :
      Carries (Arith.eval scope.value v) (Arith.eval (scope.only r.params).value v) := by
    refine h.eval_only hfree fun n hn => ?_
    have hname : isName v.toList := h.built.wellFormed.runtime v hv
    have hmem : n ∈ pieceNames v.toList := mem_distinct.1 hn
    rw [pieceNames_name hname, List.mem_singleton, String.ofList_toList] at hmem
    have hcontains : (r.context none).runtimeVars.contains n = true := by
      rw [hmem]
      exact List.contains_iff_mem.2 hv
    rw [RuleText.Context.knows, hcontains, Bool.or_true, Bool.true_or, Bool.true_or]
  cases (h.built.reported.exprs e he).kept l hl with
  | number | call => exact .refl _
  | runtime hv =>
    rw [Expr.eval, Expr.eval, orThrow_eq, orThrow_eq]
    exact hruntime hv
  | @text t _ _ =>
    rw [Expr.eval, Expr.eval, orThrow_eq, orThrow_eq]
    by_cases hv : t ∈ r.runtimeVars
    · exact hruntime hv
    · refine hknown ?_
      rw [RuleText.Context.leafTexts, if_neg]
      · exact List.mem_singleton_self _
      · exact fun hc => hv (List.contains_iff_mem.1 hc)
  | index =>
    rw [Expr.eval, Expr.eval, orThrow_eq, orThrow_eq]
    exact hknown (List.mem_singleton_self _)
  | @lookup table i _ =>
    rw [Expr.eval, Expr.eval, orThrow_eq, orThrow_eq, Expr.evalLookup, Expr.evalLookup]
    have htable : (scope.only r.params).table = scope.table := rfl
    rw [htable]
    cases scope.table table with
    | none => exact .refl _
    | some t =>
      refine Carries.bind ?_ fun k => .refl _
      exact Carries.bind (hknown (List.mem_singleton_self _)) fun k => .refl _

end Recurrence

/-!
## Guards in scripts

A guard is rendered as a condition of comparisons. Where scripts read the sides of its constraints as
arithmetic does, a running function finds that the condition holds exactly where the guard does
(`exists_test`), a constraint after one that does not hold being left alone by both. A negated guard is
read as the negation of such a condition, so the exclusive guard of a rule holds exactly where the rule is
enabled (`RuleGuard.exists_test_exclusive`), which is where it is selected.
-/

namespace Script

/-- The operator of a comparison. -/
def Operator.ofComparison : Comparison → Operator
  | .eq => .eq
  | .ne => .ne
  | .lt => .lt
  | .le => .le
  | .gt => .gt
  | .ge => .ge

theorem tokens?_comparison (c : Comparison) :
    tokens? c.text.toList = some [.mark (.op (Operator.ofComparison c))] := by
  cases c <;> rfl

theorem ofComparison_apply {α : Type} [Carrier α] (c : Comparison) (x y : α) :
    (Operator.ofComparison c).apply (.num x) (.num y) = .truth (c.holds x y) := by
  cases c <;> rfl

/-- Conditions joined from left to right. -/
theorem isText_both {t : String} {texts : List String} {x : Expression} {xs : List Expression}
    (ht : IsText (.binary 2) t [x]) (h : List.Forall₂ (fun t e => IsText (.binary 3) t [e]) texts xs) :
    IsText (.binary 2) (" && ".intercalate (t :: texts)) [xs.foldl .both x] := by
  induction h generalizing t x with
  | nil => simpa using ht
  | @cons u y texts xs hu _ ih =>
    have htext : " && ".intercalate (t :: u :: texts) =
        " && ".intercalate ((t ++ " " ++ "&&" ++ " " ++ u) :: texts) := by
      cases texts <;> simp [String.intercalate_cons_cons, String.append_assoc]
    rw [htext]
    exact ih (IsText.join (m := .and) rfl rfl le_rfl ht hu)

/-! ### Sides -/

/-- A side of a constraint that a running function gives the value that arithmetic gives it. -/
def IsSide (t : String) : Prop :=
  ∃ x, IsText (.binary 5) t [x] ∧
    ∀ ⦃w : World Float⦄ ⦃s : Locals Float⦄ ⦃env : Env Float⦄, w.Reads s env →
      ∀ v, Arith.eval env t = .ok v → w.eval s x = .ok (.num v)

theorem Readable.isSide {t : String} (h : Readable t) : IsSide t := by
  obtain ⟨x, hx⟩ := h.verbatim.exists_isText h.sentence
  have hcond := (hx.lower (by decide : 1 ≤ 5)).cond
  exact ⟨x, hx, fun w s env hw v hv => h.verbatim.eval_eq hcond.parse? hw.serves hv⟩

/-- The text of an integer is a side. -/
theorem isSide_intText {i : Int} (hi : IsFinite (ofInt i)) : IsSide (intText i) := by
  obtain ⟨ts, hts, hparse⟩ := (isText_numeral (isNumeral_intText i)).1
  refine ⟨_, ⟨ts, hts, .ofUnary hparse⟩, fun w s env hw v hv => ?_⟩
  obtain rfl := (hasValue_intText hi env).2.unique (eval_eq_ok_iff.1 hv)
  exact eval_ofNumber hw.numbers _ (isNegativeZero_ofInt i)

end Script

/-- An index or a runtime variable may stand at the side of a constraint. -/
theorem Recurrence.Scripted.isSide_param {r : Recurrence} (h : r.Scripted) {n : String} (hn : n ∈ r.params) :
    IsSide n := by
  refine ⟨.name n, (h.isText_param hn).binary 5, fun w s env hreads v hv => ?_⟩
  have hvalue := (hasValue_identifier (h.built.isIdentifier_param hn)).1 (eval_eq_ok_iff.1 hv)
  exact hreads.serves.values n v hvalue

/-! ### Guards -/

/-- A condition of a script that tests a guard: a running function that has the values of an environment
finds that it holds where the guard does, and that it does not hold where the guard does not. -/
def Guard.TestedBy (g : Guard) (x : Expression) : Prop :=
  ∀ ⦃w : World Float⦄ ⦃s : Locals Float⦄ ⦃env : Env Float⦄, w.Reads s env →
    ∀ b, g.holds env = .ok b → w.test s x = .ok b

/-- **A constraint is read as a comparison of its sides.** -/
theorem Constraint.exists_test {c : Constraint} (hleft : IsSide c.left) (hright : IsSide c.right) :
    ∃ x, IsText .operand c.render [x] ∧ (Guard.mk [c]).TestedBy x := by
  obtain ⟨x, hx, hxvalue⟩ := hleft
  obtain ⟨y, hy, hyvalue⟩ := hright
  have hlevel : 3 ≤ (Operator.ofComparison c.op).level ∧ (Operator.ofComparison c.op).level ≤ 4 := by
    cases c.op <;> decide
  have hjoin : IsText (.binary 1) (c.left ++ " " ++ c.op.text ++ " " ++ c.right)
      [.binary (Operator.ofComparison c.op) x y] :=
    IsText.join (m := .op (Operator.ofComparison c.op)) rfl (tokens?_comparison c.op) (by omega)
      (hx.lower (by omega)) (hy.lower (by omega))
  refine ⟨_, hjoin.cond.paren, fun w s env hw b hb => ?_⟩
  have hc : c.holds env = .ok b := by
    rw [Guard.holds, Guard.allHold] at hb
    obtain ⟨b', hb', hb⟩ := bind_ok hb
    rw [hb']
    cases b' <;> exact hb
  rw [Constraint.holds] at hc
  obtain ⟨u, hu, hc⟩ := bind_ok hc
  obtain ⟨v, hv, hc⟩ := bind_ok hc
  cases hc
  exact World.test_of_eval ((Expression.eval_binary (hxvalue hw u hu) (hyvalue hw v hv)).trans
    (congrArg Except.ok (ofComparison_apply c.op u v)))

namespace Guard

/-- Constraints after others are tested where those hold. -/
theorem holds_append {env : Env Float} {as bs : List Constraint} {b : Bool}
    (h : (Guard.mk (as ++ bs)).holds env = .ok b) : ∃ a, (Guard.mk as).holds env = .ok a ∧
      (if a then (Guard.mk bs).holds env else .ok false) = .ok b := by
  induction as with
  | nil => exact ⟨true, rfl, h⟩
  | cons c as ih =>
    obtain ⟨held, hheld, h⟩ := bind_ok h
    cases held with
    | true =>
      obtain ⟨a, ha, hrest⟩ := ih h
      refine ⟨a, ?_, hrest⟩
      rw [Guard.holds, Guard.allHold, hheld]
      exact ha
    | false =>
      refine ⟨false, ?_, h⟩
      rw [Guard.holds, Guard.allHold, hheld]
      rfl

theorem TestedBy.both {as bs : List Constraint} {x y : Expression} (hx : (Guard.mk as).TestedBy x)
    (hy : (Guard.mk bs).TestedBy y) : (Guard.mk (as ++ bs)).TestedBy (.both x y) := by
  intro w s env hw b hb
  obtain ⟨a, ha, hrest⟩ := holds_append hb
  rw [World.test_both_of (hx hw a ha)]
  cases a with
  | true => exact hy hw b hrest
  | false => exact hrest

/-- Conditions joined from left to right test their constraints together. -/
theorem testedBy_foldl {as cs : List Constraint} {x : Expression} {xs : List Expression}
    (hx : (Guard.mk as).TestedBy x) (hxs : List.Forall₂ (fun c x => (Guard.mk [c]).TestedBy x) cs xs) :
    (Guard.mk (as ++ cs)).TestedBy (xs.foldl .both x) := by
  induction hxs generalizing as x with
  | nil =>
    rw [List.append_nil]
    exact hx
  | @cons c y cs xs hy _ ih =>
    rw [← List.singleton_append, ← List.append_assoc]
    exact ih (hx.both hy)

/-- **A guard is read as a condition that tests it**, also as the first of conditions that are joined. -/
theorem exists_test_binary {g : Guard} (hg : ∀ t ∈ g.sides, IsSide t) :
    ∃ x, IsText (.binary 2) g.render [x] ∧ g.TestedBy x := by
  obtain ⟨cs⟩ := g
  have hconstraints : ∀ cs : List Constraint, (∀ c ∈ cs, IsSide c.left ∧ IsSide c.right) →
      ∃ xs, List.Forall₂ (fun t e => IsText .operand t [e]) (cs.map Constraint.render) xs ∧
        List.Forall₂ (fun c x => (Guard.mk [c]).TestedBy x) cs xs := by
    intro cs hcs
    induction cs with
    | nil => exact ⟨[], .nil, .nil⟩
    | cons c cs ih =>
      rw [List.forall_mem_cons] at hcs
      obtain ⟨x, htext, htest⟩ := Constraint.exists_test hcs.1.1 hcs.1.2
      obtain ⟨xs, htexts, htests⟩ := ih hcs.2
      exact ⟨x :: xs, .cons htext htexts, .cons htest htests⟩
  obtain ⟨xs, htexts, htests⟩ := hconstraints cs fun c hc =>
    ⟨hg _ (List.mem_flatMap.2 ⟨c, hc, by simp⟩), hg _ (List.mem_flatMap.2 ⟨c, hc, by simp⟩)⟩
  cases htests with
  | nil =>
    refine ⟨.truth true, ⟨[.name "true"], rfl, .ofUnary (.ofOperand (.name rfl))⟩, ?_⟩
    intro w s env _ b hb
    cases hb
    rfl
  | @cons c x cs xs hx hxs =>
    cases htexts with
    | cons ht hts =>
      exact ⟨_, isText_both (ht.binary 2) (hts.imp fun _ _ h => h.binary 3), testedBy_foldl hx hxs⟩

theorem exists_test {g : Guard} (hg : ∀ t ∈ g.sides, IsSide t) :
    ∃ x, IsText .cond g.render [x] ∧ g.TestedBy x := by
  obtain ⟨x, hx, htest⟩ := exists_test_binary hg
  exact ⟨x, (hx.lower (by decide : 1 ≤ 2)).cond, htest⟩

/-- A condition whose negation a negated guard is read as, and which tests the guard. -/
def NegatedBy (g : Guard) (x : Expression) : Prop :=
  IsText .unary g.renderNegated [.not x] ∧ g.TestedBy x

/-- **A negated guard is read as the negation of a condition that tests the guard.** A single constraint
brings its own parentheses. -/
theorem exists_negatedBy {g : Guard} (hg : ∀ t ∈ g.sides, IsSide t) : ∃ x, g.NegatedBy x := by
  show ∃ x, IsText .unary g.renderNegated [.not x] ∧ g.TestedBy x
  rw [renderNegated]
  split
  · next hone =>
    obtain ⟨c, hc⟩ := List.length_eq_one_iff.1 (beq_iff_eq.1 hone)
    obtain ⟨cs⟩ := g
    obtain rfl : cs = [c] := hc
    obtain ⟨x, hx, htest⟩ := Constraint.exists_test (hg c.left (by simp [sides])) (hg c.right (by simp [sides]))
    have hrender : (Guard.mk [c]).render = c.render := by simp [render]
    rw [hrender]
    exact ⟨x, hx.not (by simp [Constraint.render]), htest⟩
  · obtain ⟨x, hx, htest⟩ := exists_test hg
    have hparen : "!(" ++ g.render ++ ")" = "!" ++ ("(" ++ g.render ++ ")") := by
      simp [← String.toList_inj]
    rw [hparen]
    exact ⟨x, hx.paren.not (by simp), htest⟩

theorem exists_forall₂_negatedBy {es : List Guard} (h : ∀ e ∈ es, ∀ t ∈ e.sides, IsSide t) :
    ∃ xs, List.Forall₂ NegatedBy es xs := by
  induction es with
  | nil => exact ⟨[], .nil⟩
  | cons e es ih =>
    rw [List.forall_mem_cons] at h
    obtain ⟨x, hx⟩ := exists_negatedBy h.1
    obtain ⟨xs, hxs⟩ := ih h.2
    exact ⟨x :: xs, .cons hx hxs⟩

section
variable {es : List Guard} {xs : List Expression} (h : List.Forall₂ NegatedBy es xs)
include h

theorem isText_negated : List.Forall₂ (fun t x => IsText (.binary 3) t [x]) (es.map renderNegated)
    (xs.map Expression.not) := by
  rw [List.forall₂_map_left_iff, List.forall₂_map_right_iff]
  exact h.imp fun _ _ hx => hx.1.ofUnary 3

/-- Where guards can be decided, their negations hold together if none of the guards does. -/
theorem test_negated {w : World Float} {s : Locals Float} {env : Env Float} (hw : w.Reads s env)
    (hdecided : ∀ e ∈ es, ∃ b, e.holds env = .ok b) :
    ∃ bs, List.Forall₂ (fun b x => w.test s x = .ok b) bs (xs.map Expression.not) ∧
      (bs.all id = true ↔ ∀ e ∈ es, e.holds env ≠ .ok true) := by
  induction h with
  | nil => exact ⟨[], .nil, by simp⟩
  | @cons e x es xs hx _ ih =>
    rw [List.forall_mem_cons] at hdecided
    obtain ⟨b, hb⟩ := hdecided.1
    obtain ⟨bs, hbs, hall⟩ := ih hdecided.2
    refine ⟨(!b) :: bs, .cons (World.test_not (hx.2 hw b hb)) hbs, ?_⟩
    rw [List.forall_mem_cons, ← hall, hb]
    cases b <;> simp

end

end Guard

/-! ### Exclusive guards -/

namespace RuleGuard

variable {g : RuleGuard}

/-- **The exclusive guard of a rule is read as a condition that holds exactly where the rule is enabled**, if
the guard and the exclusions can be decided there. -/
theorem exists_test_exclusive (hsides : ∀ e ∈ g.guard :: g.exclusions, ∀ t ∈ e.sides, IsSide t)
    (hne : g.exclusive.isEmpty = false) : ∃ x, IsText .cond g.exclusive [x] ∧
      ∀ ⦃w : World Float⦄ ⦃s : Locals Float⦄ ⦃env : Env Float⦄, w.Reads s env →
        (∀ e ∈ g.guard :: g.exclusions, ∃ b, e.holds env = .ok b) →
        ∃ b, w.test s x = .ok b ∧ (b = true ↔ g.Enabled env) := by
  obtain ⟨rule, guard, exclusions⟩ := g
  dsimp only at hsides ⊢
  rw [List.forall_mem_cons] at hsides
  obtain ⟨xs, hxs⟩ := Guard.exists_forall₂_negatedBy hsides.2
  rw [exclusive] at hne ⊢
  dsimp only at hne ⊢
  split
  · next hempty =>
    -- A rule without constraints has exclusions, and the first of them starts the text.
    have hguard (env : Env Float) : guard.holds env = .ok true := by
      rw [Guard.holds, List.isEmpty_iff.1 hempty, Guard.allHold]
    cases hxs with
    | nil =>
      rw [if_pos hempty] at hne
      cases hne
    | cons hx hxs =>
      refine ⟨_, ((isText_both (hx.1.ofUnary 2) (Guard.isText_negated hxs)).lower (by decide : 1 ≤ 2)).cond,
        fun w s env hw hdecided => ?_⟩
      obtain ⟨bs, hbs, hall⟩ := Guard.test_negated (.cons hx hxs) hw (List.forall_mem_cons.1 hdecided).2
      cases hbs with
      | cons hb hbs =>
        refine ⟨_, World.test_foldl_both hb hbs, ?_⟩
        rw [Enabled, ← hall, hguard]
        simp
  · obtain ⟨x, hx, htest⟩ := Guard.exists_test_binary hsides.1
    refine ⟨_, ((isText_both hx (Guard.isText_negated hxs)).lower (by decide : 1 ≤ 2)).cond,
      fun w s env hw hdecided => ?_⟩
    rw [List.forall_mem_cons] at hdecided
    obtain ⟨⟨b, hb⟩, hdecided⟩ := hdecided
    obtain ⟨bs, hbs, hall⟩ := Guard.test_negated hxs hw hdecided
    refine ⟨_, World.test_foldl_both (htest hw b hb) hbs, ?_⟩
    rw [Bool.and_eq_true, hall, Enabled, hb]
    simp

end RuleGuard

/-- **The condition that is written for a rule holds exactly where the rule is selected.** -/
theorem Recurrence.exists_test_requireGuard {r : Recurrence} (hr : r.Built)
    (hsides : ∀ g ∈ r.guards, ∀ t ∈ g.sides, IsSide t) {g : RuleGuard} (hg : g ∈ r.ruleGuards)
    {text : String} (htext : r.requireGuard g = .ok text) : ∃ x, IsText .cond text [x] ∧
      ∀ ⦃w : World Float⦄ ⦃s : Locals Float⦄ ⦃env : Env Float⦄, w.Reads s env → r.Decides env →
        ∃ b, w.test s x = .ok b ∧ (b = true ↔ r.select env = .ok (.rule g.rule)) := by
  rw [requireGuard] at htext
  split at htext
  · cases htext
  · next hne =>
    cases htext
    have hreads : ∀ e ∈ g.guard :: g.exclusions, ∀ t ∈ e.sides, IsSide t := by
      intro e he t ht
      obtain ⟨c, hc, ht⟩ := List.mem_flatMap.1 ht
      obtain ⟨h, hh, hc⟩ := constraints_of_ruleGuard hg he hc
      exact hsides h hh t (List.mem_flatMap.2 ⟨c, hc, ht⟩)
    obtain ⟨x, hx, htest⟩ := RuleGuard.exists_test_exclusive hreads (by simpa using hne)
    refine ⟨x, hx, fun w s env hw henv => ?_⟩
    have hdecided : ∀ e ∈ g.guard :: g.exclusions, ∃ b, e.holds env = .ok b := by
      intro e he
      by_cases hholds : e.holds env = .ok true
      · exact ⟨true, hholds⟩
      · refine ⟨false, holds_eq_false_of_ne (fun c hc => ?_) hholds⟩
        obtain ⟨h, hh, hc⟩ := constraints_of_ruleGuard hg he hc
        exact henv.evaluates h hh c hc
    obtain ⟨b, hb, henabled⟩ := htest hw hdecided
    exact ⟨b, hb, henabled.trans (enabled_iff_select hr.wellFormed henv hg)⟩

end RecurrenceCompiler
