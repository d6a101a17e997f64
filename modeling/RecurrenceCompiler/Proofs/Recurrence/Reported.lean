import RecurrenceCompiler.Proofs.Decimal.Operations
import RecurrenceCompiler.Proofs.Expr.Eval
import RecurrenceCompiler.Proofs.Recurrence.Built
import RecurrenceCompiler.Proofs.RuleText.Sentences

/-!
# Unknown names are reported

What is read from rule text ends in numbers, runtime variables, texts that consist of tokens, table
entries and calls (`Kept`), whatever brackets the text has (`allKept_parseRule`, `allKept_parseValue`).
No leaf is a reference, and none is text that is put out unread. Rules have no table entries, so their
leaves are kept whatever the tables are.

Each expression that a recurrence stores was read from a text, and the warnings about it are among the
diagnostics (`Built.reported`). So where no identifier is reported as unknown, every name in the text
of a leaf is an index, a runtime variable or an elementary function (`Built.knows`).
-/

namespace RecurrenceCompiler

open Text Decimal Arith RuleText

/-! ## Leaves that are kept -/

namespace RuleText

/-- A leaf that is read from a text, given the runtime variables, the indices and the tables among the
runtime variables. A runtime text mentions no index: a text that does is kept as index arithmetic. -/
inductive Kept (vars indices tables : List String) : Expr → Prop
  | number (x : Float) : Kept vars indices tables (.number x)
  | runtime {v : String} : v ∈ vars → Kept vars indices tables (.var v)
  | text {t : String} : (tokens? t.toList).isSome → (∀ n ∈ pieceNames t.toList, n ∉ indices) →
      Kept vars indices tables (.var t)
  | index {t : String} : (tokens? t.toList).isSome → Kept vars indices tables (.index t)
  | lookup {table i : String} : table ∈ tables → Kept vars indices tables (.lookup table i)
  | call {c : Call} : (∀ t, c.target = some t → isIdentifier t) → Kept vars indices tables (.call c)

/-- An expression whose leaves are kept. -/
def AllKept (vars indices tables : List String) (e : Expr) : Prop :=
  ∀ l ∈ e.leaves, Kept vars indices tables l

section
variable {vars indices tables : List String}

theorem allKept_number (x : Float) : AllKept vars indices tables (.number x) := by
  rw [AllKept, Expr.number, Expr.leaves, List.forall_mem_singleton]
  exact .number x

theorem allKept_binop {op : BinOp} {l r : Expr} (hl : AllKept vars indices tables l)
    (hr : AllKept vars indices tables r) :
    AllKept vars indices tables (.binop op l r) := by
  rw [AllKept, Expr.leaves]
  exact List.forall_mem_append.2 ⟨hl, hr⟩

theorem allKept_negate {e : Expr} (h : AllKept vars indices tables e) : AllKept vars indices tables (negate e) := by
  unfold negate
  split
  · exact allKept_number _
  · exact allKept_binop (allKept_number _) h

/-- A term with a coefficient and a call that are kept. -/
theorem allKept_term {t : Term Expr} (hcoeff : AllKept vars indices tables t.coeff) {c : Call}
    (hfactor : t.factor = .call c) (hc : ∀ n, c.target = some n → isIdentifier n) :
    AllKept vars indices tables (.term t) := by
  rw [AllKept, Expr.leaves, hfactor]
  exact List.forall_mem_append.2 ⟨hcoeff, List.forall_mem_singleton.2 (.call hc)⟩

theorem allKept_sum {ts : List (Term Expr)} (h : ∀ t ∈ ts, AllKept vars indices tables (.term t)) :
    AllKept vars indices tables (.sum ts) := by
  rw [AllKept, Expr.leaves_sum]
  exact List.forall_mem_flatMap.2 h

theorem allKept_scaled {inner scale : Expr} {division : Bool} (hi : AllKept vars indices tables inner)
    (hs : AllKept vars indices tables scale) : AllKept vars indices tables (.scaled inner scale division) := by
  rw [AllKept, Expr.leaves]
  exact List.forall_mem_append.2 ⟨hi, hs⟩

theorem allKept_average {bs : List Expr} {scale : Expr} (hb : ∀ b ∈ bs, AllKept vars indices tables b)
    (hs : AllKept vars indices tables scale) : AllKept vars indices tables (.average bs scale) := by
  rw [AllKept, Expr.leaves_average]
  exact List.forall_mem_append.2 ⟨List.forall_mem_flatMap.2 hb, hs⟩

end

variable {ctx : Context} {tables : List String}

/-- **What is read has leaves that are kept**, if what was read before has. -/
theorem Reads.allKept {g : Reading} {e : Expr} (h : Reads ctx g e)
    (hacc : ∀ a ∈ g.soFar, AllKept ctx.runtimeVars ctx.indices tables a) :
    AllKept ctx.runtimeVars ctx.indices tables e := by
  induction h with
  | coeff _ ih | wrapped _ _ ih => exact ih (by rintro _ ⟨⟩)
  | done => exact hacc _ rfl
  | @next acc f fs a e _ _ ihf ihfs =>
    have ha := ihf (by rintro _ ⟨⟩)
    refine ihfs ?_
    rintro b ⟨⟩
    cases acc with
    | none => exact ha
    | some a' => exact allKept_binop (hacc a' rfl) ha
  | number => exact allKept_number _
  | runtime hv =>
    rw [AllKept, Expr.leaves, List.forall_mem_singleton]
    exact .runtime hv
  | @index cs htokens =>
    rw [AllKept, Expr.leaves, List.forall_mem_singleton]
    exact .index (by rwa [String.toList_ofList])
  | negated _ ih => exact allKept_negate (ih (by rintro _ ⟨⟩))
  | @name cs hname hnames =>
    obtain ⟨ts, hts, -⟩ := isSentence_name hname
    rw [AllKept, Expr.leaves, List.forall_mem_singleton]
    exact .text (by rw [String.toList_ofList, hts]; rfl) (by rwa [String.toList_ofList])
  | @verbatim cs htokens hnames =>
    obtain ⟨ts, hts⟩ := Option.isSome_iff_exists.1 htokens
    rw [AllKept, Expr.leaves, List.forall_mem_singleton]
    refine .text (by rw [String.toList_ofList, tokens?_paren hts]; rfl) ?_
    rwa [String.toList_ofList, pieceNames_paren]

theorem allKept_parseCoeff {cs : List Char} {e : Expr} (h : parseCoeff ctx cs = .ok e) :
    AllKept ctx.runtimeVars ctx.indices tables e :=
  (reads_parseCoeff h).allKept nofun

/-- A term is a coefficient, which is read or one or minus one, and a call. -/
theorem allKept_parseTerm {p : RuleText.Piece} {t : Term Expr} (hbal : balanced p.text)
    (h : parseTerm ctx p = .ok t) : AllKept ctx.runtimeVars ctx.indices tables (.term t) := by
  obtain ⟨front, name, inside, call, coeff, hcall, hname, hcoeff, -, hfront, -, rfl⟩ :=
    parseTerm_eq_ok hbal h
  have hcoeff : AllKept ctx.runtimeVars ctx.indices tables coeff := by
    rcases parseFront_eq_ok hfront hcoeff with ⟨-, x, rfl⟩ | ⟨cs, -, hcs, -, -⟩
    · exact allKept_number x
    · exact allKept_parseCoeff hcs
  refine allKept_term ?_ rfl (spelled_parseCall hname hcall).target
  dsimp only
  split
  · exact allKept_negate hcoeff
  · exact hcoeff

theorem allKept_parseTerms {body : List Char} {ps : List RuleText.Piece} {ts : List (Term Expr)}
    (hbal : ∀ p ∈ ps, balanced p.text) (h : parseTerms ctx body ps = .ok ts) :
    ∀ t ∈ ts, AllKept ctx.runtimeVars ctx.indices tables (.term t) := by
  induction ps generalizing ts with
  | nil =>
    cases h
    simp
  | cons p ps ih =>
    rw [parseTerms] at h
    split at h
    · cases h
    · obtain ⟨t, ht, h⟩ := bind_ok h
      obtain ⟨ts', hts', h⟩ := bind_ok h
      cases h
      exact List.forall_mem_cons.2 ⟨allKept_parseTerm (hbal p (by simp)) ht,
        ih (fun q hq => hbal q (by simp [hq])) hts'⟩

theorem allKept_parseBody {text : String} {e : Expr} (h : parseBody ctx text = .ok e) :
    AllKept ctx.runtimeVars ctx.indices tables e := by
  obtain ⟨ts, body, rfl, -, hbal, hts⟩ := parseBody_eq_ok h
  exact allKept_sum (allKept_parseTerms (balanced_splitTerms hbal) hts)

/-- **A rule has leaves that are kept.** -/
theorem allKept_parseRule {text : String} {scale : Option String} {e : Expr}
    (h : parseRule ctx text scale = .ok e) : AllKept ctx.runtimeVars ctx.indices tables e := by
  obtain ⟨body, hbody, h⟩ := bind_ok h
  have hbody : AllKept ctx.runtimeVars ctx.indices tables body := allKept_parseBody hbody
  cases scale with
  | none =>
    cases h
    exact hbody
  | some s =>
    obtain ⟨⟨factor, division⟩, hscale, h⟩ := bind_ok h
    cases h
    exact allKept_scaled hbody (allKept_parseCoeff (parseScaleChars_eq_ok hscale))

/-- **The value of a base case has leaves that are kept.** -/
theorem allKept_parseValue {value : Constant} {e : Expr} (h : parseValue ctx value = .ok e) :
    AllKept ctx.runtimeVars ctx.indices ctx.arrayVars e := by
  cases value with
  | number x =>
    cases h
    exact allKept_number x
  | raw text =>
    unfold parseValue at h
    dsimp only at h
    split at h
    · cases h
    · split at h
      · cases h
        exact allKept_number _
      · split at h
        · next hrun =>
          cases h
          rw [AllKept, Expr.leaves, List.forall_mem_singleton]
          exact .runtime (List.contains_iff_mem.1 hrun)
        · split at h
          · split at h
            · next harray =>
              cases h
              rw [AllKept, Expr.leaves, List.forall_mem_singleton]
              exact .lookup (List.contains_iff_mem.1 harray)
            · exact allKept_parseCoeff h
          · exact allKept_parseCoeff h

end RuleText

/-! ## Warnings -/

namespace RuleText.Context

variable {ctx : Context}

/-- Every warning about an expression is about an unknown name. -/
theorem code_of_mem_warnings {e : Expr} {d : Diagnostic} (h : d ∈ ctx.warnings e) :
    d.code = .unknownIdentifier := by
  obtain ⟨t, -, h⟩ := List.mem_flatMap.1 h
  obtain ⟨n, -, rfl⟩ := List.mem_map.1 h
  rfl

/-- What is not warned about is known. -/
theorem knows_of_warnings_eq_nil {e : Expr} (h : ctx.warnings e = []) {l : Expr} (hl : l ∈ e.leaves)
    {t : String} (ht : t ∈ ctx.leafTexts l) {n : String} (hn : n ∈ namesIn t) : ctx.knows n := by
  have hnone := List.flatMap_eq_nil_iff.1 h t (List.mem_flatMap.2 ⟨l, hl, ht⟩)
  simpa using List.filter_eq_nil_iff.1 (List.map_eq_nil_iff.1 hnone) n hn

/-- An average is warned about as its branches are. -/
theorem warnings_average (bs : List Expr) (x : Float) :
    ctx.warnings (.average bs (.number x)) = bs.flatMap ctx.warnings := by
  have hscale : (Expr.number x).leaves.flatMap ctx.leafTexts = [] := rfl
  rw [warnings, Expr.leaves_average, List.flatMap_append, hscale, List.append_nil]
  simp only [List.flatMap_assoc]
  exact List.flatMap_congr fun b _ => by rw [warnings, List.flatMap_assoc]

end RuleText.Context

namespace Recurrence

variable {r r' : Recurrence}

/-- The values of the base cases and the right-hand sides of the rules. -/
def exprs (r : Recurrence) : List Expr :=
  r.bases.map (·.value) ++ r.rules.map (·.expr)

theorem value_mem_exprs {b : BaseCase} (h : b ∈ r.bases) : b.value ∈ r.exprs :=
  List.mem_append_left _ (List.mem_map_of_mem h)

theorem expr_mem_exprs {rule : Rule} (h : rule ∈ r.rules) : rule.expr ∈ r.exprs :=
  List.mem_append_right _ (List.mem_map_of_mem h)

/-- An expression was read from a text of a recurrence, and what is to be reported about it is. -/
structure Reports (r : Recurrence) (e : Expr) : Prop where
  kept : AllKept r.runtimeVars r.indices r.arrayVars e
  warned : ∃ i, (r.context i).warnings e ⊆ r.diagnostics

/-- More warnings do not hurt. -/
theorem Reports.mono {e : Expr} (h : r.Reports e) (hheader : r'.toHeader = r.toHeader)
    (hdiags : r.diagnostics ⊆ r'.diagnostics) : r'.Reports e := by
  obtain ⟨i, hi⟩ := h.warned
  refine ⟨?_, i, ?_⟩
  · rw [hheader]
    exact h.kept
  · rw [hheader]
    exact List.Subset.trans hi hdiags

/-- The integers that base cases bind are finite doubles, and all expressions are reported. -/
structure Reported (r : Recurrence) : Prop where
  exprs : ∀ e ∈ r.exprs, r.Reports e
  slots : ∀ b ∈ r.bases, ∀ w, some w ∈ b.slots → IsFinite (ofInt w.toInt)

/-- Bound slots hold finite numbers. -/
theorem isFinite_readSlots {slots slots' : List (Option Whole)} {bound : List (String × Float)}
    (h : r.readSlots slots bound = .ok slots')
    (hslots : ∀ w, some w ∈ slots → IsFinite (ofInt w.toInt)) :
    ∀ w, some w ∈ slots' → IsFinite (ofInt w.toInt) := by
  induction bound generalizing slots with
  | nil =>
    cases h
    exact hslots
  | cons p bound ih =>
    rw [readSlots] at h
    split at h
    · cases h
    · split at h
      · cases h
      · next hwhole =>
        refine ih h fun w hw => ?_
        rcases List.mem_or_eq_of_mem_set hw with hw | hw
        · exact hslots w hw
        · obtain rfl := Option.some.inj hw
          rw [Whole.ofFloat]
          split
          · exact (isInt_ofInt (i := 0) (by decide)).finite
          · rw [Whole.toInt_ofInt]
            exact isFinite_ofInt_toInt (by simpa using hwhole)

/-- What is added with a rule. -/
theorem Reported.withRule (hr : r.Reported) (g : Guard) {e : Expr} (name : Option String)
    {ds : List Diagnostic} (he : AllKept r.runtimeVars r.indices r.arrayVars e)
    (hds : r.nextContext.warnings e ⊆ ds) : (r.withRule g e name ds).Reported := by
  refine ⟨fun e' he' => ?_, hr.slots⟩
  rw [Recurrence.exprs, Recurrence.withRule, List.map_append, ← List.append_assoc] at he'
  rcases List.mem_append.1 he' with he' | he'
  · exact (hr.exprs e' he').mono rfl (List.subset_append_left _ _)
  · obtain rfl := List.mem_singleton.1 he'
    exact ⟨he, some r.rules.length, List.Subset.trans hds (List.subset_append_right _ _)⟩

/-- **What a step that runs through does keeps the expressions reported.** -/
theorem Reported.performs {s : Step} (hr : r.Reported) (h : r.Performs s r') : r'.Reported := by
  cases h with
  | validity => exact ⟨fun e he => (hr.exprs e he).mono rfl (List.Subset.refl _), hr.slots⟩
  | @base bound value slots e hslots _ he =>
    refine ⟨fun e' he' => ?_, List.forall_mem_append.2 ⟨hr.slots, List.forall_mem_singleton.2 ?_⟩⟩
    · rw [Recurrence.exprs, List.map_append, List.append_assoc] at he'
      rcases List.mem_append.1 he' with hbase | he'
      · exact (hr.exprs e' (List.mem_append_left _ hbase)).mono rfl (List.subset_append_left _ _)
      · rcases List.mem_append.1 he' with hnew | hrule
        · obtain rfl := List.mem_singleton.1 hnew
          exact ⟨allKept_parseValue he, none, List.subset_append_right _ _⟩
        · exact (hr.exprs e' (List.mem_append_right _ hrule)).mono rfl (List.subset_append_left _ _)
    · exact isFinite_readSlots hslots (by simp)
  | rule _ he => exact hr.withRule _ _ (allKept_parseRule he) (List.Subset.refl _)
  | average _ _ hes =>
    refine hr.withRule _ _ (allKept_average (fun e he => ?_) (allKept_number _)) ?_
    · obtain ⟨b, -, hb⟩ := exists_of_forall₂ hes he
      exact allKept_parseBody hb
    · rw [Context.warnings_average]
      exact List.Subset.refl _

/-- **What is built is reported.** -/
theorem Built.reported (h : r.Built) : r.Reported := by
  induction h with
  | create h =>
    have hr := created_of_create h
    exact ⟨by simp [Recurrence.exprs, hr.bases, hr.rules], by simp [hr.bases]⟩
  | @step r s hr ih =>
    rcases r.run_cases s with h | ⟨ds, h⟩
    · exact ih.performs h
    · rw [h]
      exact ⟨fun e he => (ih.exprs e he).mono rfl (List.subset_append_left _ _), ih.slots⟩

/-- **Where no identifier is reported as unknown, every name in the text of a leaf is known.** -/
theorem Built.knows (h : r.Built) (hknown : ∀ d ∈ r.diagnostics, d.code ≠ .unknownIdentifier)
    {e : Expr} (he : e ∈ r.exprs) {l : Expr} (hl : l ∈ e.leaves) {t : String}
    (ht : t ∈ (r.context none).leafTexts l) {n : String} (hn : n ∈ namesIn t) :
    (r.context none).knows n := by
  obtain ⟨i, hi⟩ := (h.reported.exprs e he).warned
  have hnone : (r.context i).warnings e = [] := by
    refine List.eq_nil_iff_forall_not_mem.2 fun d hd => ?_
    exact hknown d (hi hd) (Context.code_of_mem_warnings hd)
  exact Context.knows_of_warnings_eq_nil hnone hl ht hn

end Recurrence

end RecurrenceCompiler
