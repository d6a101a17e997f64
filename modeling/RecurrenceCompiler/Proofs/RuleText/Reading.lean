import RecurrenceCompiler.Expr.Sharing
import RecurrenceCompiler.Proofs.RuleText.RoundTrip

/-!
# Accepted text

`Reads` is what the parser of coefficients accepts, one rule for each way through it: a text is cut
into factors, the factors are multiplied from left to right, and each of them is a leaf, a text in
parentheses or a negated factor. The bound on the nesting is gone, so an induction over it has one case
for each of these and nothing to say about fuel (`reads_parseCoeff`).

The first thing that such an induction gives is the shape of what is read, for every text, balanced or
not: coefficients and base values hold numbers, texts, table entries and products (`isArithmetic`),
never a call, a reference, a term or a sum (`isArithmetic_parseCoeff`, `isArithmetic_parseValue`), and a
rule is a sum, a scaled sum or an average of sums of terms (`isRuleShaped_parseRule`).

The second is what the signatures of coefficients show. A factor of a balanced text has no star outside
its brackets, since the text was cut at these. So coefficients can be read back from their signatures
whatever the names of the runtime variables are (`isSeparable_parseCoeff`), and two of them have one
signature exactly if they differ in the signs of zeros only (`signature_eq_iff`). Zero and negative zero
do have one signature (`zeros_merge`).
-/

namespace RecurrenceCompiler

open Text Decimal Arith

/-! ## Shapes -/

/-- Whether an expression is made of constants, texts, table entries and operations only: it holds no
call, no reference, no term and no sum. -/
def Expr.isArithmetic : Expr → Bool
  | .const _ | .var _ | .index _ | .lookup _ _ => true
  | .binop _ l r => l.isArithmetic && r.isArithmetic
  | _ => false

/-- Whether a term is a coefficient times a call with one shift for each index. -/
def Term.isShaped (rank : Nat) (t : Term Expr) : Bool :=
  t.coeff.isArithmetic &&
    match t.factor with
    | .call c => c.shifts.length == rank
    | .ref _ => false

namespace Expr

/-- Whether an expression is a sum of at least one term. -/
def isSumShaped (rank : Nat) : Expr → Bool
  | .sum ts => !ts.isEmpty && ts.all (Term.isShaped rank)
  | _ => false

/-- Whether an expression is the right-hand side of a rule: a sum, a scaled sum, or an average of at
least one sum. -/
def isRuleShaped (rank : Nat) : Expr → Bool
  | .scaled inner scale _ => inner.isSumShaped rank && scale.isArithmetic
  | .average branches scale =>
    !branches.isEmpty && branches.all (isSumShaped rank) && scale.isArithmetic
  | e => e.isSumShaped rank

theorem isArithmetic_number (x : Float) : (number x).isArithmetic = true := by
  rw [number, isArithmetic]

/-- Arithmetic makes no calls. -/
theorem not_call_of_isArithmetic {e : Expr} (h : e.isArithmetic) {c : Call} : .call c ∉ e.leaves := by
  induction e using Expr.induction with
  | const | var | index | lookup => simp [Expr.leaves]
  | binop op l r ihl ihr =>
    rw [Expr.isArithmetic, Bool.and_eq_true] at h
    rw [Expr.leaves, List.mem_append, not_or]
    exact ⟨ihl h.1, ihr h.2⟩
  | _ => simp [Expr.isArithmetic] at h

theorem calls_of_isArithmetic {e : Expr} (h : e.isArithmetic) : e.calls = [] := by
  rw [calls, List.filterMap_eq_nil_iff]
  intro l hl
  cases l with
  | call c => exact absurd hl (not_call_of_isArithmetic h)
  | _ => rfl

theorem IsCoefficient.isArithmetic {e : Expr} (h : e.IsCoefficient) : e.isArithmetic = true := by
  induction h with
  | number x => exact isArithmetic_number x
  | var | index => rw [Expr.isArithmetic]
  | mul _ _ ihl ihr => rw [Expr.isArithmetic, ihl, ihr, Bool.and_self]

/-- A sum is a rule. -/
theorem isRuleShaped_of_isSumShaped {rank : Nat} {e : Expr} (h : e.isSumShaped rank = true) :
    e.isRuleShaped rank = true := by
  cases e with
  | sum ts => exact h
  | _ => cases h

end Expr

namespace RuleText

variable {ctx : Context}

/-! ## The relation -/

/-- What the parser of coefficients is at: a coefficient, the factors still to be read and the product
of those before them, or a factor. -/
inductive Reading where
  | coeff (cs : List Char)
  | factors (acc : Option Expr) (fs : List (List Char))
  | factor (cs : List Char)

/-- What is read, one rule for each way through the parser. -/
inductive Reads (ctx : Context) : Reading → Expr → Prop
  | coeff {cs e} : Reads ctx (.factors none (splitTop '*' (trim cs))) e → Reads ctx (.coeff cs) e
  | done {e} : Reads ctx (.factors (some e) []) e
  | next {acc f fs a e} : Reads ctx (.factor f) a →
      Reads ctx (.factors (some ((acc.map (.binop .mul · a)).getD a)) fs) e →
      Reads ctx (.factors acc (f :: fs)) e
  | number {cs x} : literal? cs = some x → Reads ctx (.factor cs) (.number x)
  | runtime {cs} : String.ofList cs ∈ ctx.runtimeVars → Reads ctx (.factor cs) (.var (String.ofList cs))
  | index {cs} : (tokens? (unwrap cs)).isSome →
      Reads ctx (.factor cs) (.index (String.ofList (unwrap cs)))
  | wrapped {cs e} : isWrapped cs → Reads ctx (.coeff (peel cs)) e → Reads ctx (.factor cs) e
  | negated {rest e} : Reads ctx (.factor (trim rest)) e → Reads ctx (.factor ('-' :: rest)) (negate e)
  | name {cs} : isName cs → (∀ n ∈ pieceNames cs, n ∉ ctx.indices) →
      Reads ctx (.factor cs) (.var (String.ofList cs))
  | verbatim {cs} : (tokens? cs).isSome → (∀ n ∈ pieceNames cs, n ∉ ctx.indices) →
      Reads ctx (.factor cs) (.var (String.ofList ('(' :: cs ++ [')'])))

/-- The parser's answers within a bound, one field a function. -/
structure Accepts (ctx : Context) (fuel : Nat) : Prop where
  coeff : ∀ {cs e}, coeffWithin ctx fuel cs = .ok e → Reads ctx (.coeff cs) e
  factors : ∀ {whole acc fs e}, factorsWithin ctx fuel whole acc fs = .ok e →
    Reads ctx (.factors acc fs) e
  factor : ∀ {cs e}, factorWithin ctx fuel cs = .ok e → Reads ctx (.factor cs) e

/-- One more level of nesting. -/
theorem accepts_succ {fuel : Nat} (ih : Accepts ctx fuel) : Accepts ctx (fuel + 1) where
  coeff := by
    intro cs e h
    rw [coeffWithin] at h
    exact .coeff (ih.factors h)
  factors := by
    intro whole acc fs e h
    cases fs with
    | nil =>
      cases acc with
      | none => cases h
      | some a =>
        cases h
        exact .done
    | cons f fs =>
      rw [factorsWithin] at h
      split at h
      · cases h
      · obtain ⟨a, ha, h⟩ := bind_ok h
        exact .next (ih.factor ha) (ih.factors h)
  factor := by
    intro cs e h
    unfold factorWithin at h
    dsimp only at h
    split at h
    · next hx =>
      cases h
      exact .number hx
    · split at h
      · next hrun =>
        cases h
        exact .runtime (by simpa using hrun)
      · split at h
        · obtain ⟨⟨⟩, hcheck, h⟩ := bind_ok h
          cases h
          exact .index (checkTokens_eq_ok.1 hcheck)
        · next hnames =>
          have hnames : ∀ n ∈ pieceNames cs, n ∉ ctx.indices := by
            rw [any_namesIn, String.toList_ofList] at hnames
            exact fun n hn hindex => hnames ⟨n, hn, hindex⟩
          split at h
          · next hw => exact .wrapped hw (ih.coeff h)
          · split at h
            · next rest _ _ _ _ =>
              split at h
              · cases h
              · cases hf : factorWithin ctx fuel (trim rest) with
                | error err =>
                  rw [hf] at h
                  cases h
                | ok a =>
                  rw [hf] at h
                  cases h
                  exact .negated (ih.factor hf)
            · obtain ⟨⟨⟩, hcheck, h⟩ := bind_ok h
              cases h
              split
              · next hname => exact .name (by simpa [isIdentifier] using hname) hnames
              · rw [← ofList_paren]
                exact .verbatim (checkTokens_eq_ok.1 hcheck) hnames

theorem accepts : ∀ fuel, Accepts ctx fuel
  | 0 => ⟨fun h => (by cases h), fun h => (by cases h), fun h => (by cases h)⟩
  | fuel + 1 => accepts_succ (accepts fuel)

/-- **What the parser accepts is read.** -/
theorem reads_parseCoeff {cs : List Char} {e : Expr} (h : parseCoeff ctx cs = .ok e) :
    Reads ctx (.coeff cs) e :=
  (accepts _).coeff h

/-! ## The shape of what is read -/

/-- The product of the factors read before, if there are any. -/
def Reading.soFar : Reading → Option Expr
  | .factors acc _ => acc
  | _ => none

theorem isArithmetic_negate {e : Expr} (h : e.isArithmetic = true) :
    (negate e).isArithmetic = true := by
  unfold negate
  split
  · exact Expr.isArithmetic_number _
  · rw [Expr.isArithmetic, Expr.isArithmetic_number, h, Bool.and_self]

/-- **What is read is arithmetic**, if what was read before is. -/
theorem Reads.isArithmetic {g : Reading} {e : Expr} (h : Reads ctx g e)
    (hacc : ∀ a ∈ g.soFar, a.isArithmetic = true) : e.isArithmetic = true := by
  induction h with
  | coeff _ ih | wrapped _ _ ih => exact ih nofun
  | done => exact hacc _ rfl
  | @next acc f fs a e _ _ ihf ihfs =>
    have ha := ihf nofun
    refine ihfs ?_
    rintro b ⟨⟩
    cases acc with
    | none => exact ha
    | some a' =>
      change (a'.isArithmetic && a.isArithmetic) = true
      rw [hacc a' rfl, ha, Bool.and_self]
  | number => exact Expr.isArithmetic_number _
  | runtime | index | name | verbatim => rw [Expr.isArithmetic]
  | negated _ ih => exact isArithmetic_negate (ih nofun)

theorem isArithmetic_parseCoeff {cs : List Char} {e : Expr} (h : parseCoeff ctx cs = .ok e) :
    e.isArithmetic = true :=
  (reads_parseCoeff h).isArithmetic nofun

/-- **The value of a base case is arithmetic.** -/
theorem isArithmetic_parseValue {value : Constant} {e : Expr} (h : parseValue ctx value = .ok e) :
    e.isArithmetic = true := by
  cases value with
  | number x =>
    cases h
    exact Expr.isArithmetic_number x
  | raw text =>
    unfold parseValue at h
    dsimp only at h
    split at h
    · cases h
    · split at h
      · cases h
        exact Expr.isArithmetic_number _
      · split at h
        · cases h
          rfl
        · split at h
          · split at h
            · cases h
              rfl
            · exact isArithmetic_parseCoeff h
          · exact isArithmetic_parseCoeff h

/-- **A rule body is a sum of at least one term.** -/
theorem isSumShaped_parseBody (hvars : ∀ v ∈ ctx.runtimeVars, isIdentifier v) {text : String}
    {e : Expr} (h : parseBody ctx text = .ok e) : e.isSumShaped ctx.indices.length = true := by
  obtain ⟨ts, rfl, hspelled⟩ := isBody_parseBody hvars h
  obtain ⟨ts', body, heq, hne, -, -⟩ := isTerm_parseBody h
  cases heq
  rw [Expr.isSumShaped, Bool.and_eq_true, List.all_eq_true]
  refine ⟨by simpa using hne, fun t ht => ?_⟩
  obtain ⟨hcoeff, c, hc, hcall⟩ := hspelled t ht
  rw [Term.isShaped, hcoeff.isArithmetic, hc]
  simpa using hcall.length

/-- **A rule is a sum or a scaled sum**, whatever the brackets of its scale. -/
theorem isRuleShaped_parseRule (hvars : ∀ v ∈ ctx.runtimeVars, isIdentifier v) {text : String}
    {scale : Option String} {e : Expr} (h : parseRule ctx text scale = .ok e) :
    e.isRuleShaped ctx.indices.length = true := by
  obtain ⟨body, hbody, h⟩ := bind_ok h
  have hbody := isSumShaped_parseBody hvars hbody
  cases scale with
  | none =>
    cases h
    exact Expr.isRuleShaped_of_isSumShaped hbody
  | some s =>
    obtain ⟨⟨factor, division⟩, hscale, h⟩ := bind_ok h
    cases h
    rw [Expr.isRuleShaped, hbody, isArithmetic_parseCoeff (parseScaleChars_eq_ok hscale), Bool.and_self]

/-! ## Signatures -/

/-- What the parser of coefficients is at, when it was given a balanced text: factors are balanced, and
cut no further. -/
def Reading.Separable : Reading → Prop
  | .coeff cs => balanced cs
  | .factors acc fs => (∀ a ∈ acc, a.IsSeparable) ∧ ∀ f ∈ fs, balanced f ∧ uncut '*' 0 f
  | .factor cs => balanced cs ∧ uncut '*' 0 cs

theorem isSeparable_negate {e : Expr} (h : e.IsSeparable) : (negate e).IsSeparable := by
  unfold negate
  split
  · exact .number _
  · exact .mul (.number _) h

/-- **What is read from a balanced text can be read back from its signature.** -/
theorem Reads.isSeparable {g : Reading} {e : Expr} (h : Reads ctx g e) (hg : g.Separable) :
    e.IsSeparable := by
  induction h with
  | @coeff cs e _ ih =>
    have hbal : balanced (trim cs) := by rwa [balanced_trim]
    exact ih ⟨nofun, fun f hf => ⟨balanced_splitTop rfl hbal f hf, uncut_splitTop _ f hf⟩⟩
  | done => exact hg.1 _ rfl
  | @next acc f fs a e _ _ ihf ihfs =>
    obtain ⟨hacc, hfs⟩ := hg
    rw [List.forall_mem_cons] at hfs
    have ha := ihf hfs.1
    refine ihfs ⟨?_, hfs.2⟩
    rintro b ⟨⟩
    cases acc with
    | none => exact ha
    | some a' => exact .mul (hacc a' rfl) ha
  | number => exact .number _
  | runtime _ =>
    obtain ⟨hbal, huncut⟩ := hg
    exact .var ⟨by rwa [String.toList_ofList], .inr (by rwa [String.toList_ofList])⟩
  | index htokens =>
    have hcheck := (@checkTokens_eq_ok ctx _).2 htokens
    exact .index (legible_of_checkTokens (balanced_unwrap hg.1) hcheck).separable
  | wrapped hw _ ih => exact ih (balanced_peel hw hg.1)
  | negated _ ih =>
    obtain ⟨hbal, huncut⟩ := hg
    rw [balanced, balancedFrom_plain rfl] at hbal
    simp only [uncut, Bool.and_eq_true] at huncut
    exact isSeparable_negate (ih ⟨by rwa [balanced_trim], uncut_trim huncut.2⟩)
  | name hname =>
    exact .var (legible_of_isIdentifier (by rwa [isIdentifier, String.toList_ofList])).separable
  | verbatim htokens =>
    have hlegible := legible_of_checkTokens hg.1 ((@checkTokens_eq_ok ctx _).2 htokens)
    rw [ofList_paren]
    exact .var hlegible.paren.separable

theorem isSeparable_parseCoeff {cs : List Char} {e : Expr} (hbal : balanced cs)
    (h : parseCoeff ctx cs = .ok e) : e.IsSeparable :=
  (reads_parseCoeff h).isSeparable hbal

/-- Two places share exactly if their signatures are equal. -/
theorem length_record_record (indices : List String) (kind : ShareKind) (e e' : Expr) :
    (Expr.record indices (Expr.record indices [] (kind, e)) (kind, e')).length = 1 ↔
      e.shareSignature indices = e'.shareSignature indices := by
  rw [Expr.record, Expr.record]
  by_cases h : e.shareSignature indices = e'.shareSignature indices <;> simp [h]

/-- **Coefficients have one signature exactly if they differ in the signs of zeros only.** So these, and
no others, are counted as one where coefficients are shared. -/
theorem signature_eq_iff {text text' : String} {e e' : Expr} (hbal : balanced text.toList)
    (hbal' : balanced text'.toList) (h : parseCoefficient ctx text = .ok e)
    (h' : parseCoefficient ctx text' = .ok e') :
    (e.signature ctx.indices = e'.signature ctx.indices ↔ e.plainZeros = e'.plainZeros) ∧
      ((Expr.record ctx.indices (Expr.record ctx.indices [] (.coeff, e)) (.coeff, e')).length = 1 ↔
        e.plainZeros = e'.plainZeros) := by
  have he := isSeparable_parseCoeff hbal h
  have he' := isSeparable_parseCoeff hbal' h'
  have hiff : e.signature ctx.indices = e'.signature ctx.indices ↔ e.plainZeros = e'.plainZeros := by
    refine ⟨Expr.plainZeros_eq_of_signature he he', fun hplain => ?_⟩
    rw [← e.signature_plainZeros, hplain, e'.signature_plainZeros]
  have hshare {k : Expr} (hk : k.IsSeparable) :
      k.shareSignature ctx.indices = k.signature ctx.indices := by
    cases hk <;> rfl
  refine ⟨hiff, ?_⟩
  rw [length_record_record, hshare he, hshare he', hiff]

/-- A context with one index and one runtime variable. -/
def scaling : Context where
  name := "Seq"
  indices := ["n"]
  runtimeVars := ["x"]
  selfName := "E"

/-- The sign of the second factor does not show. -/
theorem signature_eq_iff_signed : ∃ e e', parseCoefficient scaling "(n-1)*x*(-0)" = .ok e ∧
    parseCoefficient scaling "(n-1) * x * 0.0" = .ok e' ∧
    e.signature scaling.indices = e'.signature scaling.indices ∧ e.plainZeros = e'.plainZeros := by
  have hcheck : ((parseCoefficient scaling "(n-1)*x*(-0)").toOption.any fun e =>
      (parseCoefficient scaling "(n-1) * x * 0.0").toOption.any fun e' =>
        e.signature scaling.indices == e'.signature scaling.indices) = true := by
    decide +kernel
  obtain ⟨e, he, hcheck⟩ := exists_ok_of_any hcheck
  obtain ⟨e', he', hcheck⟩ := exists_ok_of_any hcheck
  rw [beq_iff_eq] at hcheck
  exact ⟨e, e', he, he', hcheck, (signature_eq_iff (by decide) (by decide) he he').1.1 hcheck⟩

/-- **Zero and negative zero are merged.** In a context with distinct indices the balanced texts `x*0` and
`x*(-0)` are read as different trees with one signature, and are counted as one coefficient. -/
theorem zeros_merge : scaling.indices.Nodup ∧ balanced "x*0".toList ∧ balanced "x*(-0)".toList ∧
    ∃ e e', parseCoefficient scaling "x*0" = .ok e ∧ parseCoefficient scaling "x*(-0)" = .ok e' ∧
      e.signature scaling.indices = e'.signature scaling.indices ∧ e ≠ e' ∧
      (Expr.record scaling.indices (Expr.record scaling.indices [] (.coeff, e)) (.coeff, e')).length = 1 := by
  have hcheck : ((parseCoefficient scaling "x*0").toOption.any fun e =>
      (parseCoefficient scaling "x*(-0)").toOption.any fun e' =>
        e.signature scaling.indices == e'.signature scaling.indices &&
          (decide e.NoNegativeZero && !decide e'.NoNegativeZero) &&
          (Expr.record scaling.indices (Expr.record scaling.indices [] (.coeff, e)) (.coeff, e')).length
            == 1) = true := by
    decide +kernel
  obtain ⟨e, he, hcheck⟩ := exists_ok_of_any hcheck
  obtain ⟨e', he', hcheck⟩ := exists_ok_of_any hcheck
  simp only [Bool.and_eq_true, Bool.not_eq_true', decide_eq_true_eq, decide_eq_false_iff_not,
    beq_iff_eq] at hcheck
  obtain ⟨⟨hsignature, hzero, hnegative⟩, hlength⟩ := hcheck
  refine ⟨by decide, by decide, by decide, e, e', he, he', hsignature, ?_, hlength⟩
  rintro rfl
  exact hnegative hzero

end RuleText

end RecurrenceCompiler
