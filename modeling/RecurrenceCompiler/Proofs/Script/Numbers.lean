import RecurrenceCompiler.Codegen.Dialect
import RecurrenceCompiler.Proofs.Decimal.Spelling
import RecurrenceCompiler.Proofs.Script.Texts

/-!
# Numbers in scripts

Numbers are written with the shortest digits, and scripts read them back: a number without leading zeros
is decimal, a minus sign negates, and the words for infinity and for no number are names
(`isText_numeral`).
-/

namespace RecurrenceCompiler

open Text Decimal

namespace Decimal

/-- A digit follows a zero at the front. -/
def ledByZero : List Char → Bool
  | '0' :: c :: _ => isDigit c
  | _ => false

/-- The digits of a number start with a zero only if it is zero. -/
theorem head?_toDigits {n : Nat} (hn : n ≠ 0) : (Nat.toDigits 10 n).head? ≠ some '0' := by
  induction n using Nat.strongRecOn with
  | ind n ih =>
    by_cases hlt : n < 10
    · rw [Nat.toDigits_of_lt_base hlt]
      simpa [Nat.digitChar_eq_zero] using hn
    · rw [Nat.toDigits_of_base_le (by norm_num) (by omega)]
      have hne : Nat.toDigits 10 (n / 10) ≠ [] := Nat.toDigits_ne_nil
      rw [List.head?_append_of_ne_nil _ hne]
      exact ih (n / 10) (by omega) (by omega)

theorem ledByZero_of_head {cs : List Char} (h : cs.head? ≠ some '0') : ledByZero cs = false := by
  unfold ledByZero
  split
  · exact absurd rfl h
  · rfl

/-- A decimal other than zero is written without leading zeros. -/
theorem ledByZero_write (layout : Layout) {d : Digits} (hd : d.digits ≠ 0) :
    ledByZero (layout.write d) = false := by
  have hhead := head?_toDigits hd
  have hne : Nat.toDigits 10 d.digits ≠ [] := Nat.toDigits_ne_nil
  rw [Layout.write]
  generalize Nat.toDigits 10 d.digits = ds at *
  obtain ⟨c, cs, rfl⟩ := List.exists_cons_of_ne_nil hne
  have hc : c ≠ '0' := by simpa using hhead
  dsimp only
  split
  · exact ledByZero_of_head (by simpa using hc)
  · split
    · next h =>
      have hpos := of_decide_eq_true (Bool.and_eq_true_iff.1 h).1
      obtain ⟨k, hk⟩ : ∃ k, (((c :: cs).length : Int) + d.exponent).toNat = k + 1 :=
        ⟨(((c :: cs).length : Int) + d.exponent).toNat - 1, by omega⟩
      rw [hk]
      exact ledByZero_of_head (by simpa using hc)
    · split
      · rfl
      · cases cs <;> exact ledByZero_of_head (by simpa using hc)

/-- The digits behind a minus sign. -/
def unsigned : List Char → List Char
  | '-' :: cs => cs
  | cs => cs

/-- A text that spells a double without leading zeros. -/
structure IsNumeral (cs : List Char) (x : Float) : Prop where
  spells : Spells cs x
  zero : ledByZero (unsigned cs) = false

theorem unsigned_of_head {cs : List Char} (h : cs.head? ≠ some '-') : unsigned cs = cs := by
  unfold unsigned
  split
  · exact absurd rfl h
  · rfl

theorem unsigned_signed {cs : List Char} (h : cs.head? ≠ some '-') (n : Bool) :
    unsigned (signed n cs) = cs := by
  cases n with
  | true => rfl
  | false => exact unsigned_of_head h

/-- **The text of a double has no leading zeros.** -/
theorem isNumeral_numberChars (x : Float) : IsNumeral (numberChars x) x := by
  refine ⟨spells_numberChars x, ?_⟩
  rw [numberChars]
  cases hx : Reading.ofFloat x with
  | nan => rfl
  | infinite negative => cases negative <;> rfl
  | zero negative => rfl
  | finite negative b =>
    have hdigits := (near_shortest (wellFormed_of_reading hx)).1
    have hzero := ledByZero_write Layout.standard hdigits
    obtain ⟨l, hl, -, htext, -⟩ := exists_literal Layout.standard (shortest b)
    have hhead : (Layout.standard.write (shortest b)).head? ≠ some '-' :=
      htext ▸ hl.head_ne rfl (by decide)
    have hsigned := unsigned_signed hhead negative
    rw [signed] at hsigned
    dsimp only
    rw [hsigned, hzero]

/-- **The text of an integer has no leading zeros.** -/
theorem isNumeral_intText (i : Int) : IsNumeral (intText i).toList (ofInt i) := by
  refine ⟨spells_intText i, ?_⟩
  rw [intText]
  split
  · rw [toList_toString]
    have hhead : (Nat.toDigits 10 i.natAbs).head? ≠ some '-' := by
      intro hhead
      have hdigit := List.all_eq_true.1 (all_isDigit_toDigits i.natAbs) '-' (List.mem_of_head? hhead)
      cases hdigit
    rw [unsigned_signed hhead]
    by_cases hi : i.natAbs = 0
    · rw [hi]
      rfl
    · exact ledByZero_of_head (head?_toDigits hi)
  · rw [numberText, String.toList_ofList]
    exact (isNumeral_numberChars _).zero

end Decimal

namespace Script

/-- A literal without leading zeros is decimal. -/
theorem isOctal_of_ledByZero {l : Literal} (hl : l.WellFormed) (h : ledByZero l.chars = false) :
    isOctal l = false := by
  unfold isOctal
  split
  · next c cs hwhole =>
    have hdigit : isDigit c := by
      have hall := hl.whole
      rw [hwhole] at hall
      exact List.all_eq_true.1 hall c (by simp)
    rw [Literal.chars, hwhole] at h
    simp [ledByZero, hdigit] at h
  · rfl

/-- A literal is one token, if it is decimal. -/
theorem first?_literal {l : Literal} (hl : l.WellFormed) (h : isOctal l = false) :
    Token.first? l.chars = some (.num l.value, []) := by
  have hscan := Literal.scan?_chars hl (Literal.stops_nil l)
  rw [List.append_nil] at hscan
  simp [Token.first?, number?_of_scan? hscan h]

theorem tokens?_literal {l : Literal} (hl : l.WellFormed) (h : isOctal l = false) :
    tokens? l.chars = some [.num l.value] := by
  have hfirst := first?_literal hl h
  obtain ⟨c, cs, hcs, hc⟩ := hl.head
  have hblank : isBlank c = false := by
    rcases hc with hc | rfl
    · cases hb : isBlank c with
      | false => rfl
      | true =>
        rw [isDigit_of_isJoint (isJoint_of_isBlank hb)] at hc
        cases hc
    · rfl
  rw [hcs] at hfirst ⊢
  rw [tokens?_first hblank hfirst]
  rfl

/-- A minus sign is a token, unless another sign or an equals sign follows. -/
theorem tokens?_minus {cs : List Char} {ts : List Token} (h : tokens? cs = some ts)
    (hjoins : ∀ d ∈ cs.head?, joins .minus d = false) :
    tokens? ('-' :: cs) = some (.mark (.op .sub) :: ts) := by
  rw [tokens?_first (c := '-') (by decide) (first?_op (o := .minus) hjoins), h]
  rfl

/-- A literal starts with neither. -/
theorem joins_literal {l : Literal} (hl : l.WellFormed) :
    ∀ d ∈ l.chars.head?, joins .minus d = false := by
  intro d hd
  have hminus := hl.head_ne (c := '-') rfl (by decide)
  have hequals := hl.head_ne (c := '=') rfl (by decide)
  simp only [joins, Bool.or_eq_false_iff, beq_eq_false_iff_ne]
  constructor <;> rintro rfl
  · exact hminus hd
  · exact hequals hd

/-- An expression behind a sign. -/
def Expression.signed (negative : Bool) (e : Expression) : Expression :=
  if negative then .negate e else e

/-- The expression that the text of a double is read as. -/
def Expression.ofNumber (x : Float) : Expression :=
  match Reading.ofFloat x with
  | .nan => .name "NaN"
  | .infinite negative => .signed negative (.name "Infinity")
  | .zero _ => .num 0.0
  | .finite negative _ => .signed negative (.num (if negative then -x else x))

/-- Whether a sign is written before a double. -/
def showsSign (x : Float) : Bool :=
  match Reading.ofFloat x with
  | .nan | .zero _ => false
  | .infinite negative | .finite negative _ => negative

/-- **A numeral is read as its number**: an operand, or one behind a minus sign. -/
theorem isText_numeral {text : String} {x : Float} (h : IsNumeral text.toList x) :
    IsText .unary text [.ofNumber x] ∧ (showsSign x = false → IsText .operand text [.ofNumber x]) := by
  -- What is an operand without its sign decides the rest.
  have hsigned {negative : Bool} {e : Expression} {t : Token} {cs : List Char}
      (htext : text.toList = Decimal.signed negative cs) (he : Parses .operand [t] [e])
      (hplain : tokens? cs = some [t]) (hjoins : ∀ d ∈ cs.head?, joins .minus d = false) :
      IsText .unary text [.signed negative e] ∧
        (negative = false → IsText .operand text [.signed negative e]) := by
    cases negative with
    | true => exact ⟨⟨_, htext ▸ tokens?_minus hplain hjoins, .negate (.ofOperand he)⟩, by simp⟩
    | false => exact ⟨⟨_, htext ▸ hplain, .ofOperand he⟩, fun _ => ⟨_, htext ▸ hplain, he⟩⟩
  have hliteral {l : Literal} (hl : l.WellFormed) (htext : unsigned text.toList = l.chars) :
      isOctal l = false :=
    isOctal_of_ledByZero hl (htext ▸ h.zero)
  have hspells := h.spells
  rw [Spells] at hspells
  rw [Expression.ofNumber, showsSign]
  cases hx : Reading.ofFloat x with
  | nan =>
    rw [hx] at hspells
    have hname : IsText .operand text [.name "NaN"] := by
      rw [String.toList_inj.1 hspells]
      exact isText_name (by decide) (by decide)
    obtain ⟨ts, hts, hparse⟩ := hname
    exact ⟨⟨ts, hts, .ofOperand hparse⟩, fun _ => ⟨ts, hts, hparse⟩⟩
  | infinite negative =>
    rw [hx] at hspells
    exact hsigned hspells (.name (nameExpression?_of_not_reserved (by decide)))
      (tokens?_name (n := "Infinity") (by decide)) (by simp [joins])
  | zero negative =>
    rw [hx] at hspells
    have hl : Literal.WellFormed ⟨['0'], false, [], none⟩ :=
      ⟨rfl, rfl, fun _ => rfl, .inl (by simp), by simp⟩
    have hvalue : (Literal.mk ['0'] false [] none).value = 0.0 :=
      Reading.ofFloat_inj (by decide +kernel)
    have htokens := tokens?_literal hl rfl
    rw [hvalue] at htokens
    have hzero : IsText .operand text [.num 0.0] := ⟨_, hspells ▸ htokens, .num⟩
    obtain ⟨ts, hts, hparse⟩ := hzero
    exact ⟨⟨ts, hts, .ofOperand hparse⟩, fun _ => ⟨ts, hts, hparse⟩⟩
  | finite negative b =>
    rw [hx] at hspells
    obtain ⟨l, hl, hnear, htext⟩ := hspells
    have hoctal := hliteral hl (by rw [htext, unsigned_signed (hl.head_ne rfl (by decide))])
    have hvalue : l.value = if negative then -x else x := by
      cases negative with
      | false => exact Literal.value_of_near hx hnear
      | true => exact Literal.value_of_near (reading_neg hx) hnear
    dsimp only
    rw [← hvalue]
    exact hsigned htext .num (tokens?_literal hl hoctal) (joins_literal hl)

/-- A double that is written with a sign is negative. -/
theorem lt_zero_of_showsSign {x : Float} (h : showsSign x = true) : x < 0.0 := by
  rw [showsSign] at h
  cases hx : Reading.ofFloat x with
  | nan | zero =>
    rw [hx] at h
    cases h
  | infinite negative =>
    rw [hx] at h
    obtain rfl : negative = true := h
    have hinf : Reading.ofFloat (-(1.0 / 0.0)) = .infinite true := by decide +kernel
    rw [Reading.ofFloat_inj (hx.trans hinf.symm)]
    decide +kernel
  | finite negative b =>
    rw [hx] at h
    obtain rfl : negative = true := h
    have hfinite : IsFinite x := by
      have hagrees := agrees x
      rw [hx] at hagrees
      rw [IsFinite]
      cases hu : x.toModel.unpack <;> rw [hu] at hagrees <;> trivial
    obtain ⟨n, l, hl, -, htext, hneg⟩ := exists_literal_numberChars hfinite
    refine hneg ?_
    cases n with
    | true => rfl
    | false =>
      -- The text of the double starts with its sign, which no literal does.
      rw [numberChars, hx] at htext
      have hhead := hl.head_ne (c := '-') rfl (by decide)
      rw [show l.chars = _ from htext.symm] at hhead
      exact absurd rfl hhead

/-- **A constant is written as an operand.** -/
theorem isText_number {d : Dialect} (hd : d.target = .js) (x : Float) :
    IsText .operand (d.number x) [.ofNumber x] := by
  have hnumeral : IsNumeral (numberText x).toList x := by
    rw [numberText, String.toList_ofList]
    exact isNumeral_numberChars x
  obtain ⟨hunary, hoperand⟩ := isText_numeral hnumeral
  simp only [Dialect.number, hd]
  split
  · obtain ⟨ts, hts, hparse⟩ := hunary
    exact IsText.paren ⟨ts, hts, .ofBinary (.ofUnary hparse)⟩
  · next hcond =>
    refine hoperand ?_
    cases hsign : showsSign x with
    | false => rfl
    | true => simp [lt_zero_of_showsSign hsign] at hcond

/-- A scope that has the words for numbers. -/
structure KnowsNumbers (names : Expression.Names Float) : Prop where
  nan : names "NaN" = .ok (.num (0.0 / 0.0))
  infinity : names "Infinity" = .ok (.num (1.0 / 0.0))

/-- **The text of a double has its value**, negative zero apart. -/
theorem eval_ofNumber {names : Expression.Names Float} (hnames : KnowsNumbers names)
    (functions : Expression.Functions Float) {x : Float} (hx : isNegativeZero x = false) :
    (Expression.ofNumber x).eval names functions = .ok (.num x) := by
  rw [isNegativeZero] at hx
  rw [Expression.ofNumber]
  cases hr : Reading.ofFloat x with
  | nan =>
    have hnan : Reading.ofFloat (0.0 / 0.0) = .nan := by decide +kernel
    rw [Reading.ofFloat_inj (hr.trans hnan.symm)]
    exact hnames.nan
  | infinite negative =>
    cases negative with
    | true =>
      have hinf : Reading.ofFloat (-(1.0 / 0.0)) = .infinite true := by decide +kernel
      rw [Reading.ofFloat_inj (hr.trans hinf.symm)]
      simp only [Expression.signed, if_true, Expression.eval, hnames.infinity]
      rfl
    | false =>
      have hinf : Reading.ofFloat (1.0 / 0.0) = .infinite false := by decide +kernel
      rw [Reading.ofFloat_inj (hr.trans hinf.symm)]
      exact hnames.infinity
  | zero negative =>
    rw [hr] at hx
    cases negative with
    | true => cases hx
    | false =>
      have hzero : Reading.ofFloat 0.0 = .zero false := by decide +kernel
      rw [Reading.ofFloat_inj (hr.trans hzero.symm)]
      rfl
  | finite negative b =>
    cases negative with
    | true => exact congrArg (fun y => Except.ok (Value.num y)) (double_neg_neg x)
    | false => rfl

end Script

end RecurrenceCompiler
