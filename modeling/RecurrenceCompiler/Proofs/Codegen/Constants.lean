import RecurrenceCompiler.Codegen.Dialect
import RecurrenceCompiler.Proofs.Decimal.Operations
import RecurrenceCompiler.Proofs.Decimal.Positional

/-!
# Constants of compiled code

A C++ literal with a point or an exponent is a floating-point number (`Literal.IsFloating`). The text of a
number has neither if the number is whole, so a point and a zero are put behind it. From ten to the power
twenty-one on the text of a whole number has an exponent already, and what is put behind that is no part of
a literal: the text of a constant denotes a number exactly below it (`cppNumber_denotes_iff`).
-/

namespace RecurrenceCompiler

open Text Decimal Float.Model

namespace Decimal

/-! ## Whole doubles -/

section
variable {x : Float} {n : Bool} {b : Binary}

/-- The size of a double. -/
theorem abs_doubleValue_of_reading (h : Reading.ofFloat x = .finite n b) : |doubleValue x| = b.value := by
  have hagrees := agrees x
  rw [h] at hagrees
  rw [doubleValue]
  cases hu : x.toModel.unpack <;> rw [hu] at hagrees <;> try exact hagrees.elim
  next s m e hm =>
    obtain ⟨-, rfl, rfl⟩ := hagrees
    have hpos : (0 : ℚ) ≤ b.mantissa * 2 ^ b.exponent := by positivity
    rw [unpackedValue, abs_mul, abs_of_nonneg (by positivity : (0 : ℚ) ≤ 2 ^ b.exponent), Binary.value]
    cases s <;> simp [UnpackedFloat.Sign.apply]

theorem isFinite_of_reading (h : Reading.ofFloat x = .finite n b) : IsFinite x := by
  have hagrees := agrees x
  rw [h] at hagrees
  rw [IsFinite]
  cases hu : x.toModel.unpack <;> rw [hu] at hagrees <;> first | exact hagrees.elim | trivial

/-- The number zero, of either sign. -/
theorem doubleValue_of_zero (h : Reading.ofFloat x = .zero n) : doubleValue x = 0 := by
  have hagrees := agrees x
  rw [h] at hagrees
  rw [doubleValue]
  cases hu : x.toModel.unpack <;> rw [hu] at hagrees <;> first | exact hagrees.elim | rfl

/-- A double is whole exactly if its size is a natural number. -/
theorem isWhole_iff_of_reading (h : Reading.ofFloat x = .finite n b) :
    isWhole x = true ↔ ∃ k : Nat, b.value = k := by
  simp only [isWhole, h, Bool.or_eq_true, decide_eq_true_eq, beq_iff_eq, Binary.value]
  by_cases hexponent : 0 ≤ b.exponent
  · obtain ⟨e, he⟩ := Int.eq_ofNat_of_zero_le hexponent
    refine iff_of_true (.inl hexponent) ⟨b.mantissa * 2 ^ e, ?_⟩
    rw [he]
    push_cast
    rfl
  · obtain ⟨e, he⟩ : ∃ e : Nat, b.exponent = -(e : Int) := ⟨(-b.exponent).toNat, by omega⟩
    have hpow : (2 : ℚ) ^ e ≠ 0 := by positivity
    rw [or_iff_right hexponent, he, neg_neg, Int.toNat_natCast, Nat.pow_eq, zpow_neg, zpow_natCast,
      ← Nat.dvd_iff_mod_eq_zero]
    simp only [← div_eq_mul_inv, div_eq_iff hpow]
    constructor
    · rintro ⟨k, hk⟩
      refine ⟨k, ?_⟩
      rw [hk, mul_comm]
      push_cast
      rfl
    · rintro ⟨k, hk⟩
      refine ⟨k, ?_⟩
      rw [mul_comm]
      exact_mod_cast hk

/-- Two to the power 53, beyond which every double is whole. -/
def firstSparse : Binary :=
  ⟨2 ^ 52, 1, true⟩

theorem firstSparse_spec : firstSparse.WellFormed ∧ firstSparse.value = 2 ^ 53 := by
  refine ⟨⟨⟨by decide, by decide, by decide, by decide, by decide⟩, by decide⟩, ?_⟩
  rw [Binary.value, firstSparse]
  norm_num

/-- Doubles from two to the power 53 on are natural numbers. -/
theorem exists_natCast_of_le (hb : b.WellFormed) (h : 2 ^ 53 ≤ b.value) : ∃ k : Nat, b.value = k := by
  by_cases hexponent : 0 ≤ b.exponent
  · obtain ⟨e, he⟩ := Int.eq_ofNat_of_zero_le hexponent
    refine ⟨b.mantissa * 2 ^ e, ?_⟩
    rw [Binary.value, he]
    push_cast
    rfl
  · have hlt : (b.mantissa : ℚ) < 2 ^ 53 := by exact_mod_cast hb.canonical.lt
    have hle : (2 : ℚ) ^ b.exponent ≤ 1 := zpow_le_one_of_nonpos₀ (by norm_num) (by omega)
    have hsmall : b.value < 2 ^ 53 := (mul_le_of_le_one_right (by positivity) hle).trans_lt hlt
    exact absurd h (not_le.2 hsmall)

/-- **A double that is nearest to a natural number is one.** -/
theorem exists_natCast_of_near (hb : b.WellFormed) {m : Nat} (h : b.Near m) : ∃ k : Nat, b.value = k := by
  obtain ⟨hsparse, hsparseValue⟩ := firstSparse_spec
  rcases le_or_gt (2 ^ 53) b.value with hlarge | hsmall
  · exact exists_natCast_of_le hb hlarge
  · -- The natural number is small enough to be a double itself, the one that it is nearest to.
    rw [← hsparseValue] at hsmall
    have hm := h.lt_of_value_lt hb hsparse hsmall
    rw [hsparseValue] at hm
    have hm : m < 2 ^ 53 := by exact_mod_cast hm
    have hne : (m : Int) ≠ 0 := by
      rintro hzero
      rw [Int.natCast_eq_zero.1 hzero, Nat.cast_zero] at h
      exact near_ne_zero hb h
    obtain ⟨g, hnum, hvalue⟩ := exists_double_int (k := m) (by simpa using hm.le)
    have hlimit : |((m : Int) : ℚ)| < limit := by
      have hle : (2 : ℚ) ^ 53 < limit := by
        rw [limit, ← zpow_natCast]
        exact zpow_lt_zpow_right₀ (by norm_num) (by norm_num)
      rw [Int.cast_natCast, abs_of_nonneg (by positivity)]
      exact lt_trans (by exact_mod_cast hm) hle
    obtain ⟨c, hreading, hc⟩ := reading_of_doubleValue hnum hvalue hne hlimit
    have hwell := wellFormed_of_reading hreading
    have hnear : c.Near m := by simpa [hc] using near_value hwell
    rw [h.unique hb hwell hnear]
    exact ⟨m, by simpa using hc⟩

end

/-! ## Exponents -/

/-- **From ten to the power twenty-one on a decimal is written with an exponent.** -/
theorem e_mem_write {d : Digits} (h : 10 ^ 21 ≤ d.value) : 'e' ∈ Layout.standard.write d := by
  have hcount : d.digits < 10 ^ digitCount d.digits := by
    have hpos : 0 < digitCount d.digits := Nat.length_toDigits_pos
    exact (Nat.length_toDigits_le_iff (by norm_num) hpos).1 le_rfl
  have hpoint : 21 < digitCount d.digits + d.exponent := by
    have hlt : d.value < 10 ^ (digitCount d.digits + d.exponent) := by
      rw [Digits.value, zpow_add₀ (by norm_num), zpow_natCast]
      gcongr
      exact_mod_cast hcount
    have hpow := h.trans_lt hlt
    rw [← zpow_natCast] at hpow
    exact_mod_cast (zpow_lt_zpow_iff_right₀ (by norm_num)).1 hpow
  rw [digitCount] at hpoint
  have hwhole : Layout.standard.whole = 21 := rfl
  rw [Layout.write]
  dsimp only
  rw [if_neg (by simp [hwhole]; omega), if_neg (by simp [hwhole]; omega), if_neg (by simp; omega)]
  split <;> simp

/-- An exponent is told by its letter. -/
theorem Literal.WellFormed.isSome_exponent {l : Literal} (h : l.WellFormed) (he : 'e' ∈ l.chars) :
    l.exponent.isSome := by
  by_contra hnone
  have hdigits {ds : List Char} (hds : ds.all isDigit) : 'e' ∉ ds := fun hmem => by
    cases List.all_eq_true.1 hds _ hmem
  rw [Option.not_isSome_iff_eq_none] at hnone
  rw [Literal.chars, hnone, List.append_nil, List.mem_append, List.mem_append] at he
  rcases he with (he | he) | he
  · exact hdigits h.whole he
  · split at he <;> simp at he
  · exact hdigits h.fraction he

end Decimal

/-! ## Literals that are floating-point numbers -/

/-- A literal that C++ takes for a floating-point number: it has a point or an exponent. -/
structure Decimal.Literal.IsFloating (l : Literal) : Prop where
  wellFormed : l.WellFormed
  marked : l.point = true ∨ l.exponent.isSome

/-- A text is a floating-point literal, with a minus sign or without one, and denotes a double. -/
def DenotesConstant (text : String) (x : Float) : Prop :=
  ∃ (n : Bool) (l : Literal), l.IsFloating ∧ text.toList = signed n l.chars ∧
    x = if n then -l.value else l.value

/-- A text denotes one double at most. -/
theorem DenotesConstant.unique {text : String} {x y : Float} (hx : DenotesConstant text x)
    (hy : DenotesConstant text y) : x = y := by
  obtain ⟨n, l, hl, htext, rfl⟩ := hx
  obtain ⟨n', l', hl', htext', rfl⟩ := hy
  have hhead {l : Literal} (hl : l.IsFloating) := hl.wellFormed.head_ne (c := '-') rfl (by decide)
  obtain ⟨rfl, hchars⟩ := signed_inj (hhead hl) (hhead hl') (htext.symm.trans htext')
  rw [Literal.chars_inj hl.wellFormed hl'.wellFormed hchars]

section
variable {x : Float} {n : Bool} {b : Binary}

/-- A literal for a number nearest to a double denotes the double, with its sign. -/
theorem denotesConstant_of_near (h : Reading.ofFloat x = .finite n b) {l : Literal} (hl : l.IsFloating)
    (hnear : b.Near l.number) {text : String} (htext : text.toList = signed n l.chars) :
    DenotesConstant text x := by
  refine ⟨n, l, hl, htext, ?_⟩
  cases n with
  | false => rw [if_neg (by decide), Literal.value_of_near h hnear]
  | true => rw [if_pos rfl, Literal.value_of_near (reading_neg h) hnear, double_neg_neg]

/-- Zero and negative zero have one text, that of zero. -/
theorem denotesConstant_zero (h : Reading.ofFloat x = .zero n) :
    DenotesConstant (cppNumber x) (if isNegativeZero x then 0.0 else x) := by
  have hpositive : Reading.ofFloat 0.0 = .zero false := by decide +kernel
  have htext : cppNumber x = "0.0" := by
    rw [cppNumber, isWhole, numberText, numberChars, h]
    rfl
  have hdenoted : (if isNegativeZero x then 0.0 else x) = 0.0 := by
    rw [isNegativeZero, h]
    cases n with
    | true => rfl
    | false => exact Reading.ofFloat_inj (h.trans hpositive.symm)
  have hvalue : Literal.value ⟨['0'], true, ['0'], none⟩ = 0.0 := by
    refine Reading.ofFloat_inj (Eq.trans ?_ hpositive.symm)
    decide +kernel
  refine ⟨false, ⟨['0'], true, ['0'], none⟩, ⟨⟨rfl, rfl, by simp, .inl (by simp), by simp⟩, .inl rfl⟩, ?_, ?_⟩
  · rw [htext]
    rfl
  · rw [hdenoted, if_neg (by decide), hvalue]

/-- The characters of the text of a double. -/
theorem numberChars_of_reading (h : Reading.ofFloat x = .finite n b) :
    numberChars x = signed n (Layout.standard.write (shortest b)) := by
  rw [numberChars, h]
  rfl

/-- The text of a number that is not whole has a point or an exponent. -/
theorem denotesConstant_fraction (h : Reading.ofFloat x = .finite n b) (hx : isWhole x = false) :
    DenotesConstant (cppNumber x) x := by
  have hwell := wellFormed_of_reading h
  obtain ⟨l, hl, -, htext, hnumber⟩ := exists_literal Layout.standard (shortest b)
  have hnear := (near_shortest hwell).2
  rw [← hnumber] at hnear
  refine denotesConstant_of_near h ⟨hl, ?_⟩ hnear ?_
  · by_contra hmarked
    rw [not_or, Bool.not_eq_true, Option.not_isSome_iff_eq_none] at hmarked
    -- Without a point and an exponent the literal is a natural number.
    have hnatural : l.number = (natOfDigits l.whole : Nat) := by
      simp [Literal.number, Literal.power, hmarked.2, hl.point hmarked.1]
    rw [hnatural] at hnear
    rw [(isWhole_iff_of_reading h).2 (exists_natCast_of_near hwell hnear)] at hx
    cases hx
  · rw [cppNumber, hx, if_neg (by decide), numberText, String.toList_ofList, numberChars_of_reading h, htext]

/-- The text of a smaller whole number has digits only, and a point and a zero make it a literal. -/
theorem denotesConstant_whole (h : Reading.ofFloat x = .finite n b) (hx : isWhole x = true)
    (hsmall : b.value < 10 ^ 21) : DenotesConstant (cppNumber x) x := by
  have hwell := wellFormed_of_reading h
  obtain ⟨hne, hnear⟩ := near_shortest hwell
  obtain ⟨k, hk⟩ := (isWhole_iff_of_reading h).1 hx
  obtain ⟨hfirst, hfirstValue⟩ := firstScientific_spec
  have hless : (shortest b).value < 10 ^ 21 := by
    rw [← hfirstValue] at hsmall ⊢
    exact hnear.lt_of_value_lt hwell hfirst hsmall
  have hpos : 0 < k := by
    rcases Nat.eq_zero_or_pos k with rfl | hpos
    · have hnear := near_value hwell
      rw [hk, Nat.cast_zero] at hnear
      exact (near_ne_zero hwell hnear).elim
    · exact hpos
  have hdigits := isNatural_write hne (shortest_exponent_nonneg hpos hwell hk) hless
  obtain ⟨l, hl, -, htext, hnumber⟩ := exists_literal Layout.standard (shortest b)
  have htextX : (cppNumber x).toList = signed n (Layout.standard.write (shortest b) ++ ['.', '0']) := by
    rw [cppNumber, hx, if_pos rfl, numberText, String.toList_append, String.toList_ofList,
      numberChars_of_reading h]
    cases n <;> rfl
  generalize Layout.standard.write (shortest b) = ds at hdigits htext htextX
  rw [isNatural, Bool.and_eq_true, Bool.not_eq_true', List.isEmpty_eq_false_iff] at hdigits
  have hplain : Literal.WellFormed ⟨ds, false, [], none⟩ :=
    ⟨hdigits.2, rfl, fun _ => rfl, .inl hdigits.1, by simp⟩
  obtain rfl : l = ⟨ds, false, [], none⟩ :=
    Literal.chars_inj hl hplain (htext.symm.trans (by simp [Literal.chars]))
  have hpointed : Literal.IsFloating ⟨ds, true, ['0'], none⟩ :=
    ⟨⟨hdigits.2, rfl, by simp, .inl hdigits.1, by simp⟩, .inl rfl⟩
  have hvalue : (natOfDigits ds : ℚ) = (shortest b).value := by
    simpa [Literal.number, Literal.power] using hnumber
  refine denotesConstant_of_near h hpointed ?_ (htextX.trans (by simp [Literal.chars]))
  have htenfold := natOfDigits_append_zeros ds 1
  rw [Literal.number, ← List.replicate_one, htenfold]
  simpa [Literal.power, hvalue] using hnear

/-- The shortest decimal of a large double is large. -/
theorem le_shortest (hb : b.WellFormed) (h : 10 ^ 21 ≤ b.value) : 10 ^ 21 ≤ (shortest b).value := by
  obtain ⟨hfirst, hfirstValue⟩ := firstScientific_spec
  rw [← hfirstValue] at h ⊢
  rcases h.lt_or_eq with hlt | heq
  · exact ((near_shortest hb).2.lt_of_lt_value hb hfirst hlt).le
  · have hsame : b = firstScientific := by
      refine Binary.Near.unique hb hfirst (near_value hb) ?_
      rw [← heq]
      exact near_value hfirst
    have hshortest : shortest firstScientific = ⟨1, 21⟩ := by decide +kernel
    rw [hsame, hshortest, hfirstValue, Digits.value]
    norm_num

/-- Behind an exponent a point and a zero are no part of a literal. -/
theorem not_denotesConstant_large (h : Reading.ofFloat x = .finite n b) (hlarge : 10 ^ 21 ≤ b.value)
    (y : Float) : ¬ DenotesConstant (cppNumber x) y := by
  rintro ⟨n', l', hl', htext', -⟩
  have hwell := wellFormed_of_reading h
  have hwhole : isWhole x = true :=
    (isWhole_iff_of_reading h).2 (exists_natCast_of_le hwell (le_trans (by norm_num) hlarge))
  obtain ⟨l, hl, -, htext, -⟩ := exists_literal Layout.standard (shortest b)
  have hexponent : l.exponent.isSome :=
    hl.isSome_exponent (htext ▸ e_mem_write (le_shortest hwell hlarge))
  have hne := Option.ne_none_iff_isSome.2 hexponent
  have hstops : l.Stops ['.', '0'] :=
    ⟨by simp; rfl, fun hnone => absurd hnone hne, fun hnone => absurd hnone hne⟩
  have hbehind := Literal.scan?_chars hl hstops
  rw [cppNumber, hwhole, if_pos rfl, numberText, String.toList_append, String.toList_ofList,
    numberChars_of_reading h, htext] at htext'
  have hsplit : signed n l.chars ++ ".0".toList = signed n (l.chars ++ ['.', '0']) := by cases n <;> rfl
  obtain ⟨c, cs, hcs, hc⟩ := hl.head
  have hhead : (l.chars ++ ['.', '0']).head? ≠ some '-' := by
    have hhead := hl.head_ne (c := '-') rfl (by decide)
    rw [hcs] at hhead ⊢
    exact hhead
  obtain ⟨-, hchars⟩ := signed_inj hhead (hl'.wellFormed.head_ne rfl (by decide)) (hsplit.symm.trans htext')
  have hscan := Literal.scan?_chars hl'.wellFormed (Literal.stops_nil l')
  rw [List.append_nil, ← hchars, hbehind] at hscan
  cases hscan

/-- **The text of a constant denotes it, up to the sign of zero, exactly below ten to the power twenty-one.**
The text of zero and negative zero alike denotes zero. Beyond, no double is denoted. -/
theorem cppNumber_denotes_iff (hx : IsFinite x) (y : Float) : DenotesConstant (cppNumber x) y ↔
    |doubleValue x| < 10 ^ 21 ∧ y = if isNegativeZero x then 0.0 else x := by
  have hagrees := agrees x
  cases hr : Reading.ofFloat x with
  | nan | infinite =>
    rw [hr] at hagrees
    rw [IsFinite] at hx
    cases hu : x.toModel.unpack <;> rw [hu] at hagrees hx
    all_goals first | exact hx.elim | exact hagrees.elim
  | zero n =>
    have hdenotes := denotesConstant_zero hr
    rw [doubleValue_of_zero hr, abs_zero]
    refine ⟨fun h => ⟨by positivity, h.unique hdenotes⟩, ?_⟩
    rintro ⟨-, rfl⟩
    exact hdenotes
  | finite n b =>
    have hzero : isNegativeZero x = false := by
      rw [isNegativeZero, hr]
      rfl
    rw [abs_doubleValue_of_reading hr, hzero, if_neg (by decide)]
    rcases lt_or_ge b.value (10 ^ 21) with hsmall | hlarge
    · have hdenotes : DenotesConstant (cppNumber x) x := by
        cases hwhole : isWhole x with
        | true => exact denotesConstant_whole hr hwhole hsmall
        | false => exact denotesConstant_fraction hr hwhole
      refine ⟨fun h => ⟨hsmall, h.unique hdenotes⟩, ?_⟩
      rintro ⟨-, rfl⟩
      exact hdenotes
    · exact iff_of_false (not_denotesConstant_large hr hlarge y) fun h => absurd h.1 (not_lt.2 hlarge)

/-- A small number is written with an exponent, and a negative one with a sign. -/
theorem cppNumber_denotes_iff_small : IsFinite (-2.5e-7) ∧ cppNumber (-2.5e-7) = "-2.5e-7" ∧
    DenotesConstant "-2.5e-7" (-2.5e-7) := by
  have hreading : Reading.ofFloat (-2.5e-7) = .finite true ⟨4722366482869645, -74, false⟩ := by
    decide +kernel
  have htext : cppNumber (-2.5e-7) = "-2.5e-7" := by decide +kernel
  have hfinite := isFinite_of_reading hreading
  refine ⟨hfinite, htext, ?_⟩
  rw [← htext]
  refine (cppNumber_denotes_iff hfinite (-2.5e-7)).2 ⟨?_, ?_⟩
  · rw [abs_doubleValue_of_reading hreading, Binary.value]
    norm_num
  · rw [if_neg (by decide +kernel)]

/-- The text of ten to the power twenty-one, a finite double, denotes no double at all. -/
theorem cppNumber_scientific : IsFinite 1e21 ∧ cppNumber 1e21 = "1e+21.0" ∧
    ∀ y, ¬ DenotesConstant (cppNumber 1e21) y := by
  have hreading : Reading.ofFloat 1e21 = .finite false firstScientific := by decide +kernel
  refine ⟨isFinite_of_reading hreading, by decide +kernel, not_denotesConstant_large hreading ?_⟩
  exact firstScientific_spec.2.ge

end

end RecurrenceCompiler
