import RecurrenceCompiler.Proofs.Decimal.Integers
import RecurrenceCompiler.Proofs.Decimal.Spelling

/-!
# Integers that are written in digits

Below ten to the power twenty-one an integer that is a double is written without a point or an exponent
(`isNatural_intText`): the search for the shortest decimal ends at the units at the latest, where it finds
the integer itself, and no decimal nearest to the integer has more than twenty-one digits before the point.
-/

namespace RecurrenceCompiler.Decimal

open Text

section
variable {low mid high den : Nat} {closed : Bool}

/-- The search ends at the units at the latest if the grid of units offers a decimal. -/
theorem firstGrid_exponent_nonneg {top : Int} {fuel n : Nat} (hn : n ≤ top)
    (h : (onGrid low mid high den closed 0).isSome) :
    0 ≤ (firstGrid low mid high den closed top fuel n).exponent := by
  induction fuel generalizing n with
  | zero => simpa [firstGrid] using hn
  | succ fuel ih =>
    rw [firstGrid]
    split
    · simpa using hn
    · next hnone =>
      refine ih ?_
      by_contra hlt
      rw [show top - n = 0 by omega] at hnone
      rw [hnone] at h
      cases h

/-- The grid of units offers a decimal for an integer. -/
theorem isSome_units {k : Nat} (hk : 0 < k) (hden : 0 < den) (hmid : mid = k * den) (hlow : low < mid)
    (hhigh : mid < high) : (onGrid low mid high den closed 0).isSome := by
  have hbelow : mid * 10 ^ (-(0 : Int)).toNat / (den * 10 ^ (0 : Int).toNat) = k := by
    simp [hmid, Nat.mul_div_cancel _ hden]
  refine isSome_onGrid hbelow hk.ne' (.of_lt closed ?_ ?_)
  · rw [zpow_zero, mul_one]
    exact_mod_cast hmid ▸ hlow
  · rw [zpow_zero, mul_one]
    exact_mod_cast hmid ▸ hhigh

end

theorem exponent_strip (fuel : Nat) (d : Digits) : d.exponent ≤ (d.strip fuel).exponent := by
  induction fuel generalizing d with
  | zero => exact le_rfl
  | succ fuel ih =>
    rw [Digits.strip]
    split
    · exact (ih _).trans' (by simp)
    · exact le_rfl

/-- The shortest decimal of an integer has no fraction. -/
theorem shortest_exponent_nonneg {b : Binary} {k : Nat} (hk : 0 < k) (hb : b.WellFormed)
    (hvalue : b.value = k) : 0 ≤ (shortest b).exponent := by
  have hpos := hb.canonical.pos
  have hscale := zpow_mul_toNat 2 (by norm_num) (b.exponent - 2)
  rw [shortest]
  simp only [scale_eq]
  change 0 ≤ (Digits.strip 20 (firstGrid (b.low * _) _ (b.high * _) _ _ _ 18 0)).exponent
  refine (exponent_strip 20 _).trans' ?_
  -- Four times the integer, over a common denominator.
  have hmid : 4 * b.mantissa * 2 ^ (b.exponent - 2).toNat = k * (1 * 2 ^ (-(b.exponent - 2)).toNat) := by
    rw [← @Nat.cast_inj ℚ]
    push_cast
    rw [← hscale, ← hvalue, Binary.value, one_mul, show b.exponent = 2 + (b.exponent - 2) by omega,
      zpow_add₀ (by norm_num), show 2 + (b.exponent - 2) - 2 = b.exponent - 2 by omega]
    norm_num
    ring
  have hfactor : 0 < 2 ^ (b.exponent - 2).toNat := by positivity
  have hden : 0 < 1 * 2 ^ (-(b.exponent - 2)).toNat := by positivity
  have hlow : b.low < 4 * b.mantissa := by
    rw [Binary.low]
    split <;> omega
  have hhigh : 4 * b.mantissa < b.high := by
    rw [Binary.high]
    omega
  refine firstGrid_exponent_nonneg ?_ (isSome_units hk hden hmid
    (Nat.mul_lt_mul_of_pos_right hlow hfactor) (Nat.mul_lt_mul_of_pos_right hhigh hfactor))
  rw [hmid, magnitude, if_pos (Nat.le_mul_of_pos_left _ hk)]
  have hcount : 0 < digitCount (k * (1 * 2 ^ (-(b.exponent - 2)).toNat) /
      (1 * 2 ^ (-(b.exponent - 2)).toNat)) := Nat.length_toDigits_pos
  omega

/-- A decimal without a fraction below ten to the power twenty-one is written in digits. -/
theorem write_of_exponent_nonneg {d : Digits} (hd : d.digits ≠ 0) (hexponent : 0 ≤ d.exponent)
    (hvalue : d.value < 10 ^ 21) : Layout.standard.write d =
      Nat.toDigits 10 d.digits ++ List.replicate d.exponent.toNat '0' := by
  have hcount := pow_digitCount_le (Nat.pos_of_ne_zero hd)
  have hcountpos : 0 < digitCount d.digits := Nat.length_toDigits_pos
  obtain ⟨k, hk⟩ := Int.eq_ofNat_of_zero_le hexponent
  have hpoint : digitCount d.digits + k ≤ 21 := by
    by_contra hlt
    have hle : 10 ^ 21 ≤ d.digits * 10 ^ k := by
      calc 10 ^ 21 ≤ 10 ^ (digitCount d.digits - 1 + k) := Nat.pow_le_pow_right (by norm_num) (by omega)
        _ = 10 ^ (digitCount d.digits - 1) * 10 ^ k := pow_add 10 _ _
        _ ≤ d.digits * 10 ^ k := Nat.mul_le_mul_right _ hcount
    rw [Digits.value, hk, zpow_natCast] at hvalue
    exact absurd hvalue (not_lt.2 (by exact_mod_cast hle))
  rw [Layout.write]
  refine if_pos (Bool.and_eq_true_iff.2 ⟨decide_eq_true ?_, decide_eq_true ?_⟩)
  · omega
  · rw [digitCount] at hpoint
    simp only [Layout.standard]
    omega

theorem isNatural_write {d : Digits} (hd : d.digits ≠ 0) (hexponent : 0 ≤ d.exponent)
    (hvalue : d.value < 10 ^ 21) : isNatural (Layout.standard.write d) := by
  have hall : (Nat.toDigits 10 d.digits ++ List.replicate d.exponent.toNat '0').all isDigit := by
    rw [List.all_append, all_isDigit_toDigits, all_isDigit_zeros]
    rfl
  rw [write_of_exponent_nonneg hd hexponent hvalue, isNatural, hall]
  simp

/-- Ten to the power twenty-one, which is a double. -/
def firstScientific : Binary :=
  ⟨7629394531250000, 17, false⟩

theorem firstScientific_spec : firstScientific.WellFormed ∧ firstScientific.value = 10 ^ 21 := by
  refine ⟨⟨⟨by decide, by decide, by decide, by decide, by decide⟩, by decide⟩, ?_⟩
  rw [Binary.value, firstScientific]
  norm_num

/-- **Below ten to the power twenty-one an integer that is a double is written in digits.** -/
theorem isNatural_intText {n : Nat} (hgrid : onDoubleGrid n = n) (hn : n < 10 ^ 21) :
    isNatural (intText n).toList := by
  rw [intText]
  split
  · rw [toList_toString, decide_eq_false (by omega), signed, if_neg (by decide), Int.natAbs_natCast,
      isNatural, all_isDigit_toDigits]
    simp
  · next hbig =>
    have hbig : exactLimit < n := by simpa using hbig
    have hint := (rounds_ofInt n).isIntegral
    have hvalue : doubleValue (ofInt n) = (n : Int) := by rw [hint.doubleValue_eq, toInt_ofInt, hgrid]
    have hlimit : |((n : Int) : ℚ)| < limit := by
      have hle : (10 : ℚ) ^ 21 ≤ 2 ^ (70 : ℤ) := by norm_num
      have hn : (n : ℚ) < 10 ^ 21 := by exact_mod_cast hn
      rw [limit, Int.cast_natCast, abs_of_nonneg (by positivity)]
      exact (hn.trans_le hle).trans (zpow_lt_zpow_right₀ (by norm_num) (by norm_num))
    obtain ⟨b, hreading, hb⟩ := reading_of_doubleValue hint.1 hvalue (by omega) hlimit
    rw [decide_eq_false (by omega)] at hreading
    have hwell := wellFormed_of_reading hreading
    obtain ⟨hne, hnear⟩ := near_shortest hwell
    obtain ⟨hfirst, hfirstValue⟩ := firstScientific_spec
    have hless : (shortest b).value < 10 ^ 21 := by
      rw [← hfirstValue]
      refine hnear.lt_of_value_lt hwell hfirst ?_
      rw [hfirstValue, hb]
      exact_mod_cast hn
    rw [numberText, String.toList_ofList, numberChars, hreading]
    exact isNatural_write hne (shortest_exponent_nonneg (k := n) (by omega) hwell (by simpa using hb)) hless

/-! ## Integers that doubles count -/

/-- Zeros behind the digits of a number multiply it by ten. -/
theorem toDigits_mul_pow {n : Nat} (hn : 0 < n) (k : Nat) :
    Nat.toDigits 10 (n * 10 ^ k) = Nat.toDigits 10 n ++ List.replicate k '0' := by
  induction k with
  | zero => simp
  | succ k ih =>
    have hpos : 0 < n * 10 ^ k := by positivity
    have hstep := Nat.toDigits_append_toDigits (b := 10) (by norm_num) hpos (show 0 < 10 by norm_num)
    rw [show n * 10 ^ (k + 1) = 10 * (n * 10 ^ k) + 0 by ring, ← hstep, ih, List.replicate_succ',
      List.append_assoc]
    rfl

/-- An integer other than zero up to which doubles count, as a binary number. -/
theorem exists_binary {i : Int} (hne : i ≠ 0) (hi : i.natAbs ≤ 2 ^ 53) :
    ∃ b, Reading.ofFloat (ofInt i) = .finite (decide (i < 0)) b ∧ b.WellFormed ∧ b.value = i.natAbs := by
  have hint := (rounds_ofInt i).isIntegral
  have hvalue : doubleValue (ofInt i) = i := by
    rw [hint.doubleValue_eq, (rounds_ofInt i).toInt_eq hi]
  obtain ⟨b, hreading, hb⟩ := reading_of_doubleValue hint.1 hvalue hne (abs_lt_limit hi)
  exact ⟨b, hreading, wellFormed_of_reading hreading, hb⟩

/-- The shortest decimal of a positive integer below two to the power 53 is the integer itself: every other
integer is nearer to another double. -/
theorem shortest_eq {b : Binary} {k : Nat} (hk : 0 < k) (hlt : k < 2 ^ 53) (hb : b.WellFormed)
    (hvalue : b.value = k) : 0 ≤ (shortest b).exponent ∧ (shortest b).digits ≠ 0 ∧
      (shortest b).digits * 10 ^ (shortest b).exponent.toNat = k := by
  have hexponent := shortest_exponent_nonneg hk hb hvalue
  obtain ⟨hne, hnear⟩ := near_shortest hb
  refine ⟨hexponent, hne, ?_⟩
  generalize shortest b = d at *
  obtain ⟨e, he⟩ := Int.eq_ofNat_of_zero_le hexponent
  have hnat : d.value = ((d.digits * 10 ^ e : Nat) : ℚ) := by
    rw [Digits.value, he, zpow_natCast]
    push_cast
    rfl
  have hneighbour {n : Nat} (hn : 0 < n) (hle : n ≤ 2 ^ 53) : ∃ c : Binary, c.WellFormed ∧ c.value = n := by
    obtain ⟨c, -, hc, hcvalue⟩ := exists_binary (i := n) (by omega) (by omega)
    exact ⟨c, hc, by simpa using hcvalue⟩
  obtain ⟨c, hc, hcvalue⟩ := hneighbour (n := k + 1) (by omega) (by omega)
  have habove := hnear.lt_of_value_lt hb hc (by rw [hvalue, hcvalue]; exact_mod_cast Nat.lt_succ_self k)
  have hbelow : k - 1 < d.digits * 10 ^ e := by
    rcases Nat.eq_or_lt_of_le (Nat.one_le_iff_ne_zero.2 hk.ne') with hone | hone
    · rw [← hone]
      positivity
    · obtain ⟨c, hc, hcvalue⟩ := hneighbour (n := k - 1) (by omega) (by omega)
      have h := hnear.lt_of_lt_value hb hc (by rw [hvalue, hcvalue]; exact_mod_cast Nat.sub_lt hk one_pos)
      rw [hnat, hcvalue] at h
      exact_mod_cast h
  rw [hnat, hcvalue] at habove
  have habove : d.digits * 10 ^ e < k + 1 := by exact_mod_cast habove
  rw [he, Int.toNat_natCast]
  omega

/-- **An integer below two to the power 53 is written in its digits.** -/
theorem numberText_ofInt {i : Int} (hi : i.natAbs < 2 ^ 53) : numberText (ofInt i) = intText i := by
  rw [intText, if_pos (show i.natAbs ≤ exactLimit by rw [exactLimit]; omega), numberText]
  refine String.ext ?_
  rw [String.toList_ofList, toList_toString, numberChars]
  by_cases hzero : i = 0
  · subst hzero
    decide +kernel
  · obtain ⟨b, hreading, hwell, hvalue⟩ := exists_binary hzero hi.le
    obtain ⟨hexponent, hne, hdigits⟩ := shortest_eq (by omega) hi hwell hvalue
    have hsmall : (shortest b).value < 10 ^ 21 := by
      have hlt : (shortest b).digits * 10 ^ (shortest b).exponent.toNat < 10 ^ 21 := by
        rw [hdigits]
        omega
      rw [Digits.value, ← Int.toNat_of_nonneg hexponent, zpow_natCast]
      exact_mod_cast hlt
    rw [hreading]
    dsimp only
    rw [write_of_exponent_nonneg hne hexponent hsmall, ← toDigits_mul_pow (Nat.pos_of_ne_zero hne), hdigits,
      signed]

end RecurrenceCompiler.Decimal
