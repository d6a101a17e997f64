import RecurrenceCompiler.Proofs.Decimal.Interval

/-!
# The shortest decimal reads back

The search for a short decimal looks at finer and finer grids; on the grid of eighteen digits the
decimal just below a double is among the numbers nearest to it, so the search ends with one of those
(`near_shortest`). No other double is nearest to it (`Binary.Near.unique`), hence the decimal tells
doubles apart.
-/

namespace RecurrenceCompiler.Decimal

/-! ## The search -/

/-- Grid points and bounds over a common denominator compare like the numbers that they are. -/
theorem grid_cast (x c den : Nat) (unit : Int) :
    ((x * 10 ^ (-unit).toNat : Nat) : ℚ) = x * 10 ^ (-unit).toNat ∧
      ((c * (den * 10 ^ unit.toNat) : Nat) : ℚ) = c * 10 ^ unit * den * 10 ^ (-unit).toNat := by
  refine ⟨by push_cast; ring, ?_⟩
  rw [mul_right_comm _ (den : ℚ), mul_assoc (c : ℚ), zpow_mul_toNat 10 (by norm_num)]
  push_cast
  ring

section
variable {low mid high den : Nat} {closed : Bool} {unit : Int}

/-- A grid point is found inside if the number that it is lies there. -/
theorem isBetween_iff {c : Nat} : isBetween closed (low * 10 ^ (-unit).toNat)
      (high * 10 ^ (-unit).toNat) (c * (den * 10 ^ unit.toNat)) = true ↔
    Between closed low high (c * 10 ^ unit * den) := by
  have hpos : (0 : ℚ) < 10 ^ (-unit).toNat := by positivity
  obtain ⟨hlow, hpoint⟩ := grid_cast low c den unit
  have hhigh := (grid_cast high c den unit).1
  rw [Between, isBetween]
  cases closed
  · simp only [Bool.false_eq_true, if_false, Bool.and_eq_true, decide_eq_true_eq]
    rw [← @Nat.cast_lt ℚ, ← @Nat.cast_lt ℚ, hlow, hhigh, hpoint, mul_lt_mul_iff_left₀ hpos,
      mul_lt_mul_iff_left₀ hpos]
  · simp only [if_true, Bool.and_eq_true, decide_eq_true_eq]
    rw [← @Nat.cast_le ℚ, ← @Nat.cast_le ℚ, hlow, hhigh, hpoint, mul_le_mul_iff_left₀ hpos,
      mul_le_mul_iff_left₀ hpos]

/-- **A decimal that a grid offers is inside.** -/
theorem between_of_onGrid {c : Nat} (h : onGrid low mid high den closed unit = some c) :
    c ≠ 0 ∧ Between closed low high (c * 10 ^ unit * den) := by
  simp only [onGrid, scale_eq, neg_neg] at h
  generalize mid * 10 ^ (-unit).toNat / (den * 10 ^ unit.toNat) = below at h
  split at h
  · next hboth =>
    rw [Bool.and_eq_true, Bool.and_eq_true, bne_iff_ne, isBetween_iff, isBetween_iff] at hboth
    have hresult : c = below ∨ c = below + 1 := by
      split at h
      · exact .inl (Option.some.inj h).symm
      · split at h
        · exact .inr (Option.some.inj h).symm
        · split at h
          · exact .inl (Option.some.inj h).symm
          · exact .inr (Option.some.inj h).symm
    rcases hresult with rfl | rfl
    · exact hboth.1.symm
    · exact ⟨by omega, hboth.2⟩
  · split at h
    · next hin =>
      cases h
      rw [Bool.and_eq_true, bne_iff_ne, isBetween_iff] at hin
      exact hin.symm
    · split at h
      · next hin =>
        cases h
        exact ⟨by omega, isBetween_iff.1 hin⟩
      · cases h

/-- A grid whose point just below the value is inside offers a decimal. -/
theorem isSome_onGrid {below : Nat}
    (hbelow : mid * 10 ^ (-unit).toNat / (den * 10 ^ unit.toNat) = below) (hne : below ≠ 0)
    (hin : Between closed low high (below * 10 ^ unit * den)) :
    (onGrid low mid high den closed unit).isSome := by
  have hin := isBetween_iff.2 hin
  simp only [onGrid, scale_eq, neg_neg, hbelow, hin, bne_iff_ne.2 hne, Bool.and_self, Bool.true_and,
    if_true]
  split
  · split
    · rfl
    · split
      · rfl
      · split <;> rfl
  · rfl

/-- **The search ends inside** if one of the grids offers a decimal. -/
theorem between_firstGrid {top : Int} {fuel n : Nat}
    (h : ∃ k, n ≤ k ∧ k < n + fuel ∧ (onGrid low mid high den closed (top - k)).isSome) :
    (firstGrid low mid high den closed top fuel n).digits ≠ 0 ∧
      Between closed low high ((firstGrid low mid high den closed top fuel n).value * den) := by
  induction fuel generalizing n with
  | zero =>
    obtain ⟨k, hle, hlt, -⟩ := h
    omega
  | succ fuel ih =>
    rw [firstGrid]
    split
    · next c hc => exact between_of_onGrid hc
    · next hnone =>
      obtain ⟨k, hle, hlt, hsome⟩ := h
      refine ih ⟨k, ?_, by omega, hsome⟩
      by_contra hk
      obtain rfl : k = n := by omega
      rw [hnone] at hsome
      cases hsome

end

/-- Taking off trailing zeros keeps the number. -/
theorem value_strip (fuel : Nat) (d : Digits) (hd : d.digits ≠ 0) :
    (d.strip fuel).digits ≠ 0 ∧ (d.strip fuel).value = d.value := by
  induction fuel generalizing d with
  | zero => exact ⟨hd, rfl⟩
  | succ fuel ih =>
    rw [Digits.strip]
    split
    · next h =>
      have hmod : d.digits % 10 = 0 := by simpa using (Bool.and_eq_true_iff.1 h).2
      obtain ⟨hne, hvalue⟩ := ih ⟨d.digits / 10, d.exponent + 1⟩ (by dsimp only; omega)
      refine ⟨hne, hvalue.trans ?_⟩
      have hdigits : (d.digits : ℚ) = (d.digits / 10 : Nat) * 10 := by
        exact_mod_cast (Nat.div_mul_cancel (Nat.dvd_of_mod_eq_zero hmod)).symm
      rw [Digits.value, Digits.value, hdigits, zpow_add_one₀ (by norm_num)]
      ring
    · exact ⟨hd, rfl⟩

/-! ## The size of a number -/

/-- Counting zeros stops at the first digit. -/
theorem leadingZeros_spec {fuel k num den : Nat} (h : ∃ j ≤ fuel, den ≤ num * 10 ^ j) :
    ∃ j, leadingZeros fuel k num den = k + j ∧ den ≤ num * 10 ^ j := by
  induction fuel generalizing k num with
  | zero =>
    obtain ⟨j, hj, hle⟩ := h
    obtain rfl : j = 0 := by omega
    exact ⟨0, rfl, hle⟩
  | succ fuel ih =>
    rw [leadingZeros]
    split
    · next hle => exact ⟨0, rfl, by simpa using hle⟩
    · next hlt =>
      obtain ⟨j, hj, hle⟩ := h
      have hpos : j ≠ 0 := by
        rintro rfl
        simp at hle
        omega
      have hstep : ∃ j ≤ fuel, den ≤ num * 10 * 10 ^ j :=
        ⟨j - 1, by omega, by rwa [mul_assoc, ← pow_succ', Nat.sub_add_cancel (by omega)]⟩
      obtain ⟨i, hi, hle'⟩ := ih (k := k + 1) hstep
      exact ⟨i + 1, by omega, by rwa [pow_succ', ← mul_assoc]⟩

/-- The power of ten of the first digit. -/
theorem pow_digitCount_le {n : Nat} (hn : 0 < n) : 10 ^ (digitCount n - 1) ≤ n := by
  by_contra hlt
  have hcount : 0 < digitCount n - 1 := by
    by_contra hzero
    rw [Nat.eq_zero_of_not_pos hzero] at hlt
    omega
  have hle : digitCount n ≤ digitCount n - 1 :=
    (Nat.length_toDigits_le_iff (by norm_num) hcount).2 (not_le.1 hlt)
  omega

/-- **The power of ten of the magnitude is not above the number.** -/
theorem pow_magnitude_le {num den : Nat} (hden : 0 < den) (h : den ≤ num * 10 ^ 400) :
    (10 : ℚ) ^ magnitude num den * den ≤ num := by
  rw [magnitude]
  split
  · next hle =>
    have hdigits := pow_digitCount_le (Nat.div_pos hle hden)
    have hcount : 0 < digitCount (num / den) := Nat.length_toDigits_pos
    rw [show (digitCount (num / den) : Int) - 1 = (digitCount (num / den) - 1 : Nat) by omega,
      zpow_natCast]
    exact_mod_cast (Nat.mul_le_mul_right den hdigits).trans (Nat.div_mul_le_self num den)
  · obtain ⟨j, hj, hle⟩ := leadingZeros_spec (k := 0) ⟨400, le_rfl, h⟩
    rw [hj, zero_add, zpow_neg, zpow_natCast, inv_mul_le_iff₀ (by positivity), mul_comm]
    exact_mod_cast hle

/-- The grid point just below a value. -/
theorem gridBelow_le {mid den : Nat} (hden : 0 < den) (unit : Int) {below : Nat}
    (h : mid * 10 ^ (-unit).toNat / (den * 10 ^ unit.toNat) = below) :
    (below : ℚ) * (10 ^ unit * den) ≤ mid ∧ (mid : ℚ) < (below + 1) * (10 ^ unit * den) := by
  have hpos : (0 : ℚ) < 10 ^ (-unit).toNat := by positivity
  obtain ⟨hmid, hbelow⟩ := grid_cast mid below den unit
  have habove := (grid_cast mid (below + 1) den unit).2
  rw [Nat.cast_add_one] at habove
  rw [← mul_le_mul_iff_left₀ hpos, ← mul_lt_mul_iff_left₀ hpos, ← mul_assoc, ← mul_assoc, ← hmid,
    ← hbelow, ← habove, Nat.cast_le, Nat.cast_lt, ← h]
  exact ⟨Nat.div_mul_le_self _ _, (Nat.div_lt_iff_lt_mul (by positivity)).1 (Nat.lt_succ_self _)⟩

/-- **With eighteen digits the point below the value is inside**: the grid is finer than a quarter of
the gap to the next double. -/
theorem isSome_lastGrid {m low high factor den : Nat} {closed : Bool} {top : Int} (hm : m < 2 ^ 53)
    (hden : 0 < den) (hfactor : 0 < factor) (hlow : low + 1 ≤ 4 * m) (hhigh : 4 * m < high)
    (htop : (10 : ℚ) ^ top * den ≤ (4 * m * factor : Nat)) :
    (onGrid (low * factor) (4 * m * factor) (high * factor) den closed (top - 17)).isSome := by
  generalize hbelow : 4 * m * factor * 10 ^ (-(top - 17)).toNat / (den * 10 ^ (top - 17).toNat) = below
  obtain ⟨hle, hnext⟩ := gridBelow_le hden (top - 17) hbelow
  have hstep : (0 : ℚ) < 10 ^ (top - 17) * den := by positivity
  have hpow : (10 : ℚ) ^ top * den = 10 ^ 17 * (10 ^ (top - 17) * den) := by
    rw [← mul_assoc, ← zpow_natCast, ← zpow_add₀ (by norm_num)]
    congr 2
    omega
  rw [hpow] at htop
  generalize hstep_eq : (10 : ℚ) ^ (top - 17) * den = step at *
  have hF : (0 : ℚ) < factor := by exact_mod_cast hfactor
  have hmF : ((4 * m * factor : Nat) : ℚ) < 2 ^ 55 * factor := by
    have hlt : 4 * m < 2 ^ 55 := by omega
    exact_mod_cast Nat.mul_lt_mul_of_pos_right hlt hfactor
  have hlowF : ((low * factor : Nat) : ℚ) + factor ≤ (4 * m * factor : Nat) := by
    have hle := Nat.mul_le_mul_right factor hlow
    rw [add_mul, one_mul] at hle
    exact_mod_cast hle
  have hhighF : ((4 * m * factor : Nat) : ℚ) < (high * factor : Nat) := by
    exact_mod_cast Nat.mul_lt_mul_of_pos_right hhigh hfactor
  have hfine : step < factor := by linarith
  refine isSome_onGrid hbelow ?_ (.of_lt closed ?_ ?_)
  · rintro rfl
    simp only [Nat.cast_zero, zero_add, one_mul] at hnext
    linarith
  · rw [mul_assoc, hstep_eq]
    linarith
  · rw [mul_assoc, hstep_eq]
    linarith

/-- **The shortest decimal reads back**: it is nearest to the binary number. -/
theorem near_shortest {b : Binary} (hb : b.WellFormed) :
    (shortest b).digits ≠ 0 ∧ b.Near (shortest b).value := by
  obtain ⟨hpos, hlt, hmin, -, -⟩ := hb.canonical
  have hscale := zpow_mul_toNat 2 (by norm_num) (b.exponent - 2)
  have hsize : 1 * 2 ^ (-(b.exponent - 2)).toNat ≤ 4 * b.mantissa * 2 ^ (b.exponent - 2).toNat * 10 ^ 400 := by
    calc 1 * 2 ^ (-(b.exponent - 2)).toNat ≤ 2 ^ (3 * 400) := by
          rw [one_mul]
          exact Nat.pow_le_pow_right (by norm_num) (by omega)
      _ = 8 ^ 400 := pow_mul 2 3 400
      _ ≤ 1 * 10 ^ 400 := (Nat.pow_le_pow_left (by norm_num) 400).trans_eq (one_mul _).symm
      _ ≤ _ := Nat.mul_le_mul_right _ (Nat.mul_pos (by omega) (by positivity))
  rw [shortest]
  simp only [scale_eq]
  change (Digits.strip 20 (firstGrid (b.low * _) _ (b.high * _) _ _ _ 18 0)).digits ≠ 0 ∧
    b.Near (Digits.strip 20 (firstGrid (b.low * _) _ (b.high * _) _ _ _ 18 0)).value
  generalize hden : 1 * 2 ^ (-(b.exponent - 2)).toNat = den at *
  generalize hfactor : 2 ^ (b.exponent - 2).toNat = factor at *
  have hdenpos : 0 < den := by rw [← hden]; positivity
  have hfactorpos : 0 < factor := by rw [← hfactor]; positivity
  have hgrid : (onGrid (b.low * factor) (4 * b.mantissa * factor) (b.high * factor) den
      (b.mantissa % 2 == 0) (magnitude (4 * b.mantissa * factor) den - 17)).isSome :=
    isSome_lastGrid hlt hdenpos hfactorpos (by rw [Binary.low]; split <;> omega)
      (by rw [Binary.high]; omega) (pow_magnitude_le hdenpos hsize)
  obtain ⟨hne, hin⟩ := @between_firstGrid _ _ _ _ _ _ 18 0
    ⟨17, by norm_num, by norm_num, by exact_mod_cast hgrid⟩
  obtain ⟨hne', hvalue⟩ := value_strip 20 _ hne
  refine ⟨hne', ?_⟩
  have hD : (0 : ℚ) < den := by exact_mod_cast hdenpos
  have hunit : (2 : ℚ) ^ (b.exponent - 2) * den = factor := by
    rw [← hden, ← hfactor, one_mul]
    exact_mod_cast hscale
  rw [hvalue, Binary.Near, ← between_mul_iff hD, mul_assoc, mul_assoc, hunit]
  exact_mod_cast hin

end RecurrenceCompiler.Decimal
