import RecurrenceCompiler.Decimal.Reader
import RecurrenceCompiler.Proofs.Decimal.Nearest

/-!
# Integers among the doubles

A double that is an integer or infinite is compared like its integer (`IsIntegral.lt_iff` and its
siblings). An integer is rounded to such a double, exactly up to two to the power 53, and
`onDoubleGrid` is the integer of that double (`toInt_ofInt`); so moving an integer to the grid never
moves it past a double (`le_onDoubleGrid`, `onDoubleGrid_le`).
-/

namespace RecurrenceCompiler.Decimal

open Float.Model
open Float.Model.UnpackedFloat hiding unpack pack add sub mul div compare le lt beq

/-! ## Integral doubles -/

/-- A double that is an integer or infinite. -/
def IsIntegral (x : Float) : Prop :=
  IsNumber x ∧ ∃ k : Int, doubleValue x = k

/-- The power of two that stands for the infinities. -/
theorem overflow_eq_limit : (overflow : ℚ) = limit := by
  have hpow (n : Nat) : ((Int.ofNat (Nat.pow 2 n) : Int) : ℚ) = 2 ^ (n : Int) := by simp
  rw [limit, overflow, hpow, Nat.cast_ofNat]

theorem limit_le_of_overflow_le {k : Int} (h : overflow ≤ k) : limit ≤ (k : ℚ) := by
  rw [← overflow_eq_limit]
  exact_mod_cast h

/-- The magnitude of a double with an integer value. -/
theorem natCast_magnitude {m k : Nat} {e : Int} (h : (m : ℚ) * 2 ^ e = k) :
    (if 0 ≤ e then m * Nat.pow 2 e.toNat else m / Nat.pow 2 (-e).toNat) = k := by
  split
  · next he =>
    obtain ⟨n, rfl⟩ := Int.eq_ofNat_of_zero_le he
    rw [zpow_natCast] at h
    exact_mod_cast h
  · next he =>
    obtain ⟨n, hn⟩ := Int.eq_ofNat_of_zero_le (show 0 ≤ -e by omega)
    obtain rfl : e = -(n : Int) := by omega
    rw [zpow_neg, zpow_natCast, ← div_eq_mul_inv, div_eq_iff (by positivity)] at h
    have hm : m = k * 2 ^ n := by exact_mod_cast h
    rw [neg_neg, Int.toNat_natCast, hm]
    exact Nat.mul_div_cancel _ (Nat.two_pow_pos n)

/-- **The integer of an integral double is its value.** -/
theorem IsIntegral.doubleValue_eq {x : Float} (hx : IsIntegral x) : doubleValue x = toInt x := by
  obtain ⟨hnum, k, hk⟩ := hx
  have hagrees := agrees x
  rw [IsNumber] at hnum
  rw [doubleValue] at hk ⊢
  rw [toInt]
  cases hu : x.toModel.unpack <;> cases hr : Reading.ofFloat x <;> rw [hu, hr] at hagrees <;>
    try exact hagrees.elim
  case notANumber.nan => exact absurd hu hnum
  case infinity.infinite s n =>
    have hn : n = isNegative s := hagrees
    subst hn
    cases s <;> simp [unpackedValue, Sign.apply, isNegative, overflow_eq_limit]
  case zero.zero s n => simp [unpackedValue]
  case finite.finite s m e hm n b =>
    obtain ⟨hn, hbm, hbe⟩ := hagrees
    rw [hu, unpackedValue, apply_natCast] at hk
    have hpos : (0 : ℚ) ≤ m * 2 ^ e := by positivity
    have hmag : (m : ℚ) * 2 ^ e = k.natAbs := by
      rw [Nat.cast_natAbs, Int.cast_abs, ← hk, mul_assoc, abs_mul, abs_of_nonneg hpos]
      cases s <;> simp [Sign.apply]
    have hint := natCast_magnitude hmag
    rw [unpackedValue, apply_natCast, mul_assoc, hmag]
    simp only [hbm, hbe, hint, hn]
    cases s <;> simp [Sign.apply, isNegative]

section
variable {x y : Float}

/-- A whole double is an integer. -/
theorem isIntegral_of_isWhole (h : isWhole x = true) : IsFinite x ∧ IsIntegral x := by
  have hagrees := agrees x
  rw [isWhole] at h
  rw [IsFinite, IsIntegral, IsNumber, doubleValue]
  cases hu : x.toModel.unpack <;> cases hr : Reading.ofFloat x <;> rw [hu, hr] at hagrees <;>
    try exact hagrees.elim
  case notANumber.nan | infinity.infinite => rw [hr] at h; cases h
  case zero.zero s n => exact ⟨trivial, by simp, 0, by simp [unpackedValue]⟩
  case finite.finite s m e hm n b =>
    obtain ⟨-, hbm, hbe⟩ := hagrees
    refine ⟨trivial, by simp, ?_⟩
    rw [hr] at h
    simp only [hbm, hbe, Bool.or_eq_true, decide_eq_true_eq, beq_iff_eq] at h
    obtain ⟨j, hj⟩ : ∃ j : Nat, (m : ℚ) * 2 ^ e = j := by
      rcases h with h | h
      · obtain ⟨n, rfl⟩ := Int.eq_ofNat_of_zero_le h
        exact ⟨m * 2 ^ n, by simp⟩
      · obtain ⟨d, hd⟩ := Nat.dvd_of_mod_eq_zero h
        by_cases he : 0 ≤ e
        · obtain ⟨n, rfl⟩ := Int.eq_ofNat_of_zero_le he
          exact ⟨m * 2 ^ n, by simp⟩
        · obtain ⟨n, hn⟩ := Int.eq_ofNat_of_zero_le (show 0 ≤ -e by omega)
          obtain rfl : e = -(n : Int) := by omega
          refine ⟨d, ?_⟩
          rw [hd, neg_neg, Int.toNat_natCast, Nat.pow_eq, zpow_neg, zpow_natCast]
          push_cast
          field_simp
    refine ⟨s.apply j, ?_⟩
    rw [unpackedValue, apply_natCast, apply_natCast, mul_assoc, hj]

/-- An integer within the range of doubles is whole. -/
theorem IsIntegral.isWhole (hx : IsIntegral x) (hlt : |toInt x| < overflow) : isWhole x = true := by
  obtain ⟨hnum, k, hk⟩ := hx
  have hagrees := agrees x
  rw [IsNumber] at hnum
  rw [doubleValue] at hk
  rw [toInt] at hlt
  rw [Decimal.isWhole]
  cases hu : x.toModel.unpack <;> cases hr : Reading.ofFloat x <;> rw [hu, hr] at hagrees <;>
    try exact hagrees.elim
  case notANumber.nan => exact absurd hu hnum
  case infinity.infinite s n =>
    have hle := le_abs_self overflow
    rw [hr] at hlt
    cases n <;> simp only [Bool.false_eq_true, if_true, if_false, abs_neg] at hlt <;> omega
  case finite.finite s m e hm n b =>
    obtain ⟨-, hbm, hbe⟩ := hagrees
    simp only [hbm, hbe, Bool.or_eq_true, decide_eq_true_eq, beq_iff_eq]
    by_cases he : 0 ≤ e
    · exact .inl he
    · right
      obtain ⟨j, hj⟩ := Int.eq_ofNat_of_zero_le (show 0 ≤ -e by omega)
      obtain rfl : e = -(j : Int) := by omega
      rw [hu, unpackedValue, zpow_neg, zpow_natCast, ← div_eq_mul_inv, div_eq_iff (by positivity)] at hk
      have hdvd : (2 : Int) ^ j ∣ s.apply (m : Int) := Dvd.intro_left k (by exact_mod_cast hk.symm)
      have hdvd : (2 : Int) ^ j ∣ m := by
        cases s <;> simpa [Sign.apply] using hdvd
      rw [neg_neg, Int.toNat_natCast]
      exact Nat.mod_eq_zero_of_dvd (by exact_mod_cast hdvd)

theorem IsIntegral.lt_iff (hx : IsIntegral x) (hy : IsIntegral y) : x < y ↔ toInt x < toInt y := by
  rw [Decimal.lt_iff hx.1 hy.1, hx.doubleValue_eq, hy.doubleValue_eq, Int.cast_lt]

theorem IsIntegral.le_iff (hx : IsIntegral x) (hy : IsIntegral y) : x ≤ y ↔ toInt x ≤ toInt y := by
  rw [Decimal.le_iff hx.1 hy.1, hx.doubleValue_eq, hy.doubleValue_eq, Int.cast_le]

theorem IsIntegral.beq_iff (hx : IsIntegral x) (hy : IsIntegral y) :
    (x == y) = true ↔ toInt x = toInt y := by
  rw [Decimal.beq_iff hx.1 hy.1, hx.doubleValue_eq, hy.doubleValue_eq, Int.cast_inj]

end

/-! ## Integers as doubles -/

/-- Every number with a mantissa of 53 bits is a double. -/
theorem exists_double {m : Nat} {e : Int} (hm : m < 2 ^ 53) (he : -1074 ≤ e)
    (hmax : (m : ℚ) * 2 ^ e ≤ limit) : ∃ g, IsNumber g ∧ doubleValue g = m * 2 ^ e := by
  rcases Nat.eq_zero_or_pos m with rfl | hpos
  · have hun := unpack_pack (u := .zero .positive) trivial
    refine ⟨_, (rounds_zero .positive).isNumber, ?_⟩
    simp [doubleValue, hun, unpackedValue]
  · obtain ⟨n, hn⟩ : ∃ n : Nat, e - n ≤ grade m e := ⟨(e - grade m e).toNat, by omega⟩
    have hshift : e - n ≤ grade (m <<< n) (e - n) := by rwa [grade_shift hpos]
    have hpos' : 0 < m <<< n := Nat.shiftLeft_eq m n ▸ Nat.mul_pos hpos (Nat.two_pow_pos n)
    have hvalue := shiftLeft_value m n e
    obtain ⟨hnum, hround⟩ := pack_round_value .positive hpos' hshift
    obtain ⟨hup, hdown⟩ := rounded_cross hpos' hshift hm he
    refine ⟨_, hnum, ?_⟩
    rw [hround, le_antisymm (hdown hvalue.le) (hup hvalue.ge), min_eq_left hmax]
    simp [Sign.apply]

/-- Integers up to two to the power 53 are doubles. -/
theorem exists_double_int {k : Int} (hk : k.natAbs ≤ 2 ^ 53) :
    ∃ g, IsNumber g ∧ doubleValue g = k := by
  obtain ⟨g, hnum, hvalue⟩ : ∃ g, IsNumber g ∧ doubleValue g = k.natAbs := by
    have hlimit : ((2 ^ 53 : Nat) : ℚ) ≤ limit := by
      rw [limit, Nat.cast_pow]
      exact (zpow_natCast (2 : ℚ) 53).symm.le.trans
        (zpow_le_zpow_right₀ (by norm_num) (by norm_num))
    rcases hk.lt_or_eq with hlt | heq
    · have hle : (k.natAbs : ℚ) ≤ (2 ^ 53 : Nat) := by exact_mod_cast hk
      simpa using exists_double (e := 0) hlt (by norm_num) (by simpa using hle.trans hlimit)
    · rw [heq]
      have hvalue : ((2 ^ 53 : Nat) : ℚ) = (2 ^ 52 : Nat) * 2 ^ (1 : Int) := by norm_num
      rw [hvalue] at hlimit ⊢
      exact exists_double (by norm_num) (by norm_num) hlimit
  rcases Int.natAbs_eq k with h | h
  · exact ⟨g, hnum, by rw [hvalue, h]; simp⟩
  · have hneg := (rounds_self hnum).neg
    exact ⟨-g, hneg.isNumber, by rw [doubleValue_neg, hvalue, h]; simp⟩

/-- An integer is rounded to an integral double. -/
theorem Rounds.isIntegral {k : Int} {y : Float} (h : Rounds k y) : IsIntegral y := by
  refine ⟨h.isNumber, ?_⟩
  obtain ⟨m, e, hm, -, -, hvalue⟩ := exists_magnitude h.isNumber
  by_cases he : 0 ≤ e
  · obtain ⟨n, rfl⟩ := Int.eq_ofNat_of_zero_le he
    rcases hvalue with hvalue | hvalue
    · exact ⟨m * 2 ^ n, by rw [hvalue]; simp⟩
    · exact ⟨-(m * 2 ^ n), by rw [hvalue]; simp⟩
  -- The two integers around the value are doubles, so the value is not between them.
  have hsmall : |doubleValue y| < 2 ^ 53 := by
    have hmag : (m : ℚ) * 2 ^ e < 2 ^ 53 := by
      have hone : (2 : ℚ) ^ e ≤ 1 := zpow_le_one_of_nonpos₀ (by norm_num) (by omega)
      have hm : (m : ℚ) < 2 ^ 53 := by exact_mod_cast hm
      nlinarith [(m.cast_nonneg : (0 : ℚ) ≤ m)]
    rcases hvalue with hvalue | hvalue <;> rw [hvalue]
    · rwa [abs_of_nonneg (by positivity)]
    · rwa [abs_neg, abs_of_nonneg (by positivity)]
  obtain ⟨hlow, hhigh⟩ := abs_lt.1 hsmall
  have hfloor := Int.floor_le (doubleValue y)
  have hceil := Int.lt_floor_add_one (doubleValue y)
  have hfloor1 : -2 ^ 53 ≤ ⌊doubleValue y⌋ := by
    rw [Int.le_floor]
    push_cast
    exact hlow.le
  have hfloor2 : ⌊doubleValue y⌋ < 2 ^ 53 := by
    rw [Int.floor_lt]
    push_cast
    exact hhigh
  rcases le_or_gt k ⌊doubleValue y⌋ with hk | hk
  · obtain ⟨g, hg, hgv⟩ := exists_double_int (k := ⌊doubleValue y⌋) (by omega)
    have hle := h.ge g hg (by rw [hgv]; exact_mod_cast hk)
    exact ⟨_, le_antisymm (hle.trans hgv.le) hfloor⟩
  · obtain ⟨g, hg, hgv⟩ := exists_double_int (k := ⌊doubleValue y⌋ + 1) (by omega)
    have hle := h.le g hg (by rw [hgv]; exact_mod_cast hk)
    rw [hgv] at hle
    push_cast at hle
    linarith

/-- An integer up to two to the power 53 is not changed by rounding. -/
theorem Rounds.toInt_eq {k : Int} {y : Float} (h : Rounds k y) (hk : k.natAbs ≤ 2 ^ 53) :
    toInt y = k := by
  obtain ⟨g, hg, hgv⟩ := exists_double_int hk
  have hvalue := h.isIntegral.doubleValue_eq
  rw [← hgv] at h
  rw [h.eq hg, hgv] at hvalue
  exact_mod_cast hvalue.symm

/-! ## The grid of doubles -/

theorem isNumber_infinity : IsNumber (1.0 / 0.0) := by
  have hun : (1.0 / 0.0 : Float).toModel.unpack = .infinity .positive := rfl
  rw [IsNumber, hun]
  simp

theorem doubleValue_infinity : doubleValue (1.0 / 0.0) = limit := by
  have hun : (1.0 / 0.0 : Float).toModel.unpack = .infinity .positive := rfl
  simp [doubleValue, hun, unpackedValue, Sign.apply]

/-- Every number that large is rounded to infinity. -/
theorem rounds_infinity {x : ℚ} (h : limit ≤ x) : Rounds x (1.0 / 0.0) := by
  refine ⟨isNumber_infinity, fun g hg _ => ?_, fun g _ hge => ?_⟩ <;> rw [doubleValue_infinity]
  · exact (abs_le.1 (abs_doubleValue_le hg)).2
  · exact h.trans hge

/-- A number that large is rounded to nothing but infinity. -/
theorem Rounds.toInt_of_limit_le {k : Int} {y : Float} (h : Rounds k y) (hk : limit ≤ k) :
    toInt y = overflow := by
  have hle := h.le _ isNumber_infinity (by rwa [doubleValue_infinity])
  have hge := (abs_le.1 (abs_doubleValue_le h.isNumber)).2
  rw [doubleValue_infinity] at hle
  have heq := le_antisymm hge hle
  rw [h.isIntegral.doubleValue_eq, ← overflow_eq_limit] at heq
  exact_mod_cast heq

theorem overflow_pos : 0 < overflow := by
  have h := overflow_eq_limit ▸ limit_pos
  exact_mod_cast h

/-- **An integer is rounded to a double.** -/
theorem rounds_ofInt (k : Int) : Rounds k (ofInt k) := by
  have hround := rounds_ofQuotient k.natAbs one_pos
  have habs : ((k.natAbs : Nat) : ℚ) / (1 : Nat) = |(k : ℚ)| := by
    rw [Nat.cast_one, div_one, Nat.cast_natAbs, Int.cast_abs]
  rw [habs] at hround
  rw [ofInt]
  split
  · next hneg =>
    have hneg : (k : ℚ) < 0 := by exact_mod_cast hneg
    have h := hround.neg
    rwa [abs_of_neg hneg, neg_neg] at h
  · next hpos =>
    have hpos : (0 : ℚ) ≤ k := by exact_mod_cast not_lt.1 hpos
    rwa [abs_of_nonneg hpos] at hround

/-- The integer of the double to which an integer is rounded. -/
theorem toInt_ofInt (k : Int) : toInt (ofInt k) = onDoubleGrid k := by
  rw [onDoubleGrid]
  split
  · next hk => exact (rounds_ofInt k).toInt_eq hk
  · rfl

/-- Moving an integer to the grid of doubles does not move it past a double. -/
theorem le_onDoubleGrid {x : Float} (hx : IsIntegral x) {k : Int} (h : toInt x ≤ k) :
    toInt x ≤ onDoubleGrid k := by
  have hround := rounds_ofInt k
  have hle := hround.le x hx.1 (by rw [hx.doubleValue_eq]; exact_mod_cast h)
  rw [hx.doubleValue_eq, hround.isIntegral.doubleValue_eq, toInt_ofInt] at hle
  exact_mod_cast hle

theorem onDoubleGrid_le {x : Float} (hx : IsIntegral x) {k : Int} (h : k ≤ toInt x) :
    onDoubleGrid k ≤ toInt x := by
  have hround := rounds_ofInt k
  have hge := hround.ge x hx.1 (by rw [hx.doubleValue_eq]; exact_mod_cast h)
  rw [hx.doubleValue_eq, hround.isIntegral.doubleValue_eq, toInt_ofInt] at hge
  exact_mod_cast hge

/-- Changing the sign of an integral double changes that of its integer. -/
theorem IsIntegral.neg {x : Float} (hx : IsIntegral x) : IsIntegral (-x) ∧ toInt (-x) = -toInt x := by
  have hround := (rounds_self hx.1).neg
  rw [hx.doubleValue_eq, ← Int.cast_neg] at hround
  have hvalue := hround.isIntegral.doubleValue_eq
  rw [doubleValue_neg, hx.doubleValue_eq] at hvalue
  exact ⟨hround.isIntegral, by exact_mod_cast hvalue.symm⟩

/-- The grid is symmetric. -/
theorem onDoubleGrid_neg (n : Nat) : onDoubleGrid (-n) = -onDoubleGrid n := by
  by_cases h : n ≤ exactLimit
  · rw [onDoubleGrid, onDoubleGrid, if_pos (by omega), if_pos (by omega)]
  · have hneg : ofInt (-n) = -ofInt n := by
      rw [ofInt, ofInt, Int.natAbs_neg, if_pos (by omega), if_neg (by omega)]
    rw [← toInt_ofInt, ← toInt_ofInt, hneg]
    exact (rounds_ofInt n).isIntegral.neg.2

/-- What stands on the grid stays there. -/
@[simp] theorem onDoubleGrid_onDoubleGrid (k : Int) : onDoubleGrid (onDoubleGrid k) = onDoubleGrid k := by
  have hint := (rounds_ofInt k).isIntegral
  rw [← toInt_ofInt k]
  exact le_antisymm (onDoubleGrid_le hint le_rfl) (le_onDoubleGrid hint le_rfl)

theorem onDoubleGrid_natAbs {k : Int} (h : onDoubleGrid k = k) : onDoubleGrid k.natAbs = k.natAbs := by
  rcases Int.natAbs_eq k with hk | hk
  · rw [← hk, h]
  · have hneg := onDoubleGrid_neg k.natAbs
    rw [← hk, h] at hneg
    omega

/-- A number with more than 400 digits is beyond the finite doubles. -/
theorem overflow_le_of_digitCount {n : Nat} (h : 400 < digitCount n) : overflow ≤ n := by
  have hle : overflow ≤ (10 ^ 400 : Nat) := by decide +kernel
  have hn : 10 ^ 400 ≤ n := by
    by_contra hlt
    exact absurd ((Nat.length_toDigits_le_iff (by norm_num) (by norm_num)).2 (not_le.1 hlt))
      (not_le.2 h)
  exact hle.trans (by exact_mod_cast hn)

/-- **The digits of a natural number are rounded like the number.** -/
theorem toFloat_natural (n : Nat) :
    IsIntegral (toFloat n 0) ∧ toInt (toFloat n 0) = onDoubleGrid n := by
  have hgrid := toInt_ofInt n
  have hint := (rounds_ofInt n).isIntegral
  rw [toFloat]
  split
  · next h =>
    obtain rfl : n = 0 := by simpa using h
    have hun : (0.0 : Float).toModel.unpack = .zero .positive := rfl
    have hnum : IsNumber 0.0 := by
      rw [IsNumber, hun]
      simp
    have hvalue : doubleValue 0.0 = ((0 : Int) : ℚ) := by
      simp [doubleValue, hun, unpackedValue]
    have hround : Rounds (0 : Int) 0.0 := hvalue ▸ rounds_self hnum
    exact ⟨hround.isIntegral, hround.toInt_eq (by norm_num)⟩
  · dsimp only
    split
    · next hlarge =>
      have hbig : overflow ≤ n := overflow_le_of_digitCount (by omega)
      have hlimit := limit_le_of_overflow_le hbig
      have hround := rounds_infinity hlimit
      refine ⟨hround.isIntegral, ?_⟩
      rw [← hgrid, hround.toInt_of_limit_le hlimit, (rounds_ofInt n).toInt_of_limit_le hlimit]
    · have hofInt : ofInt n = ofQuotient n 1 := by
        rw [ofInt, if_neg (by omega), Int.natAbs_natCast]
      rw [if_neg (by omega), scale_eq]
      simpa [hofInt] using And.intro hint hgrid

/-- One. -/
theorem toFloat_one : IsFinite (toFloat 1 0) ∧ doubleValue (toFloat 1 0) = 1 := by
  have hwhole : isWhole (toFloat 1 0) = true := by decide +kernel
  obtain ⟨hfin, hint⟩ := isIntegral_of_isWhole hwhole
  have hvalue : toInt (toFloat 1 0) = 1 := (toFloat_natural 1).2
  exact ⟨hfin, by rw [hint.doubleValue_eq, hvalue, Int.cast_one]⟩

/-- **What is less than the sum of an integer and one is not greater than the integer**, rounding
aside: the sum is not rounded across a double. -/
theorem le_of_lt_add_one {x a : Float} (hfin : IsFinite x) (hx : IsIntegral x) (ha : IsIntegral a)
    (h : a < x + toFloat 1 0) : a ≤ x := by
  obtain ⟨hone, hvalue⟩ := toFloat_one
  have hround := rounds_add hfin hone
  rw [hvalue, hx.doubleValue_eq] at hround
  rw [Decimal.lt_iff ha.1 hround.isNumber] at h
  rw [ha.le_iff hx]
  by_contra hlt
  have hle : toInt x + 1 ≤ toInt a := by omega
  have hge := hround.ge a ha.1 (by rw [ha.doubleValue_eq]; exact_mod_cast hle)
  linarith

end RecurrenceCompiler.Decimal
