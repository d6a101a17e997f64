import RecurrenceCompiler.Proofs.Decimal.Double

/-!
# Rounding

A result is rounded to a multiple of a power of two, at most half a unit away (`nearest_spec`). All
that the compiler relies on follows from one consequence: a rounded value stays on the side of every
double on which the exact value is (`Rounds`). Sums are rounded so (`rounds_add`).
-/

namespace RecurrenceCompiler.Decimal

open Float.Model
open Float.Model.UnpackedFloat hiding unpack pack add sub mul div compare le lt beq

/-! ## Rounding to 53 bits -/

/-- The quotient by a power of two that rounding keeps. -/
def nearest (m n : Nat) : Nat :=
  (ExtendedMantissa.mk m false false >>> n).roundedMantissa

/-- What shifting leaves in the mantissa and the two bits after it. -/
theorem shiftRight_parts (m n : Nat) :
    (ExtendedMantissa.mk m false false >>> (n + 1)) =
      ⟨m / 2 ^ (n + 1), m / 2 ^ n % 2 != 0, m % 2 ^ n != 0⟩ := by
  induction n with
  | zero =>
    change ExtendedMantissa.shiftRightOne ⟨m, false, false⟩ = _
    simp [ExtendedMantissa.shiftRightOne, Nat.mod_one]
  | succ n ih =>
    change ExtendedMantissa.shiftRightOne (ExtendedMantissa.mk m false false >>> (n + 1)) = _
    rw [ih, ExtendedMantissa.shiftRightOne, Nat.div_div_eq_div_mul, ← pow_succ]
    congr 1
    have hmod : m % 2 ^ (n + 1) = m % 2 ^ n + 2 ^ n * (m / 2 ^ n % 2) := Nat.mod_pow_succ
    have hpos := Nat.two_pow_pos n
    rw [hmod]
    rcases Nat.mod_two_eq_zero_or_one (m / 2 ^ n) with h | h <;> simp [h]

/-- Rounding goes up past the half, and from the half to the even side. -/
theorem nearest_succ (m n : Nat) :
    nearest m (n + 1) = m / 2 ^ (n + 1) +
      if m / 2 ^ n % 2 = 0 then 0 else if m % 2 ^ n = 0 then m / 2 ^ (n + 1) % 2 else 1 := by
  rw [nearest, shiftRight_parts, ExtendedMantissa.roundedMantissa]
  by_cases hb : m / 2 ^ n % 2 = 0 <;> by_cases hs : m % 2 ^ n = 0
  · rw [if_pos hb, hb, hs]
    rfl
  · rw [if_pos hb, hb, bne_iff_ne.2 hs]
    rfl
  · rw [if_neg hb, if_pos hs, bne_iff_ne.2 hb, hs]
    rfl
  · rw [if_neg hb, if_neg hs, bne_iff_ne.2 hb, bne_iff_ne.2 hs]
    rfl

/-- Rounding is off by half a unit at most. -/
theorem nearest_spec (m n : Nat) :
    2 * (nearest m n * 2 ^ n) ≤ 2 * m + 2 ^ n ∧ 2 * m ≤ 2 * (nearest m n * 2 ^ n) + 2 ^ n := by
  cases n with
  | zero =>
    have h : nearest m 0 = m := rfl
    rw [h]
    omega
  | succ n =>
    have hm := Nat.div_add_mod m (2 ^ (n + 1))
    have hmod : m % 2 ^ (n + 1) = m % 2 ^ n + 2 ^ n * (m / 2 ^ n % 2) := Nat.mod_pow_succ
    have hlt := Nat.mod_lt m (Nat.two_pow_pos n)
    have hpow : 2 ^ (n + 1) = 2 * 2 ^ n := pow_succ' 2 n
    have hbit := Nat.mod_two_eq_zero_or_one (m / 2 ^ n)
    have hodd := Nat.mod_two_eq_zero_or_one (m / 2 ^ (n + 1))
    rw [nearest_succ]
    rw [hpow] at hm hmod hodd ⊢
    generalize m / (2 * 2 ^ n) = q at *
    generalize m % 2 ^ n = s at *
    generalize m / 2 ^ n % 2 = b at *
    generalize 2 ^ n = p at *
    rw [hmod] at hm
    have hq : 2 * p * q = 2 * (q * p) := by ring
    split
    · next hb =>
      subst hb
      rw [add_zero, show q * (2 * p) = 2 * (q * p) by ring]
      omega
    · next hb =>
      obtain rfl : b = 1 := hbit.resolve_left hb
      split
      · next hs =>
        rcases hodd with h | h <;> rw [h]
        · rw [add_zero, show q * (2 * p) = 2 * (q * p) by ring]
          omega
        · rw [show (q + 1) * (2 * p) = 2 * (q * p) + 2 * p by ring]
          omega
      · rw [show (q + 1) * (2 * p) = 2 * (q * p) + 2 * p by ring]
        omega

/-- The exponent to which a number is rounded. -/
def grade (m : Nat) (e : Int) : Int :=
  Format.binary64.targetExponent (totalExponent m e)

theorem grade_eq (m : Nat) (e : Int) : grade m e = max (m.log2 + 1 + e - 53) (-1074) := rfl

/-- The mantissa to which a number is rounded. -/
def rounded (m : Nat) (e : Int) : Nat :=
  nearest m (grade m e - e).toNat

section
variable {m : Nat} {e : Int}

/-- A number as a multiple of two to the exponent it is rounded to. -/
theorem exists_grade_eq (he : e ≤ grade m e) : ∃ n : Nat, grade m e = e + n :=
  ⟨(grade m e - e).toNat, by omega⟩

/-- A rounded mantissa has 53 bits, or is the first with 54. -/
theorem rounded_le (he : e ≤ grade m e) : rounded m e ≤ 2 ^ 53 := by
  obtain ⟨n, hn⟩ := exists_grade_eq he
  have hlog : m < 2 ^ (m.log2 + 1) := Nat.lt_log2_self
  have hle : m.log2 + 1 ≤ 53 + n := by
    rw [grade_eq] at hn
    omega
  have hm : m < 2 ^ 53 * 2 ^ n := by
    rw [← pow_add]
    exact hlog.trans_le (Nat.pow_le_pow_right (by norm_num) hle)
  have hspec := (nearest_spec m n).1
  have hround : rounded m e = nearest m n := by
    rw [rounded, hn]
    congr
    omega
  rw [hround]
  by_contra h
  have : (2 ^ 53 + 1) * 2 ^ n ≤ nearest m n * 2 ^ n := Nat.mul_le_mul_right _ (by omega)
  omega

/-- A rounded mantissa has 53 bits, unless it is rounded to the smallest exponent. -/
theorem le_rounded (hm : 0 < m) (he : e ≤ grade m e) (ht : grade m e ≠ -1074) :
    2 ^ 52 * 2 ^ (grade m e - e).toNat ≤ m ∧ 2 ^ 52 ≤ rounded m e := by
  obtain ⟨n, hn⟩ := exists_grade_eq he
  have hround : (grade m e - e).toNat = n := by omega
  have hlog : m.log2 = 52 + n := by
    rw [grade_eq] at hn ht
    omega
  have hm : 2 ^ 52 * 2 ^ n ≤ m := by
    rw [← pow_add, ← hlog]
    exact Nat.log2_self_le (by omega)
  have hspec := (nearest_spec m n).2
  rw [rounded, hround]
  refine ⟨hm, ?_⟩
  by_contra h
  have : (nearest m n + 1) * 2 ^ n ≤ 2 ^ 52 * 2 ^ n := Nat.mul_le_mul_right _ (by omega)
  have hpos := Nat.two_pow_pos n
  rw [add_mul] at this
  omega

/-- Shifting to the target exponent, when that is not smaller. -/
theorem shiftToTargetExponent_eq {t : Int} {n : Nat} (h : grade m e = t) (hn : t = e + n) :
    shiftToTargetExponent Format.binary64 m e .exact =
      (ExtendedMantissa.mk m false false >>> n, t) := by
  have hshift : (grade m e - e).toNat = n := by omega
  change (ExtendedMantissa.mk m false false >>> (grade m e - e).toNat,
    e + ((grade m e - e).toNat : Int)) = _
  rw [hshift, hn]

/-- A mantissa that fits is not shifted. -/
theorem shiftToTargetExponent_fit (hm : m < 2 ^ 53) (he : -1074 ≤ e) :
    shiftToTargetExponent Format.binary64 m e .exact = (⟨m, false, false⟩, e) := by
  have hlog : m.log2 < 53 := by
    rcases Nat.eq_zero_or_pos m with rfl | hpos
    · norm_num
    · exact (Nat.log2_lt hpos.ne').2 hm
  have hshift : (grade m e - e).toNat = 0 := by
    rw [grade_eq]
    omega
  change (ExtendedMantissa.mk m false false >>> (grade m e - e).toNat,
    e + ((grade m e - e).toNat : Int)) = _
  rw [hshift]
  exact Prod.ext rfl (add_zero e)

/-- A double as rounding leaves it: a mantissa that needs one bit more is halved. -/
def fitted (s : Sign) (k : Nat) (t : Int) : UnpackedFloat :=
  if h : k = 0 then .zero s
  else if k = 2 ^ 53 then .finite s (2 ^ 52) (t + 1) (by norm_num)
  else .finite s k t (Nat.pos_of_ne_zero h)

/-- The double with the parts that the last shift leaves. -/
def settled (s : Sign) (p : ExtendedMantissa × Int) : UnpackedFloat :=
  if h : p.1.mantissa = 0 then .zero s else .finite s p.1.mantissa p.2 (Nat.pos_of_ne_zero h)

/-- What rounding gives. -/
theorem roundWithAccuracy_eq (s : Sign) (he : e ≤ grade m e) :
    roundWithAccuracy Format.binary64 s m e .exact = fitted s (rounded m e) (grade m e) := by
  obtain ⟨n, hn⟩ := exists_grade_eq he
  have hround : (ExtendedMantissa.mk m false false >>> n).roundedMantissa = rounded m e := by
    rw [rounded, show (grade m e - e).toNat = n by omega]
    rfl
  have hmin : -1074 ≤ grade m e := le_max_right _ _
  have hsettled : roundWithAccuracy Format.binary64 s m e .exact =
      settled s (shiftToTargetExponent Format.binary64 (rounded m e) (grade m e) .exact) := by
    rw [roundWithAccuracy, shiftToTargetExponent_eq rfl hn, ← hround]
    rfl
  rw [hsettled]
  rcases (rounded_le he).lt_or_eq with hlt | heq
  · rw [shiftToTargetExponent_fit hlt hmin, settled, fitted]
    simp only [hlt.ne, if_false]
  · have hgrade : grade (2 ^ 53) (grade m e) = grade m e + (1 : Nat) := by
      rw [grade_eq (2 ^ 53), Nat.log2_two_pow]
      omega
    rw [heq, shiftToTargetExponent_eq hgrade rfl]
    rfl

/-- A sign is a factor. -/
theorem apply_natCast (s : Sign) (n : Nat) : ((s.apply n : Int) : ℚ) = s.apply 1 * n := by
  cases s <;> simp [Sign.apply]

/-- Packing cuts off at the infinities. -/
theorem pack_finite_value (s : Sign) (hm : 0 < m) (hlt : m < 2 ^ 53) (hmin : -1074 ≤ e)
    (hnormal : 2 ^ 52 ≤ m ∨ e = -1074) :
    IsNumber (.ofModel (Float.Model.pack (.finite s m e hm))) ∧
      doubleValue (.ofModel (Float.Model.pack (.finite s m e hm))) =
        s.apply 1 * min ((m : ℚ) * 2 ^ e) limit := by
  by_cases hmax : e ≤ 971
  · have hcan : Canonical m e := ⟨hm, hlt, hmin, hmax, hnormal⟩
    have hun := unpack_pack (u := .finite s m e hm) hcan
    rw [IsNumber, doubleValue]
    simp only [hun, min_eq_left hcan.value_lt_overflow.le, unpackedValue, apply_natCast]
    exact ⟨by simp, mul_assoc _ _ _⟩
  · have hun : (Float.Model.pack (.finite s m e hm)).unpack = .infinity s := by
      have hpack : Float.Model.pack (.finite s m e hm) = Float.Model.pack (.infinity s) := by
        rw [Float.Model.pack, Float.Model.pack]
        congr 2
        rw [pack_finite, if_pos (by omega)]
        rfl
      rw [hpack]
      exact unpack_pack trivial
    have hbig : limit ≤ m * 2 ^ e := by
      rw [limit]
      have hm : (2 : ℚ) ^ (52 : ℤ) ≤ m := by
        exact_mod_cast hnormal.resolve_right (by omega)
      calc (2 : ℚ) ^ (1024 : ℤ) ≤ 2 ^ (52 + e) := zpow_le_zpow_right₀ (by norm_num) (by omega)
        _ = 2 ^ (52 : ℤ) * 2 ^ e := zpow_add₀ (by norm_num) _ _
        _ ≤ m * 2 ^ e := by gcongr
    rw [IsNumber, doubleValue]
    simp only [hun, min_eq_right hbig, unpackedValue]
    exact ⟨by simp, trivial⟩

/-- The value that rounding leaves. -/
theorem pack_fitted_value (s : Sign) {k : Nat} {t : Int} (hk : k ≤ 2 ^ 53) (ht : -1074 ≤ t)
    (hnormal : 2 ^ 52 ≤ k ∨ t = -1074) :
    IsNumber (.ofModel (Float.Model.pack (fitted s k t))) ∧
      doubleValue (.ofModel (Float.Model.pack (fitted s k t))) =
        s.apply 1 * min ((k : ℚ) * 2 ^ t) limit := by
  rw [fitted]
  split
  · next h =>
    have hun := unpack_pack (u := .zero s) trivial
    rw [IsNumber, doubleValue]
    simp only [hun, unpackedValue, h, Nat.cast_zero, zero_mul]
    refine ⟨by simp, ?_⟩
    rw [min_eq_left limit_pos.le, mul_zero]
  · split
    · next h =>
      have hvalue : (k : ℚ) * 2 ^ t = (2 ^ 52 : Nat) * 2 ^ (t + 1) := by
        rw [h, zpow_add₀ (by norm_num)]
        push_cast
        ring
      rw [hvalue]
      exact pack_finite_value s _ (by norm_num) (by omega) (.inl le_rfl)
    · next h => exact pack_finite_value s _ (by omega) ht hnormal

/-- The value of a double that is made by rounding. -/
theorem pack_round_value (s : Sign) (hm : 0 < m) (he : e ≤ grade m e) :
    IsNumber (.ofModel (Float.Model.pack (roundWithAccuracy Format.binary64 s m e .exact))) ∧
      doubleValue (.ofModel (Float.Model.pack (roundWithAccuracy Format.binary64 s m e .exact))) =
        s.apply 1 * min ((rounded m e : ℚ) * 2 ^ grade m e) limit := by
  rw [roundWithAccuracy_eq s he]
  refine pack_fitted_value s (rounded_le he) (le_max_right _ _) ?_
  by_cases ht : grade m e = -1074
  · exact .inr ht
  · exact .inl (le_rounded hm he ht).2

/-- **Rounding does not cross a double.** The magnitude of a double is a mantissa of 53 bits times a
power of two; rounding leaves a value on its side of it. -/
theorem rounded_cross (hm : 0 < m) (he : e ≤ grade m e) {m' : Nat} {e' : Int} (hm' : m' < 2 ^ 53)
    (he' : -1074 ≤ e') :
    ((m' : ℚ) * 2 ^ e' ≤ m * 2 ^ e → (m' : ℚ) * 2 ^ e' ≤ rounded m e * 2 ^ grade m e) ∧
      ((m : ℚ) * 2 ^ e ≤ m' * 2 ^ e' → (rounded m e : ℚ) * 2 ^ grade m e ≤ m' * 2 ^ e') := by
  have hne : (2 : ℚ) ≠ 0 := by norm_num
  have hbig := le_rounded hm he
  obtain ⟨n, hn⟩ := exists_grade_eq he
  have hspec := nearest_spec m n
  have hnat : (grade m e - e).toNat = n := by omega
  simp only [rounded, hnat] at hbig ⊢
  generalize nearest m n = k at *
  generalize grade m e = t at *
  have hpos : (0 : ℚ) < 2 ^ t := by positivity
  have hposn : (0 : ℚ) < 2 ^ n := by positivity
  have hpose : (0 : ℚ) < 2 ^ e := by positivity
  have ht : (2 : ℚ) ^ t = 2 ^ n * 2 ^ e := by rw [hn, zpow_add₀ hne, zpow_natCast, mul_comm]
  have hup : 2 * ((k : ℚ) * 2 ^ t) ≤ 2 * (m * 2 ^ e) + 2 ^ t := by
    have h : 2 * ((k : ℚ) * 2 ^ n) ≤ 2 * m + 2 ^ n := by exact_mod_cast hspec.1
    rw [ht]
    nlinarith
  have hdown : 2 * ((m : ℚ) * 2 ^ e) ≤ 2 * (k * 2 ^ t) + 2 ^ t := by
    have h : 2 * (m : ℚ) ≤ 2 * (k * 2 ^ n) + 2 ^ n := by exact_mod_cast hspec.2
    rw [ht]
    nlinarith
  by_cases hle : t ≤ e'
  · -- The double is a multiple of the unit.
    obtain ⟨d, hd⟩ : ∃ d : Nat, e' = d + t := ⟨(e' - t).toNat, by omega⟩
    have hg : (m' : ℚ) * 2 ^ e' = ((m' * 2 ^ d : Nat) : ℚ) * 2 ^ t := by
      rw [hd, zpow_add₀ hne, zpow_natCast]
      push_cast
      ring
    rw [hg]
    generalize m' * 2 ^ d = j
    constructor
    · intro h
      have hjk : ((2 * j : Nat) : ℚ) ≤ (2 * k + 1 : Nat) := by
        refine le_of_mul_le_mul_right ?_ hpos
        push_cast
        linarith
      have hjk : j ≤ k := by
        have : 2 * j ≤ 2 * k + 1 := by exact_mod_cast hjk
        omega
      gcongr
    · intro h
      have hkj : ((2 * k : Nat) : ℚ) ≤ (2 * j + 1 : Nat) := by
        refine le_of_mul_le_mul_right ?_ hpos
        push_cast
        linarith
      have hkj : k ≤ j := by
        have : 2 * k ≤ 2 * j + 1 := by exact_mod_cast hkj
        omega
      gcongr
  · -- The double is below every normal number with this unit.
    obtain ⟨hm52, hk52⟩ := hbig (by omega)
    have hsmall : (m' : ℚ) * 2 ^ e' < 2 ^ (52 : ℤ) * 2 ^ t := by
      have hm' : (m' : ℚ) < 2 ^ (53 : ℤ) := by exact_mod_cast hm'
      calc (m' : ℚ) * 2 ^ e' < 2 ^ (53 : ℤ) * 2 ^ e' := by gcongr
        _ = 2 ^ (53 + e') := (zpow_add₀ hne _ _).symm
        _ ≤ 2 ^ (52 + t) := zpow_le_zpow_right₀ (by norm_num) (by omega)
        _ = 2 ^ (52 : ℤ) * 2 ^ t := zpow_add₀ hne _ _
    have hk : (2 : ℚ) ^ (52 : ℤ) * 2 ^ t ≤ k * 2 ^ t := by
      have : (2 : ℚ) ^ (52 : ℤ) ≤ k := by exact_mod_cast hk52
      gcongr
    have hxbig : (2 : ℚ) ^ (52 : ℤ) * 2 ^ t ≤ m * 2 ^ e := by
      have : (2 : ℚ) ^ (52 : ℤ) * 2 ^ n ≤ m := by exact_mod_cast hm52
      rw [ht, ← mul_assoc]
      gcongr
    exact ⟨fun _ => hsmall.le.trans hk, fun h => absurd (hxbig.trans h) (not_le.2 hsmall)⟩

end

/-! ## Doubles made by rounding -/

/-- A double that lies with a rational number on one side of every other double. -/
structure Rounds (x : ℚ) (y : Float) : Prop where
  isNumber : IsNumber y
  le : ∀ g, IsNumber g → doubleValue g ≤ x → doubleValue g ≤ doubleValue y
  ge : ∀ g, IsNumber g → x ≤ doubleValue g → doubleValue y ≤ doubleValue g

/-- The magnitude of a double. -/
theorem exists_magnitude {g : Float} (hg : IsNumber g) :
    ∃ (m : Nat) (e : Int), m < 2 ^ 53 ∧ -1074 ≤ e ∧ (m : ℚ) * 2 ^ e ≤ limit ∧
      (doubleValue g = m * 2 ^ e ∨ doubleValue g = -(m * 2 ^ e)) := by
  have hcan := isCanonical_double g
  rw [IsNumber] at hg
  rw [doubleValue]
  cases hu : g.toModel.unpack with
  | notANumber => exact absurd hu hg
  | zero s =>
    exact ⟨0, 0, by norm_num, by norm_num, by simp [limit_pos.le], by simp [unpackedValue]⟩
  | infinity s =>
    have hvalue : ((2 ^ 52 : Nat) : ℚ) * 2 ^ (972 : ℤ) = limit := by
      rw [limit, show (1024 : ℤ) = 52 + 972 from rfl, zpow_add₀ (by norm_num), Nat.cast_pow]
      rfl
    refine ⟨2 ^ 52, 972, by norm_num, by norm_num, hvalue.le, ?_⟩
    rw [hvalue, unpackedValue]
    cases s <;> simp [Sign.apply]
  | finite s m e hm =>
    rw [hu] at hcan
    refine ⟨m, e, hcan.lt, hcan.min, Canonical.value_lt_overflow hcan |>.le, ?_⟩
    rw [unpackedValue]
    cases s <;> simp [Sign.apply]

/-- Changing signs keeps rounding. -/
theorem Rounds.neg {x : ℚ} {y : Float} (h : Rounds x y) : Rounds (-x) (-y) := by
  have isNumber_neg {g : Float} (hg : IsNumber g) : IsNumber (-g) := by
    rw [IsNumber, unpack_neg]
    rw [IsNumber] at hg
    cases hu : g.toModel.unpack <;> simp_all [UnpackedFloat.neg]
  refine ⟨isNumber_neg h.isNumber, fun g hg hle => ?_, fun g hg hge => ?_⟩
  · have := h.ge (-g) (isNumber_neg hg) (by rw [doubleValue_neg]; linarith)
    rw [doubleValue_neg] at this ⊢
    linarith
  · have := h.le (-g) (isNumber_neg hg) (by rw [doubleValue_neg]; linarith)
    rw [doubleValue_neg] at this ⊢
    linarith

/-- Rounding is about values. -/
theorem Rounds.congr {x : ℚ} {y y' : Float} (h : Rounds x y) (hy' : IsNumber y')
    (hv : doubleValue y' = doubleValue y) : Rounds x y' :=
  ⟨hy', fun g hg hle => hv ▸ h.le g hg hle, fun g hg hge => hv ▸ h.ge g hg hge⟩

/-- **Rounding, then packing, rounds.** -/
theorem rounds_pack (s : Sign) {m : Nat} {e : Int} (hm : 0 < m) (he : e ≤ grade m e) :
    Rounds (s.apply 1 * (m * 2 ^ e))
      (.ofModel (Float.Model.pack (roundWithAccuracy Format.binary64 s m e .exact))) := by
  have hpositive : Rounds (m * 2 ^ e)
      (.ofModel (Float.Model.pack (roundWithAccuracy Format.binary64 .positive m e .exact))) := by
    obtain ⟨hnum, hvalue⟩ := pack_round_value .positive hm he
    have hone : ((Sign.positive.apply 1 : Int) : ℚ) = 1 := rfl
    rw [hone, one_mul] at hvalue
    have hx : (0 : ℚ) < m * 2 ^ e := by positivity
    have hr : (0 : ℚ) ≤ rounded m e * 2 ^ grade m e := by positivity
    refine ⟨hnum, fun g hg hle => ?_, fun g hg hge => ?_⟩ <;> rw [hvalue] <;>
      obtain ⟨m', e', hm', he', hmax, hg | hg⟩ := exists_magnitude hg <;>
      have hg' : (0 : ℚ) ≤ m' * 2 ^ e' := by positivity
    · rw [hg] at hle ⊢
      exact le_min ((rounded_cross hm he hm' he').1 hle) hmax
    · rw [hg]
      exact le_min (by linarith) ((neg_nonpos.2 hg').trans (hg'.trans hmax))
    · rw [hg] at hge ⊢
      exact (min_le_left _ _).trans ((rounded_cross hm he hm' he').2 hge)
    · rw [hg] at hge
      linarith
  cases s with
  | positive => simpa [Sign.apply] using hpositive
  | negative =>
    obtain ⟨hnum, hvalue⟩ := pack_round_value .negative hm he
    have h := hpositive.neg.congr hnum (by
      rw [hvalue, doubleValue_neg, (pack_round_value .positive hm he).2]
      simp [Sign.apply])
    simpa [Sign.apply] using h

/-- Moving bits from the exponent to the mantissa does not change the target exponent. -/
theorem grade_shift {m : Nat} (hm : 0 < m) (e : Int) (n : Nat) :
    grade (m <<< n) (e - n) = grade m e := by
  have hlog : (m <<< n).log2 = m.log2 + n := by
    rw [Nat.shiftLeft_eq, Nat.log2_eq_iff (by positivity), pow_add, add_right_comm, pow_add _ _ n]
    exact ⟨Nat.mul_le_mul_right _ (Nat.log2_self_le hm.ne'),
      Nat.mul_lt_mul_of_pos_right Nat.lt_log2_self (Nat.two_pow_pos n)⟩
  rw [grade_eq, grade_eq, hlog]
  push_cast
  congr 1
  ring

/-- Moving bits from the exponent to the mantissa does not change the value. -/
theorem shiftLeft_value (m n : Nat) (e : Int) :
    ((m <<< n : Nat) : ℚ) * 2 ^ (e - n) = m * 2 ^ e := by
  rw [Nat.shiftLeft_eq, zpow_sub₀ (by norm_num), zpow_natCast]
  push_cast
  field_simp

/-- Rounding any mantissa and exponent. -/
theorem rounds_pack_round (s : Sign) {m : Nat} {e : Int} (hm : 0 < m) :
    Rounds (s.apply 1 * (m * 2 ^ e))
      (.ofModel (Float.Model.pack (round Format.binary64 s m e))) := by
  have hround : round Format.binary64 s m e = roundWithAccuracy Format.binary64 s
      (m <<< (e - grade m e).toNat) (e - (e - grade m e).toNat) .exact := rfl
  generalize hn : (e - grade m e).toNat = n at hround
  have he : e - n ≤ grade (m <<< n) (e - n) := by
    rw [grade_shift hm]
    omega
  have hpos : 0 < m <<< n := Nat.shiftLeft_eq m n ▸ Nat.mul_pos hm (Nat.two_pow_pos n)
  rw [hround, ← shiftLeft_value m n e]
  exact rounds_pack s hpos he

/-- A double is a rounding of its value. -/
theorem rounds_self {x : Float} (hx : IsNumber x) : Rounds (doubleValue x) x :=
  ⟨hx, fun _ _ h => h, fun _ _ h => h⟩

/-- A value that is a double is not changed by rounding. -/
theorem Rounds.eq {x y : Float} (h : Rounds (doubleValue x) y) (hx : IsNumber x) :
    doubleValue y = doubleValue x :=
  le_antisymm (h.ge x hx le_rfl) (h.le x hx le_rfl)

/-- A zero rounds zero. -/
theorem rounds_zero (s : Sign) : Rounds 0 (.ofModel (Float.Model.pack (.zero s))) := by
  have hun := unpack_pack (u := .zero s) trivial
  have hvalue : doubleValue (.ofModel (Float.Model.pack (.zero s))) = 0 := by
    simp only [doubleValue, hun, unpackedValue]
  rw [← hvalue]
  refine rounds_self ?_
  rw [IsNumber, hun]
  simp

/-- Rounding a signed mantissa and an exponent. -/
theorem rounds_normalize (k e : Int) (s : Sign) :
    Rounds (k * 2 ^ e) (.ofModel (Float.Model.pack (normalize Format.binary64 k e s))) := by
  rw [UnpackedFloat.normalize]
  rcases lt_trichotomy k 0 with h | h | h
  · rw [compare_lt_iff_lt.2 h]
    have hk : ((-k).toNat : ℚ) = -k := by
      exact_mod_cast Int.toNat_of_nonneg (show 0 ≤ -k by omega)
    have := rounds_pack_round .negative (e := e) (show 0 < (-k).toNat by omega)
    simpa [Sign.apply, hk] using this
  · rw [compare_eq_iff_eq.2 h, h]
    simpa using rounds_zero s
  · rw [compare_gt_iff_gt.2 h]
    have hk : (k.toNat : ℚ) = k := by
      exact_mod_cast Int.toNat_of_nonneg h.le
    have := rounds_pack_round .positive (e := e) (show 0 < k.toNat by omega)
    simpa [Sign.apply, hk] using this

/-- A double that is neither infinite nor undefined. -/
def IsFinite (x : Float) : Prop :=
  match x.toModel.unpack with
  | .finite .. | .zero _ => True
  | _ => False

theorem IsFinite.isNumber {x : Float} (h : IsFinite x) : IsNumber x := by
  intro hx
  rw [IsFinite, hx] at h
  exact h

/-- A canonical form that is packed rounds its value. -/
theorem rounds_pack_canonical {u : UnpackedFloat} (h : IsCanonical u) (hu : u ≠ .notANumber) :
    Rounds (unpackedValue u) (.ofModel (Float.Model.pack u)) := by
  have hun := unpack_pack h
  have hnum : IsNumber (.ofModel (Float.Model.pack u)) := by
    simpa only [IsNumber, hun] using hu
  have hvalue : doubleValue (.ofModel (Float.Model.pack u)) = unpackedValue u := by
    rw [doubleValue, hun]
  exact hvalue ▸ rounds_self hnum

/-- A mantissa with bits moved to it from the exponent. -/
theorem decreaseExponent_value (m : Nat) {e t : Int} (h : t ≤ e) :
    ((decreaseExponent m e t).1 : ℚ) * 2 ^ t = m * 2 ^ e := by
  obtain ⟨n, rfl⟩ : ∃ n : Nat, e = n + t := ⟨(e - t).toNat, by omega⟩
  have hshift : (n + t - t : Int).toNat = n := by omega
  rw [decreaseExponent, hshift, Nat.shiftLeft_eq, zpow_add₀ (by norm_num), zpow_natCast]
  push_cast
  ring

/-- **Addition rounds the sum.** -/
theorem rounds_add {x y : Float} (hx : IsFinite x) (hy : IsFinite y) :
    Rounds (doubleValue x + doubleValue y) (x + y) := by
  have hadd : x + y = .ofModel (Float.Model.pack
    (UnpackedFloat.add Format.binary64 x.toModel.unpack y.toModel.unpack)) := rfl
  have hcx := isCanonical_double x
  have hcy := isCanonical_double y
  rw [IsFinite] at hx hy
  rw [doubleValue, doubleValue, hadd]
  generalize x.toModel.unpack = u at *
  generalize y.toModel.unpack = v at *
  cases u with
  | notANumber | infinity => exact hx.elim
  | zero s =>
    cases v with
    | notANumber | infinity => exact hy.elim
    | zero s' =>
      have hzero : UnpackedFloat.add Format.binary64 (.zero s) (.zero s') =
          .zero (if s == s' then s else .positive) := by
        cases s <;> cases s' <;> rfl
      rw [hzero]
      simpa [unpackedValue] using rounds_zero _
    | finite s' m' e' hm' =>
      simpa [unpackedValue, UnpackedFloat.add] using rounds_pack_canonical hcy (by simp)
  | finite s m e hm =>
    cases v with
    | notANumber | infinity => exact hy.elim
    | zero s' =>
      simpa [unpackedValue, UnpackedFloat.add] using rounds_pack_canonical hcx (by simp)
    | finite s' m' e' hm' =>
      have hround := rounds_normalize (s.apply (decreaseExponent m e (min e e')).1 +
        s'.apply (decreaseExponent m' e' (min e e')).1) (min e e') .positive
      have hvalue : unpackedValue (.finite s m e hm) + unpackedValue (.finite s' m' e' hm') =
          ((s.apply (decreaseExponent m e (min e e')).1 +
            s'.apply (decreaseExponent m' e' (min e e')).1 : Int) : ℚ) * 2 ^ min e e' := by
        simp only [unpackedValue, apply_natCast]
        push_cast
        simp only [apply_natCast]
        rw [add_mul, mul_assoc, mul_assoc, mul_assoc, mul_assoc,
          decreaseExponent_value m (min_le_left e e'), decreaseExponent_value m' (min_le_right e e')]
      rw [hvalue]
      exact hround

end RecurrenceCompiler.Decimal
