import RecurrenceCompiler.Decimal.Amount
import RecurrenceCompiler.Proofs.Decimal.Integers

/-!
# Arithmetic on integral doubles

Products are rounded like sums (`rounds_mul`), and so is a quotient that is an integer (`rounds_div`). So
as long as integers stay below two to the power 53, arithmetic on the doubles that they are is exact
(`IsInt.add` and its companions).
-/

namespace RecurrenceCompiler.Decimal

open Float.Model
open Float.Model.UnpackedFloat hiding unpack pack add sub mul div compare le lt beq neg

/-! ## Rounding -/

/-- A difference is the sum with the other sign. -/
theorem sub_eq_add_neg (x y : Float) : x - y = x + -y := by
  have hsub : x - y = .ofModel (Float.Model.pack
    (UnpackedFloat.sub Format.binary64 x.toModel.unpack y.toModel.unpack)) := rfl
  have hadd : x + -y = .ofModel (Float.Model.pack
    (UnpackedFloat.add Format.binary64 x.toModel.unpack (-y).toModel.unpack)) := rfl
  rw [hsub, hadd, unpack_neg]
  congr 2
  cases x.toModel.unpack <;> cases y.toModel.unpack <;>
    simp [UnpackedFloat.sub, UnpackedFloat.add, UnpackedFloat.neg, apply_neg, Int.sub_eq_add_neg]

/-- The mantissa of a product has all the bits that rounding keeps, unless the exponent is too small. -/
theorem add_le_grade {m m' : Nat} {e e' : Int} (h : Canonical m e) (h' : Canonical m' e') :
    e + e' ≤ grade (m * m') (e + e') := by
  have hlog (hbig : 2 ^ 52 ≤ m * m') : 52 ≤ (m * m').log2 :=
    (Nat.le_log2 (Nat.mul_pos h.pos h'.pos).ne').2 hbig
  have hmin := h.min
  have hmin' := h'.min
  rw [grade_eq]
  rcases h.normal with hm | he
  · have := hlog (hm.trans (Nat.le_mul_of_pos_right m h'.pos))
    omega
  · rcases h'.normal with hm' | he'
    · have := hlog (hm'.trans (Nat.le_mul_of_pos_left m' h.pos))
      omega
    · omega

/-- **Multiplication rounds the product.** -/
theorem rounds_mul {x y : Float} (hx : IsFinite x) (hy : IsFinite y) :
    Rounds (doubleValue x * doubleValue y) (x * y) := by
  have hmul : x * y = .ofModel (Float.Model.pack
    (UnpackedFloat.mul Format.binary64 x.toModel.unpack y.toModel.unpack)) := rfl
  have hcx := isCanonical_double x
  have hcy := isCanonical_double y
  rw [IsFinite] at hx hy
  rw [doubleValue, doubleValue, hmul]
  generalize x.toModel.unpack = u at *
  generalize y.toModel.unpack = v at *
  cases u with
  | notANumber | infinity => exact hx.elim
  | zero s =>
    cases v with
    | notANumber | infinity => exact hy.elim
    | zero s' | finite s' m' e' hm' =>
      simpa [unpackedValue, UnpackedFloat.mul] using rounds_zero (s * s')
  | finite s m e hm =>
    cases v with
    | notANumber | infinity => exact hy.elim
    | zero s' =>
      simpa [unpackedValue, UnpackedFloat.mul] using rounds_zero (s * s')
    | finite s' m' e' hm' =>
      have hround := rounds_pack (s * s') (Nat.mul_pos hm hm') (add_le_grade hcx hcy)
      have hsign : (((s * s').apply 1 : Int) : ℚ) = s.apply 1 * s'.apply 1 := by
        cases s <;> cases s' <;> simp [Sign.apply]
      have hvalue : unpackedValue (.finite s m e hm) * unpackedValue (.finite s' m' e' hm') =
          (s * s').apply 1 * (((m * m' : Nat) : ℚ) * 2 ^ (e + e')) := by
        simp only [unpackedValue, apply_natCast, hsign, zpow_add₀ (show (2 : ℚ) ≠ 0 by norm_num)]
        push_cast
        ring
      rw [hvalue]
      exact hround

/-- The position of the first bit of a quotient that is an integer. -/
theorem log2_quotient_le {m m' n : Nat} {e e' : Int} (hm : 0 < m) (hm' : 0 < m')
    (hn : (m : ℚ) * 2 ^ e = n * (m' * 2 ^ e')) :
    (m.log2 : Int) + e ≤ n.log2 + 1 + (m'.log2 + e') := by
  have hpow : (2 : ℚ) ≠ 0 := by norm_num
  have hlow : (2 : ℚ) ^ ((m.log2 : Int) + e) ≤ m * 2 ^ e := by
    rw [zpow_add₀ hpow, zpow_natCast]
    have : (2 : ℚ) ^ m.log2 ≤ m := by exact_mod_cast Nat.log2_self_le hm.ne'
    gcongr
  have hhigh : (n : ℚ) * (m' * 2 ^ e') < 2 ^ ((n.log2 : Int) + 1 + (m'.log2 + 1 + e')) := by
    have h1 : (n : ℚ) < 2 ^ ((n.log2 : Int) + 1) := by exact_mod_cast Nat.lt_log2_self
    have h2 : (m' : ℚ) < 2 ^ ((m'.log2 : Int) + 1) := by exact_mod_cast Nat.lt_log2_self
    rw [zpow_add₀ hpow ((n.log2 : Int) + 1), zpow_add₀ hpow ((m'.log2 : Int) + 1)]
    have hpos : (0 : ℚ) < m' := by exact_mod_cast hm'
    gcongr
  have hlt := (zpow_lt_zpow_iff_right₀ (show (1 : ℚ) < 2 by norm_num)).1
    (hlow.trans_lt (hn ▸ hhigh))
  omega

/-- The magnitude and the sign of a quotient that is an integer. -/
theorem quotient_parts {s s' : Sign} {k : Int} {a b : ℚ} (ha : 0 < a) (hb : 0 < b)
    (h : s.apply 1 * a = k * (s'.apply 1 * b)) :
    a = k.natAbs * b ∧ (k : ℚ) = (s / s').apply 1 * (k.natAbs : ℚ) := by
  have habs : (k.natAbs : ℚ) = |(k : ℚ)| := by rw [Nat.cast_natAbs, Int.cast_abs]
  have hpos (hab : a = k * b) : 0 < (k : ℚ) := pos_of_mul_pos_left (hab ▸ ha) hb.le
  have hneg (hab : a = -k * b) : (k : ℚ) < 0 :=
    neg_pos.1 (pos_of_mul_pos_left (hab ▸ ha) hb.le)
  have hsign (s : Sign) : s.apply 1 = 1 ∨ s.apply 1 = -1 := by cases s <;> simp [Sign.apply]
  have hquotient : (s / s').apply 1 = s.apply 1 * s'.apply 1 := by cases s <;> cases s' <;> rfl
  rw [habs, hquotient]
  push_cast
  rcases hsign s with hs | hs <;> rcases hsign s' with hs' | hs' <;> rw [hs, hs'] at h ⊢ <;>
    push_cast at h ⊢
  case inl.inl | inr.inr =>
    have hab : a = k * b := by linarith
    rw [abs_of_pos (hpos hab)]
    exact ⟨hab, by ring⟩
  case inl.inr | inr.inl =>
    have hab : a = -k * b := by linarith
    rw [abs_of_neg (hneg hab)]
    exact ⟨hab, by ring⟩

/-- The quotient of two mantissas, scaled, is an integer without a remainder. -/
theorem divCore_exact {m m' n : Nat} {e e' : Int} (hm : 0 < m) (hm' : 0 < m') (hn : 0 < n)
    (hlt : n < 2 ^ 53) (h : (m : ℚ) * 2 ^ e = n * (m' * 2 ^ e')) :
    ∃ j : Nat, divCore Format.binary64 m e m' e' = (n <<< j, 0 - (j : Int), .exact) ∧
      0 - (j : Int) ≤ grade n 0 := by
  have hlog := log2_quotient_le hm hm' h
  have hnlog : n.log2 < 53 := (Nat.log2_lt hn.ne').2 hlt
  have hcore : divCore Format.binary64 m e m' e' =
      (m <<< (e - e' - min (e - e') (max (m.log2 + 1 + e - (m'.log2 + 1 + e') - 53) (-1074))).toNat / m',
        min (e - e') (max (m.log2 + 1 + e - (m'.log2 + 1 + e') - 53) (-1074)),
        accuracyOfFraction (m <<< (e - e' -
          min (e - e') (max (m.log2 + 1 + e - (m'.log2 + 1 + e') - 53) (-1074))).toNat % m') m') := rfl
  -- The exponent of the quotient is not positive, so the quotient is an integer as it is.
  obtain ⟨j, hj⟩ : ∃ j : Nat,
      min (e - e') (max ((m.log2 : Int) + 1 + e - (m'.log2 + 1 + e') - 53) (-1074)) = 0 - (j : Int) :=
    ⟨(-min (e - e') (max ((m.log2 : Int) + 1 + e - (m'.log2 + 1 + e') - 53) (-1074))).toNat, by omega⟩
  rw [hj] at hcore
  obtain ⟨i, hi⟩ : ∃ i : Nat, e - e' - (0 - (j : Int)) = i := ⟨(e - e' + j).toNat, by omega⟩
  rw [hi, Int.toNat_natCast] at hcore
  have hmul : m <<< i = (n <<< j) * m' := by
    have hq : ((m <<< i : Nat) : ℚ) = ((n <<< j) * m' : Nat) := by
      have hpow : (2 : ℚ) ≠ 0 := by norm_num
      have hscale : (2 : ℚ) ^ i = 2 ^ e * 2 ^ (j - e' : Int) := by
        rw [← zpow_add₀ hpow, ← zpow_natCast]
        congr 1
        omega
      have hunscale : (2 : ℚ) ^ e' * 2 ^ (j - e' : Int) = 2 ^ j := by
        rw [← zpow_add₀ hpow, ← zpow_natCast]
        congr 1
        omega
      rw [Nat.shiftLeft_eq, Nat.shiftLeft_eq]
      push_cast
      rw [hscale, ← mul_assoc, h, ← hunscale]
      ring
    exact_mod_cast hq
  refine ⟨j, ?_, ?_⟩
  · rw [hcore, hmul, Nat.mul_div_cancel _ hm', Nat.mul_mod_left]
    rfl
  · rw [grade_eq]
    omega

/-- **Division gives an integral quotient.** -/
theorem rounds_div {x y : Float} (hx : IsFinite x) (hy : IsFinite y) (hy0 : doubleValue y ≠ 0) {k : Int}
    (hk : doubleValue x = k * doubleValue y) (hlt : k.natAbs < 2 ^ 53) : Rounds k (x / y) := by
  have hdiv : x / y = .ofModel (Float.Model.pack
    (UnpackedFloat.div Format.binary64 x.toModel.unpack y.toModel.unpack)) := rfl
  rw [IsFinite] at hx hy
  rw [doubleValue] at hk hy0
  rw [doubleValue] at hk
  rw [hdiv]
  generalize x.toModel.unpack = u at *
  generalize y.toModel.unpack = v at *
  cases u with
  | notANumber | infinity => exact hx.elim
  | zero s =>
    cases v with
    | notANumber | infinity => exact hy.elim
    | zero s' => exact absurd rfl hy0
    | finite s' m' e' hm' =>
      have hk0 : k = 0 := by
        have hzero : (k : ℚ) * unpackedValue (.finite s' m' e' hm') = 0 := hk.symm
        exact_mod_cast (mul_eq_zero.1 hzero).resolve_right hy0
      rw [hk0, Int.cast_zero]
      exact rounds_zero (s / s')
  | finite s m e hm =>
    cases v with
    | notANumber | infinity => exact hy.elim
    | zero s' => exact absurd rfl hy0
    | finite s' m' e' hm' =>
      simp only [unpackedValue, apply_natCast, mul_assoc] at hk
      obtain ⟨hvalue, hsign⟩ := quotient_parts (by positivity) (by positivity) hk
      have hpos : 0 < k.natAbs := by
        rcases Nat.eq_zero_or_pos k.natAbs with h0 | h0
        · rw [h0] at hvalue
          have : (0 : ℚ) < m * 2 ^ e := by positivity
          simp [hvalue] at this
        · exact h0
      obtain ⟨j, hcore, hgrade⟩ := divCore_exact hm hm' hpos hlt hvalue
      have hround := rounds_pack (s / s') (m := k.natAbs <<< j) (e := 0 - (j : Int))
        (Nat.shiftLeft_eq _ _ ▸ Nat.mul_pos hpos (Nat.two_pow_pos j)) (by rwa [grade_shift hpos])
      rw [shiftLeft_value, zpow_zero, mul_one, ← hsign] at hround
      rw [UnpackedFloat.div, hcore]
      exact hround

/-! ## Integers -/

/-- A double with the value of a finite one is finite. -/
theorem IsFinite.of_doubleValue_eq {x y : Float} (hx : IsFinite x) (hy : IsNumber y)
    (h : doubleValue y = doubleValue x) : IsFinite y := by
  have hlt : |doubleValue x| < limit := by
    have hcanonical := isCanonical_double x
    rw [IsFinite] at hx
    rw [doubleValue]
    cases hu : x.toModel.unpack with
    | notANumber | infinity =>
      rw [hu] at hx
      exact hx.elim
    | zero => simpa [unpackedValue] using limit_pos
    | finite s m e =>
      rw [hu] at hcanonical
      have hbound := hcanonical.value_lt_overflow
      have hpos := hcanonical.value_pos
      cases s with
      | positive => simpa [unpackedValue, Sign.apply, abs_of_pos hpos] using hbound
      | negative => simpa [unpackedValue, Sign.apply, abs_of_pos hpos] using hbound
  rw [← h, doubleValue] at hlt
  rw [IsNumber] at hy
  rw [IsFinite]
  cases hu : y.toModel.unpack with
  | notANumber => exact hy hu
  | infinity s =>
    rw [hu] at hlt
    cases s <;> simp [unpackedValue, Sign.apply, abs_of_pos limit_pos] at hlt
  | zero | finite => trivial

/-- A whole double is the double nearest to its integer. -/
theorem isFinite_ofInt_toInt {x : Float} (h : Decimal.isWhole x = true) :
    IsFinite (ofInt (toInt x)) := by
  obtain ⟨hfinite, hint⟩ := isIntegral_of_isWhole h
  have hround := rounds_ofInt (toInt x)
  rw [← hint.doubleValue_eq] at hround
  exact hfinite.of_doubleValue_eq hround.isNumber (hround.eq hfinite.isNumber)

/-- A double that is an integer. Both zeros are. -/
structure IsInt (x : Float) (i : Int) : Prop where
  finite : IsFinite x
  value : doubleValue x = i

section
variable {x y : Float} {i j : Int}

theorem abs_lt_overflow (hi : i.natAbs ≤ 2 ^ 53) : |i| < overflow := by
  have hover : (2 : Int) ^ 53 < overflow := by decide +kernel
  rw [Int.abs_eq_natAbs]
  omega

/-- What an integer up to two to the power 53 is rounded to is that integer. -/
theorem Rounds.isInt (h : Rounds i x) (hi : i.natAbs ≤ 2 ^ 53) : IsInt x i := by
  have hvalue := h.toInt_eq hi
  have hwhole := h.isIntegral.isWhole (hvalue ▸ abs_lt_overflow hi)
  exact ⟨(isIntegral_of_isWhole hwhole).1, by rw [h.isIntegral.doubleValue_eq, hvalue]⟩

theorem isInt_ofInt (hi : i.natAbs ≤ 2 ^ 53) : IsInt (ofInt i) i :=
  (rounds_ofInt i).isInt hi

theorem IsInt.isIntegral (hx : IsInt x i) : IsIntegral x :=
  ⟨hx.finite.isNumber, i, hx.value⟩

theorem IsInt.toInt_eq (hx : IsInt x i) : toInt x = i := by
  have hvalue := hx.isIntegral.doubleValue_eq
  rw [hx.value] at hvalue
  exact_mod_cast hvalue.symm

theorem IsInt.isWhole (hx : IsInt x i) (hi : i.natAbs ≤ 2 ^ 53) : isWhole x = true :=
  hx.isIntegral.isWhole (hx.toInt_eq ▸ abs_lt_overflow hi)

theorem IsInt.neg (hx : IsInt x i) (hi : i.natAbs ≤ 2 ^ 53) : IsInt (-x) (-i) := by
  have hround := (rounds_self hx.finite.isNumber).neg
  rw [hx.value, ← Int.cast_neg] at hround
  exact hround.isInt (by omega)

theorem IsInt.add (hx : IsInt x i) (hy : IsInt y j) (h : (i + j).natAbs ≤ 2 ^ 53) :
    IsInt (x + y) (i + j) := by
  have hround := rounds_add hx.finite hy.finite
  rw [hx.value, hy.value, ← Int.cast_add] at hround
  exact hround.isInt h

theorem IsInt.sub (hx : IsInt x i) (hy : IsInt y j) (hj : j.natAbs ≤ 2 ^ 53)
    (h : (i - j).natAbs ≤ 2 ^ 53) : IsInt (x - y) (i - j) := by
  rw [sub_eq_add_neg, Int.sub_eq_add_neg]
  exact hx.add (hy.neg hj) (by omega)

theorem IsInt.mul (hx : IsInt x i) (hy : IsInt y j) (h : (i * j).natAbs ≤ 2 ^ 53) :
    IsInt (x * y) (i * j) := by
  have hround := rounds_mul hx.finite hy.finite
  rw [hx.value, hy.value, ← Int.cast_mul] at hround
  exact hround.isInt h

/-- A quotient without a remainder. -/
theorem IsInt.div (hx : IsInt x (i * j)) (hy : IsInt y j) (hj : j ≠ 0) (h : i.natAbs < 2 ^ 53) :
    IsInt (x / y) i := by
  have hround := rounds_div hx.finite hy.finite (by rw [hy.value]; exact_mod_cast hj)
    (by rw [hx.value, hy.value, Int.cast_mul]) h
  exact hround.isInt h.le

end

/-!
## Amounts that are integers

As long as every intermediate result can be counted by doubles, amounts add up to the sum of the
integers they are. Quotients are rounded up: the least integer that is enough (`ceilDiv_le_iff`).
-/

namespace Amount

variable {i j k : Int}

theorem ofInt_eq_whole (h : i.natAbs ≤ exactLimit) : ofInt i = .whole i := by
  have hlt : |i| < overflow := abs_lt_overflow (h.trans (by decide))
  have habs := Int.natCast_natAbs i
  have hpos := overflow_pos
  rw [ofInt, if_pos (by omega)]

theorem add_whole (hi : i.natAbs ≤ exactLimit) (hj : j.natAbs ≤ exactLimit)
    (h : (i + j).natAbs ≤ exactLimit) : (whole i).add (whole j) = .whole (i + j) := by
  simp [add, isExact, hi, hj, h]

theorem natAbs_sum_le (is : List Int) : is.sum.natAbs ≤ (is.map Int.natAbs).sum := by
  induction is with
  | nil => simp
  | cons i is ih =>
    rw [List.map_cons, List.sum_cons, List.sum_cons]
    exact (Int.natAbs_add_le i is.sum).trans (by omega)

/-- Integers whose magnitudes can be counted together add up exactly. -/
theorem sum_map_ofInt {is : List Int} (h : (is.map Int.natAbs).sum ≤ exactLimit) :
    sum (is.map ofInt) = .whole is.sum := by
  -- What is added so far can be counted together with the rest.
  have hfrom (k : Int) (h : k.natAbs + (is.map Int.natAbs).sum ≤ exactLimit) :
      (is.map ofInt).foldl add (.whole k) = .whole (k + is.sum) := by
    induction is generalizing k with
    | nil => simp
    | cons i is ih =>
      rw [List.map_cons, List.sum_cons] at h
      have hk : k.natAbs ≤ exactLimit := by omega
      have hi : i.natAbs ≤ exactLimit := by omega
      have hadd : (k + i).natAbs ≤ k.natAbs + i.natAbs := Int.natAbs_add_le k i
      rw [List.map_cons, List.foldl_cons, ofInt_eq_whole hi, add_whole hk hi (by omega),
        ih (by omega) (k + i) (by omega), List.sum_cons, add_assoc]
  have hzero := hfrom 0 (by simpa using h)
  rwa [zero_add] at hzero

/-- Natural numbers add up exactly if their sum can be counted. -/
theorem sum_map_ofInt_of_nonneg {is : List Int} (hpos : ∀ i ∈ is, 0 ≤ i) (h : is.sum ≤ exactLimit) :
    sum (is.map ofInt) = .whole is.sum := by
  have hsum : ((is.map Int.natAbs).sum : Int) = is.sum := by
    clear h
    induction is with
    | nil => rfl
    | cons i is ih =>
      rw [List.forall_mem_cons] at hpos
      rw [List.map_cons, List.sum_cons, List.sum_cons, Nat.cast_add, ih hpos.2,
        Int.natAbs_of_nonneg hpos.1]
  exact sum_map_ofInt (by omega)

theorem max_whole : (whole i).max (whole j) = .whole (Max.max i j) := by
  rw [Amount.max, max_def]
  split <;> split <;> first | rfl | (congr 1; omega)

/-- **A quotient rounded up is the least integer that is enough.** -/
theorem ceilDiv_le_iff (hj : 0 < j) : ceilDiv i j ≤ k ↔ i ≤ k * j := by
  rw [ceilDiv, Int.fdiv_eq_ediv_of_nonneg _ hj.le, neg_le, Int.le_ediv_iff_mul_le hj, neg_mul,
    neg_le_neg_iff]

end Amount

end RecurrenceCompiler.Decimal
