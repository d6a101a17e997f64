import RecurrenceCompiler.Decimal.Shortest
import RecurrenceCompiler.Proofs.Decimal.Double

/-!
# The numbers nearest to a double

A double is read from its bits (`agrees`), and a finite positive one is a binary number. The numbers
that are nearest to it form an interval (`Binary.Near`), and the intervals of two doubles do not meet
(`Binary.Near.unique`).
-/

namespace RecurrenceCompiler.Decimal

open Float.Model
open Float.Model.UnpackedFloat hiding unpack pack add sub mul div compare le lt beq

/-! ## Reading the bits -/

/-- The sign of an unpacked double as a flag. -/
def isNegative : Sign → Bool
  | .negative => true
  | .positive => false

/-- A reading of a double says what its unpacked form says. -/
def Agrees : UnpackedFloat → Reading → Prop
  | .notANumber, .nan => True
  | .infinity s, .infinite n => n = isNegative s
  | .zero s, .zero n => n = isNegative s
  | .finite s m e _, .finite n b => n = isNegative s ∧ b.mantissa = m ∧ b.exponent = e
  | _, _ => False

/-- The sign bit. -/
theorem isNegative_unpackSign (b : BitVec 64) :
    isNegative (Sign.ofBitVec (@unpackSign Format.binary64 b)) = (b.toNat / 2 ^ 63 % 2 == 1) := by
  have hs : (@unpackSign Format.binary64 b).toNat = b.toNat / 2 ^ 63 % 2 := by
    simp [unpackSign, Nat.shiftRight_eq_div_pow]
  have key : ∀ c : BitVec 1, isNegative (Sign.ofBitVec c) = (c.toNat == 1) := by decide
  rw [key, hs]

/-- **Reading the bits of a double gives its unpacked form.** -/
theorem agrees (x : Float) : Agrees x.toModel.unpack (Reading.ofFloat x) := by
  obtain ⟨⟨bits, hvalid⟩⟩ := x
  change Agrees (UnpackedFloat.unpack Format.binary64 bits.toBitVec) (.ofBits bits.toBitVec.toNat)
  generalize bits.toBitVec = b
  have hsign := isNegative_unpackSign b
  unfold UnpackedFloat.unpack
  extract_lets mantissa exponentVec exponent signVec sign
  have hm : mantissa.toNat = b.toNat % 2 ^ 52 := by
    simp [mantissa, unpackMantissa]
  have he : exponentVec.toNat = b.toNat / 2 ^ 52 % 2048 := by
    simp [exponentVec, unpackExponent, Nat.shiftRight_eq_div_pow]
  have hm0 : mantissa = 0#_ ↔ b.toNat % 2 ^ 52 = 0 := by
    rw [← hm]
    exact (BitVec.toNat_inj (y := 0#_)).symm
  have he1 : exponentVec = -1#_ ↔ b.toNat / 2 ^ 52 % 2048 = 2047 := by
    rw [← he]
    exact (BitVec.toNat_inj (y := -1#_)).symm
  have he0 : exponentVec = 0#_ ↔ b.toNat / 2 ^ 52 % 2048 = 0 := by
    rw [← he]
    exact (BitVec.toNat_inj (y := 0#_)).symm
  have hval := toNat_implicit mantissa
  have hexp : exponent = exponentVec.toNat - 1075 := rfl
  rw [Reading.ofBits]
  simp only [Nat.pow_eq, beq_iff_eq, he1, he0, hm0]
  split
  · split
    · exact hsign.symm
    · trivial
  · split
    · split
      · exact hsign.symm
      · refine ⟨hsign.symm, hm.symm, ?_⟩
        change -1074 = exponent + 1
        omega
    · refine ⟨hsign.symm, ?_, ?_⟩
      · rw [hval, hm]
      · rw [hexp, he]

/-- A double is given by its reading. -/
theorem Reading.ofFloat_inj {x y : Float} (h : ofFloat x = ofFloat y) : x = y := by
  have hx := agrees x
  have hy := agrees y
  have hsign {s s' : UnpackedFloat.Sign} (h : isNegative s = isNegative s') : s = s' := by
    cases s <;> cases s' <;> first | rfl | cases h
  refine double_ext ?_
  rw [← h] at hy
  generalize x.toModel.unpack = u at *
  generalize y.toModel.unpack = v at *
  cases hr : ofFloat x <;> rw [hr] at hx hy <;> cases u <;> (try exact hx.elim) <;> cases v <;>
    try exact hy.elim
  · rfl
  · rw [hsign (hx.symm.trans hy)]
  · rw [hsign (hx.symm.trans hy)]
  · obtain ⟨hn, rfl, rfl⟩ := hx
    obtain ⟨hn', rfl, rfl⟩ := hy
    rw [hsign (hn.symm.trans hn')]

/-! ## Values -/

/-- The number that a decimal is. -/
def Digits.value (d : Digits) : ℚ :=
  d.digits * 10 ^ d.exponent

/-- The number that a binary number is. -/
def Binary.value (b : Binary) : ℚ :=
  b.mantissa * 2 ^ b.exponent

/-- The lower end of the interval around a binary number, in quarters of the gap above it. -/
def Binary.low (b : Binary) : Nat :=
  4 * b.mantissa - if b.lowered then 1 else 2

/-- The upper end. -/
def Binary.high (b : Binary) : Nat :=
  4 * b.mantissa + 2

/-- A number lies between two others, the ends counting or not. -/
def Between (closed : Bool) (low high v : ℚ) : Prop :=
  if closed then low ≤ v ∧ v ≤ high else low < v ∧ v < high

theorem Between.of_lt {low high v : ℚ} (closed : Bool) (hlow : low < v) (hhigh : v < high) :
    Between closed low high v := by
  rw [Between]
  split
  · exact ⟨hlow.le, hhigh.le⟩
  · exact ⟨hlow, hhigh⟩

/-- Scaling the ends and the number changes nothing. -/
theorem between_mul_iff {low high v c : ℚ} {closed : Bool} (hc : 0 < c) :
    Between closed (low * c) (high * c) (v * c) ↔ Between closed low high v := by
  simp only [Between, mul_le_mul_iff_left₀ hc, mul_lt_mul_iff_left₀ hc]

/-- A number is nearest to a binary number; the ends of the interval are if the mantissa is even. -/
def Binary.Near (b : Binary) (v : ℚ) : Prop :=
  Between (b.mantissa % 2 == 0) (b.low * 2 ^ (b.exponent - 2)) (b.high * 2 ^ (b.exponent - 2)) v

/-- The parts of a double. The gap below it is half the gap above at the powers of two, the smallest
normal one apart. -/
structure Binary.WellFormed (b : Binary) : Prop where
  canonical : Canonical b.mantissa b.exponent
  lowered : b.lowered = true ↔ b.mantissa = 2 ^ 52 ∧ b.exponent ≠ -1074

/-- What is read from the bits of a finite double. -/
theorem wellFormed_of_reading {x : Float} {n : Bool} {b : Binary}
    (h : Reading.ofFloat x = .finite n b) : b.WellFormed where
  canonical := by
    have hagrees := agrees x
    have hcanonical := isCanonical_double x
    rw [h] at hagrees
    cases hu : x.toModel.unpack with
    | finite s m e hm =>
      rw [hu] at hagrees hcanonical
      obtain ⟨-, rfl, rfl⟩ := hagrees
      exact hcanonical
    | notANumber | infinity | zero =>
      rw [hu] at hagrees
      exact hagrees.elim
  lowered := by
    rw [Reading.ofFloat, Reading.ofBits] at h
    simp only [Nat.pow_eq] at h
    generalize x.toBits.toNat = bits at h
    split at h
    · split at h <;> cases h
    · split at h
      · split at h
        · cases h
        · cases h
          have := Nat.mod_lt bits (show 0 < 2 ^ 52 by norm_num)
          simp only [Bool.false_eq_true, false_iff, not_and]
          omega
      · next hzero =>
        cases h
        have hzero : bits / 2 ^ 52 % 2048 ≠ 0 := by simpa using hzero
        simp only [Bool.and_eq_true, beq_iff_eq, bne_iff_ne, ne_eq]
        omega

/-! ## Intervals do not meet -/

/-- The interval of a smaller double ends where that of a greater one starts, or before; where they
touch, one of the two has an odd mantissa. -/
theorem Binary.high_le_low {b c : Binary} (hb : b.WellFormed) (hc : c.WellFormed)
    (hlt : b.value < c.value) : (b.high : ℚ) * 2 ^ (b.exponent - 2) ≤ c.low * 2 ^ (c.exponent - 2) ∧
      (b.mantissa % 2 = 0 → c.mantissa % 2 = 0 →
        (b.high : ℚ) * 2 ^ (b.exponent - 2) < c.low * 2 ^ (c.exponent - 2)) := by
  have hcompare : (compare b.exponent c.exponent).then (compare b.mantissa c.mantissa) = .lt :=
    (Canonical.compare_eq hb.canonical hc.canonical).trans (compare_lt_iff_lt.2 hlt)
  have horder : b.exponent ≤ c.exponent ∧ (b.exponent = c.exponent → b.mantissa < c.mantissa) := by
    rcases Ordering.then_eq_lt.1 hcompare with h | ⟨h, h'⟩
    · have h := compare_lt_iff_lt.1 h
      omega
    · rw [compare_eq_iff_eq] at h
      exact ⟨h.le, fun _ => compare_lt_iff_lt.1 h'⟩
  obtain ⟨k, hk⟩ := Int.eq_ofNat_of_zero_le (sub_nonneg.2 horder.1)
  -- In the unit of the smaller double all is about natural numbers.
  have hunit : (0 : ℚ) < 2 ^ (b.exponent - 2) := by positivity
  have hscale : (c.low : ℚ) * 2 ^ (c.exponent - 2) =
      ((c.low * 2 ^ k : Nat) : ℚ) * 2 ^ (b.exponent - 2) := by
    rw [show c.exponent - 2 = k + (b.exponent - 2) by omega, zpow_add₀ (by norm_num), zpow_natCast]
    push_cast
    ring
  have hnat : b.high ≤ c.low * 2 ^ k ∧
      (b.mantissa % 2 = 0 → c.mantissa % 2 = 0 → b.high < c.low * 2 ^ k) := by
    obtain ⟨⟨hbpos, hblt, hbmin, -, hbnormal⟩, -⟩ := hb
    obtain ⟨⟨hcpos, hclt, -, -, hcnormal⟩, hlowered⟩ := hc
    have hlow : c.low = 4 * c.mantissa - 2 ∨
        c.low = 4 * c.mantissa - 1 ∧ c.mantissa = 2 ^ 52 ∧ c.exponent ≠ -1074 := by
      rw [low]
      split
      · next h => exact .inr ⟨rfl, hlowered.1 h⟩
      · exact .inl rfl
    rw [high]
    rcases k with _ | _ | k
    · have hlt := horder.2 (by omega)
      omega
    · have hnot : ¬ (c.mantissa = 2 ^ 52 ∧ c.low = 4 * c.mantissa - 2) := by
        rintro ⟨hm, hl⟩
        have : c.lowered = true := hlowered.2 ⟨hm, by omega⟩
        rw [low, this, if_pos rfl] at hl
        omega
      omega
    · have hpow : c.low * 4 ≤ c.low * 2 ^ (k + 1 + 1) := by
        have := Nat.one_le_two_pow (n := k)
        exact Nat.mul_le_mul_left _ (by omega)
      omega
  rw [hscale, mul_le_mul_iff_left₀ hunit, mul_lt_mul_iff_left₀ hunit]
  exact_mod_cast hnat

/-- **A number is nearest to one double only.** -/
theorem Binary.Near.unique {b c : Binary} (hb : b.WellFormed) (hc : c.WellFormed) {v : ℚ}
    (h : b.Near v) (h' : c.Near v) : b = c := by
  have hapart {b c : Binary} (hb : b.WellFormed) (hc : c.WellFormed) (h : b.Near v) (h' : c.Near v) :
      c.value ≤ b.value := by
    by_contra hlt
    obtain ⟨hle, heven⟩ := high_le_low hb hc (not_le.1 hlt)
    simp only [Near, Between, beq_iff_eq] at h h'
    split at h <;> split at h'
    · next hbe hce => linarith [heven hbe hce]
    all_goals linarith
  have hvalue := le_antisymm (hapart hc hb h' h) (hapart hb hc h h')
  have hcompare : (compare b.exponent c.exponent).then (compare b.mantissa c.mantissa) = .eq :=
    (Canonical.compare_eq hb.canonical hc.canonical).trans (compare_eq_iff_eq.2 hvalue)
  rw [Ordering.then_eq_eq, compare_eq_iff_eq, compare_eq_iff_eq] at hcompare
  obtain ⟨m, e, lowered⟩ := b
  obtain ⟨m', e', lowered'⟩ := c
  obtain ⟨rfl, rfl⟩ : e = e' ∧ m = m' := hcompare
  rw [Binary.mk.injEq, eq_self, true_and, eq_self, true_and, Bool.eq_iff_iff]
  exact hb.lowered.trans hc.lowered.symm

/-- A binary number is inside its interval. -/
theorem Binary.WellFormed.low_lt_value {b : Binary} (hb : b.WellFormed) :
    (b.low : ℚ) * 2 ^ (b.exponent - 2) < b.value ∧ b.value < b.high * 2 ^ (b.exponent - 2) := by
  have hunit : (0 : ℚ) < 2 ^ (b.exponent - 2) := by positivity
  have hvalue : b.value = (4 * b.mantissa : Nat) * 2 ^ (b.exponent - 2) := by
    rw [Binary.value, show b.exponent = 2 + (b.exponent - 2) by omega, zpow_add₀ (by norm_num)]
    push_cast
    norm_num
    ring
  have hpos := hb.canonical.pos
  rw [hvalue]
  refine ⟨mul_lt_mul_of_pos_right ?_ hunit, mul_lt_mul_of_pos_right ?_ hunit⟩
  · have hlow : b.low < 4 * b.mantissa := by
      rw [Binary.low]
      split <;> omega
    exact_mod_cast hlow
  · have hhigh : 4 * b.mantissa < b.high := by
      rw [Binary.high]
      omega
    exact_mod_cast hhigh

/-- A binary number is nearest to itself. -/
theorem near_value {b : Binary} (hb : b.WellFormed) : b.Near b.value :=
  .of_lt _ hb.low_lt_value.1 hb.low_lt_value.2

/-- A number nearest to a double is before every greater double. -/
theorem Binary.Near.lt_of_value_lt {b c : Binary} (hb : b.WellFormed) (hc : c.WellFormed) {v : ℚ}
    (h : b.Near v) (hlt : b.value < c.value) : v < c.value := by
  have hle := (high_le_low hb hc hlt).1
  have hlow := hc.low_lt_value.1
  simp only [Near, Between] at h
  split at h <;> linarith

/-- A number nearest to a double is beyond every smaller double. -/
theorem Binary.Near.lt_of_lt_value {b c : Binary} (hb : b.WellFormed) (hc : c.WellFormed) {v : ℚ}
    (h : b.Near v) (hlt : c.value < b.value) : c.value < v := by
  have hle := (high_le_low hc hb hlt).1
  have hhigh := hc.low_lt_value.2
  simp only [Near, Between] at h
  split at h <;> linarith

/-! ## Scaled quotients -/

/-- A power with an integer exponent is a quotient of two powers. -/
theorem zpow_mul_toNat (a : ℚ) (ha : a ≠ 0) (e : Int) : a ^ e * a ^ (-e).toNat = a ^ e.toNat := by
  rw [← zpow_natCast, ← zpow_natCast, ← zpow_add₀ ha]
  congr 1
  omega

theorem scale_eq (base : Nat) (e : Int) (n d : Nat) :
    scale base e (n, d) = (n * base ^ e.toNat, d * base ^ (-e).toNat) := by
  rw [scale]
  split
  · next h => simp [show (-e).toNat = 0 by omega]
  · next h => simp [show e.toNat = 0 by omega]

end RecurrenceCompiler.Decimal
